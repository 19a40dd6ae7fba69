import Mathlib

/-! # Lookups

The cache, the job store and the layout keep their entries in a list of pairs. With
one entry for each key, a key is found exactly if it is listed.
-/
namespace KetSim

variable {κ β : Type} [BEq κ] [LawfulBEq κ] {entries : List (κ × β)} {k : κ} {v : β}

theorem mem_of_lookup (h : entries.lookup k = some v) : (k, v) ∈ entries := by
  obtain ⟨before, after, rfl, -⟩ := List.lookup_eq_some_iff.mp h
  simp

theorem lookup_eq_some_of_mem (hn : (entries.map Prod.fst).Nodup) (h : (k, v) ∈ entries) :
    entries.lookup k = some v := by
  obtain ⟨before, after, rfl⟩ := List.append_of_mem h
  refine List.lookup_eq_some_iff.mpr ⟨before, after, rfl, ?_⟩
  intro p hp
  rw [List.map_append, List.map_cons, List.nodup_append] at hn
  have hne := hn.2.2 p.1 (List.mem_map_of_mem hp) k List.mem_cons_self
  simpa using hne.symm

theorem lookup_eq_none : entries.lookup k = none ↔ k ∉ entries.map Prod.fst := by
  rw [List.lookup_eq_none_iff]
  simp only [bne_iff_ne, List.mem_map, not_exists, not_and]
  constructor
  · intro h p hp hk
    exact h p hp hk.symm
  · intro h p hp hk
    exact h p hp hk.symm

theorem lookup_perm {entries' : List (κ × β)} (h : entries.Perm entries')
    (hn : (entries.map Prod.fst).Nodup) (k : κ) : entries.lookup k = entries'.lookup k := by
  apply Option.ext
  intro v
  constructor
  · exact fun hv =>
      lookup_eq_some_of_mem ((h.map _).nodup_iff.mp hn) (h.mem_iff.mp (mem_of_lookup hv))
  · exact fun hv => lookup_eq_some_of_mem hn (h.mem_iff.mpr (mem_of_lookup hv))

theorem lookup_cons_ite [DecidableEq κ] (k other : κ) (v : β) :
    ((k, v) :: entries).lookup other = if other = k then some v else entries.lookup other := by
  rw [List.lookup_cons]
  by_cases hother : other = k
  · rw [if_pos hother, hother, beq_self_eq_true]
  · rw [if_neg hother, beq_false_of_ne hother]

theorem lookup_concat [DecidableEq κ] (h : entries.lookup k = none) (v : β) (other : κ) :
    (entries ++ [(k, v)]).lookup other = if other = k then some v else entries.lookup other := by
  rw [List.lookup_append, lookup_cons_ite, List.lookup_nil]
  by_cases hother : other = k
  · rw [if_pos hother, if_pos hother, hother, h, Option.none_or]
  · rw [if_neg hother, if_neg hother, Option.or_none]

/-- The entries of some keys are found under these keys only. -/
theorem lookup_filter (f : κ → Bool) (entries : List (κ × β)) (k : κ) :
    (entries.filter fun e => f e.1).lookup k = if f k then entries.lookup k else none := by
  induction entries with
  | nil => rw [List.filter_nil, List.lookup_nil, ite_self]
  | cons head rest ih =>
    obtain ⟨key, value⟩ := head
    by_cases hk : k = key
    · subst hk
      cases hf : f k <;> simp [hf, ih]
    · have hne : (k == key) = false := beq_false_of_ne hk
      cases hf : f key <;> simp [List.lookup_cons, hf, hne, ih]

end KetSim
