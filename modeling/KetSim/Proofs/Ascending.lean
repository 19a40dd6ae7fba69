import KetSim.Backend.Result
import KetSim.Json.Canonical
import KetSim.Proofs.Lookup

/-! # Ascending entries

Named values are kept as entries by ascending name. Such a list is determined by what
is found under each name, so it forgets the order in which the entries came.
-/
namespace KetSim

variable {β : Type}

/-- Entries by strictly ascending name. -/
def Ascending (entries : List (String × β)) : Prop := entries.Pairwise fun a b => a.1 < b.1

namespace Ascending

variable {entries entries' : List (String × β)} {name : String} {v : β}

theorem nodup (h : Ascending entries) : (entries.map Prod.fst).Nodup :=
  (List.pairwise_map.mpr h).imp ne_of_lt

theorem mem_iff_lookup (h : Ascending entries) :
    (name, v) ∈ entries ↔ entries.lookup name = some v :=
  ⟨lookup_eq_some_of_mem h.nodup, mem_of_lookup⟩

theorem lt_of_mem_after {before after : List (String × β)} {e e' : String × β}
    (h : Ascending (before ++ e :: after)) (he' : e' ∈ after) : e.1 < e'.1 :=
  (List.pairwise_cons.mp (List.pairwise_append.mp h).2.1).1 e' he'

/-- Two ascending lists in which the same is found are one list. -/
theorem ext (h : Ascending entries) (h' : Ascending entries')
    (hlookup : ∀ name, entries.lookup name = entries'.lookup name) : entries = entries' := by
  have : Std.Antisymm fun a b : String × β => a.1 < b.1 := ⟨fun _ _ hab hba => absurd hab hba.asymm⟩
  have : Std.Irrefl fun a b : String × β => a.1 < b.1 := ⟨fun _ => lt_irrefl _⟩
  refine List.Pairwise.eq_of_mem_iff h h' fun e => ?_
  rw [h.mem_iff_lookup, h'.mem_iff_lookup, hlookup]

end Ascending

/-! ## Insertion -/

/-- Gives a name the value that is made of its earlier one, if it had any. -/
def insertWith (name : String) (value : Option β → β) : List (String × β) → List (String × β)
  | [] => [(name, value none)]
  | (n, v) :: rest =>
    if name = n then (name, value (some v)) :: rest
    else if name < n then (name, value none) :: (n, v) :: rest
    else (n, v) :: insertWith name value rest

theorem Json.insertMember_eq (key : String) (value : Json) (members : List (String × Json)) :
    insertMember key value members = insertWith key (fun _ => value) members := by
  induction members with
  | nil => rfl
  | cons head rest ih => rw [insertMember, insertWith, ih]

theorem Counts.addTo_eq (outcome : String) (count : ℕ) (entries : List (String × ℕ)) :
    addTo outcome count entries = insertWith outcome (fun n => n.getD 0 + count) entries := by
  induction entries with
  | nil => simp [addTo, insertWith]
  | cons head rest ih =>
    rw [addTo, insertWith, ih]
    split_ifs with heq <;> simp [*]

variable {entries : List (String × β)}

theorem mem_insertWith {name : String} {value : Option β → β} {e : String × β}
    (h : e ∈ insertWith name value entries) : e ∈ entries ∨ e.1 = name ∧ ∃ v, e.2 = value v := by
  induction entries with
  | nil =>
    obtain rfl := List.mem_singleton.mp h
    exact .inr ⟨rfl, none, rfl⟩
  | cons head rest ih =>
    rw [insertWith] at h
    split_ifs at h
    · rcases List.mem_cons.mp h with rfl | h
      · exact .inr ⟨rfl, some head.2, rfl⟩
      · exact .inl (List.mem_cons_of_mem _ h)
    · rcases List.mem_cons.mp h with rfl | h
      · exact .inr ⟨rfl, none, rfl⟩
      · exact .inl h
    · rcases List.mem_cons.mp h with rfl | h
      · exact .inl List.mem_cons_self
      · exact (ih h).imp_left (List.mem_cons_of_mem _)

theorem Ascending.insertWith (h : Ascending entries) (name : String) (value : Option β → β) :
    Ascending (insertWith name value entries) := by
  induction entries with
  | nil => exact List.pairwise_singleton _ _
  | cons head rest ih =>
    obtain ⟨hhead, hrest⟩ := List.pairwise_cons.mp h
    rw [KetSim.insertWith]
    split_ifs with heq hlt
    · exact List.pairwise_cons.mpr ⟨fun e he => heq ▸ hhead e he, hrest⟩
    · refine List.pairwise_cons.mpr ⟨fun e he => ?_, h⟩
      rcases List.mem_cons.mp he with rfl | he
      · exact hlt
      · exact hlt.trans (hhead e he)
    · refine List.pairwise_cons.mpr ⟨fun e he => ?_, ih hrest⟩
      rcases mem_insertWith he with he | ⟨hname, -⟩
      · exact hhead e he
      · rw [hname]
        exact lt_of_le_of_ne (not_lt.mp hlt) (Ne.symm heq)

/-- A name below all others is not found. -/
theorem lookup_eq_none_of_lt {name : String} (h : ∀ e ∈ entries, name < e.1) :
    entries.lookup name = none := by
  refine lookup_eq_none.mpr fun hmem => ?_
  obtain ⟨e, he, rfl⟩ := List.mem_map.mp hmem
  exact lt_irrefl _ (h e he)

/-- The name is found with its new value, and every other name as before. -/
theorem Ascending.lookup_insertWith (h : Ascending entries) (name other : String)
    (value : Option β → β) : (KetSim.insertWith name value entries).lookup other =
      if other = name then some (value (entries.lookup name)) else entries.lookup other := by
  induction entries with
  | nil => exact lookup_cons_ite name other _
  | cons head rest ih =>
    obtain ⟨n, v⟩ := head
    obtain ⟨hhead, hrest⟩ := List.pairwise_cons.mp h
    rw [KetSim.insertWith, lookup_cons_ite n name]
    by_cases heq : name = n
    · rw [if_pos heq, if_pos heq, lookup_cons_ite, lookup_cons_ite, heq]
      split_ifs <;> rfl
    by_cases hlt : name < n
    · have hnone : rest.lookup name = none :=
        lookup_eq_none_of_lt fun e he => hlt.trans (hhead e he)
      rw [if_neg heq, if_neg heq, if_pos hlt, lookup_cons_ite, hnone]
    · rw [if_neg heq, if_neg heq, if_neg hlt, lookup_cons_ite, lookup_cons_ite, ih hrest]
      by_cases hother : other = n
      · rw [if_pos hother, if_pos hother, if_neg fun h => heq (h.symm.trans hother)]
      · rw [if_neg hother, if_neg hother]

end KetSim
