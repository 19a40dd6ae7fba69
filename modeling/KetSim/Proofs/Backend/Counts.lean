import KetSim.Proofs.Ascending

/-! # Counts of shots

Counts add up outcomes one at a time. They are kept by ascending outcome and never
zero, so they are determined by how often each outcome came, in whatever order. The
scan for the most frequent outcome stops with the least one of the greatest count.
-/
namespace KetSim

namespace Counts

/-! ## Entries -/

/-- Counts by ascending outcome, none of which is zero. -/
structure Proper (c : Counts) : Prop where
  ascending : Ascending c.entries
  positive : ∀ e ∈ c.entries, 0 < e.2

variable {c d : Counts} {outcome s : String} {count n : ℕ}

theorem proper_empty : empty.Proper where
  ascending := List.Pairwise.nil
  positive _ he := absurd he List.not_mem_nil

theorem ascending_insert (h : Ascending c.entries) (outcome : String) (count : ℕ) :
    Ascending (c.insert outcome count).entries := by
  rw [Counts.insert, addTo_eq]
  exact h.insertWith outcome _

theorem Proper.insert (h : c.Proper) (outcome : String) (hcount : 0 < count) :
    (c.insert outcome count).Proper where
  ascending := ascending_insert h.ascending outcome count
  positive e he := by
    rw [Counts.insert, addTo_eq] at he
    rcases mem_insertWith he with he | ⟨-, v, hv⟩
    · exact h.positive e he
    · omega

theorem get_insert (h : Ascending c.entries) (outcome s : String) (count : ℕ) :
    (c.insert outcome count).get s = c.get s + if s = outcome then count else 0 := by
  rw [get, Counts.insert, addTo_eq, h.lookup_insertWith]
  by_cases hs : s = outcome
  · rw [if_pos hs, if_pos hs, hs]
    rfl
  · rw [if_neg hs, if_neg hs]
    rfl

theorem get_of_mem (h : Ascending c.entries) (he : (s, n) ∈ c.entries) : c.get s = n := by
  rw [get, h.mem_iff_lookup.mp he]
  rfl

/-- An outcome is listed with its count unless this is zero. -/
theorem Proper.mem_iff (h : c.Proper) : (s, n) ∈ c.entries ↔ c.get s = n ∧ 0 < n := by
  constructor
  · exact fun he => ⟨get_of_mem h.ascending he, h.positive _ he⟩
  · rintro ⟨rfl, hpositive⟩
    rw [h.ascending.mem_iff_lookup]
    cases hs : c.entries.lookup s with
    | none => simp [get, hs] at hpositive
    | some m => simp [get, hs]

theorem Proper.ext (h : c.Proper) (h' : d.Proper) (hget : ∀ s, c.get s = d.get s) : c = d := by
  have hlookup (s : String) : c.entries.lookup s = d.entries.lookup s := by
    refine Option.ext fun n => ?_
    rw [← h.ascending.mem_iff_lookup, ← h'.ascending.mem_iff_lookup, h.mem_iff, h'.mem_iff, hget]
  exact congrArg Counts.mk (h.ascending.ext h'.ascending hlookup)

/-! ## Outcomes one at a time -/

/-- The counts of some outcomes, added one at a time. -/
def tally (outcomes : List String) : Counts :=
  outcomes.foldl (fun c outcome => c.insert outcome 1) .empty

theorem tally_concat (outcomes : List String) (outcome : String) :
    tally (outcomes ++ [outcome]) = (tally outcomes).insert outcome 1 := by
  rw [tally, List.foldl_append]
  rfl

theorem proper_tally (outcomes : List String) : (tally outcomes).Proper := by
  induction outcomes using List.reverseRecOn with
  | nil => exact proper_empty
  | append_singleton outcomes outcome ih =>
    rw [tally_concat]
    exact ih.insert outcome Nat.one_pos

theorem get_tally (outcomes : List String) (s : String) :
    (tally outcomes).get s = outcomes.count s := by
  induction outcomes using List.reverseRecOn with
  | nil => rfl
  | append_singleton outcomes outcome ih =>
    rw [tally_concat, get_insert (proper_tally outcomes).ascending, ih, List.count_append]
    by_cases hs : s = outcome
    · simp [hs]
    · simp [hs, Ne.symm hs]

theorem total_tally (outcomes : List String) : (tally outcomes).total = outcomes.length := by
  induction outcomes using List.reverseRecOn with
  | nil => rfl
  | append_singleton outcomes outcome ih =>
    rw [tally_concat, total_insert, ih, List.length_append, List.length_singleton]

theorem mem_tally {outcomes : List String} :
    (s, n) ∈ (tally outcomes).entries ↔ s ∈ outcomes ∧ n = outcomes.count s := by
  rw [(proper_tally outcomes).mem_iff, get_tally, ← List.count_pos_iff]
  constructor
  · rintro ⟨rfl, hpositive⟩
    exact ⟨hpositive, rfl⟩
  · rintro ⟨hpositive, rfl⟩
    exact ⟨rfl, hpositive⟩

theorem size_tally (outcomes : List String) :
    (tally outcomes).size = outcomes.toFinset.card := by
  have hmem (s : String) : s ∈ (tally outcomes).entries.map Prod.fst ↔ s ∈ outcomes := by
    simp [mem_tally]
  rw [size, ← List.length_map Prod.fst,
    ← List.toFinset_card_of_nodup (proper_tally outcomes).ascending.nodup]
  refine congrArg Finset.card (Finset.ext fun s => ?_)
  rw [List.mem_toFinset, List.mem_toFinset, hmem]

theorem tally_perm {outcomes outcomes' : List String} (h : outcomes.Perm outcomes') :
    tally outcomes = tally outcomes' :=
  (proper_tally outcomes).ext (proper_tally outcomes') fun s => by
    rw [get_tally, get_tally, h.count_eq]

/-! ## Sums -/

/-- Adds the counts of the second to those of the first. -/
def merge (c d : Counts) : Counts := d.entries.foldl (fun c e => c.insert e.1 e.2) c

theorem get_foldl_insert {entries : List (String × ℕ)} (hentries : Ascending entries)
    (h : Ascending c.entries) (s : String) :
    (entries.foldl (fun c e => c.insert e.1 e.2) c).get s =
      c.get s + (entries.lookup s).getD 0 := by
  induction entries generalizing c with
  | nil => rfl
  | cons e rest ih =>
    obtain ⟨hhead, hrest⟩ := List.pairwise_cons.mp hentries
    rw [List.foldl_cons, ih hrest (ascending_insert h e.1 e.2), get_insert h, lookup_cons_ite]
    by_cases hs : s = e.1
    · rw [if_pos hs, if_pos hs, hs, lookup_eq_none_of_lt hhead]
      rfl
    · rw [if_neg hs, if_neg hs, add_zero]

theorem Proper.merge (h : c.Proper) (h' : d.Proper) : (c.merge d).Proper := by
  rw [Counts.merge]
  have hpositive := h'.positive
  generalize d.entries = entries at hpositive
  induction entries generalizing c with
  | nil => exact h
  | cons e rest ih =>
    obtain ⟨he, hrest⟩ := List.forall_mem_cons.mp hpositive
    exact ih (h.insert e.1 he) hrest

theorem tally_append (outcomes outcomes' : List String) :
    tally (outcomes ++ outcomes') = (tally outcomes).merge (tally outcomes') := by
  have h := proper_tally outcomes
  have h' := proper_tally outcomes'
  refine (proper_tally _).ext (h.merge h') fun s => ?_
  have hget : ((tally outcomes).merge (tally outcomes')).get s =
      (tally outcomes).get s + (tally outcomes').get s :=
    get_foldl_insert h'.ascending h.ascending s
  rw [hget, get_tally, get_tally, get_tally, List.count_append]

/-! ## The most frequent outcome -/

/-- An entry of greatest count, with the least outcome of that count. -/
structure Leads (entries : List (String × ℕ)) (e : String × ℕ) : Prop where
  mem : e ∈ entries
  count_le : ∀ e' ∈ entries, e'.2 ≤ e.2
  outcome_le : ∀ e' ∈ entries, e'.2 = e.2 → e.1 ≤ e'.1

theorem Leads.eq {entries : List (String × ℕ)} {e e' : String × ℕ} (h : Leads entries e)
    (h' : Leads entries e') : e = e' := by
  have hcount : e.2 = e'.2 := le_antisymm (h'.count_le e h.mem) (h.count_le e' h'.mem)
  exact Prod.ext (le_antisymm (h.outcome_le e' h'.mem hcount.symm)
    (h'.outcome_le e h.mem hcount)) hcount

theorem compareEntries_eq_gt {a b : String × ℕ} :
    compareEntries a b = .gt ↔ b.2 < a.2 ∨ a.2 = b.2 ∧ a.1 < b.1 := by
  rw [compareEntries, Ordering.then_eq_gt, compare_gt_iff_gt, compare_eq_iff_eq, compare_gt_iff_gt]

/-- One more entry leads unless the leader exceeds it. -/
theorem Leads.concat {entries : List (String × ℕ)} {e : String × ℕ} (h : Leads entries e)
    (e' : String × ℕ) :
    Leads (entries ++ [e']) (if compareEntries e e' = .gt then e else e') := by
  split_ifs with hgt <;> rw [compareEntries_eq_gt] at hgt
  · have hcount : e'.2 ≤ e.2 := by omega
    refine ⟨List.mem_append_left _ h.mem, fun x hx => ?_, fun x hx hxe => ?_⟩
    · rcases List.mem_append.mp hx with hx | hx
      · exact h.count_le x hx
      · exact List.mem_singleton.mp hx ▸ hcount
    · rcases List.mem_append.mp hx with hx | hx
      · exact h.outcome_le x hx hxe
      · obtain rfl := List.mem_singleton.mp hx
        rcases hgt with hlt | ⟨-, hlt⟩
        · omega
        · exact hlt.le
  · obtain ⟨hcount, houtcome⟩ : e.2 ≤ e'.2 ∧ (e.2 = e'.2 → e'.1 ≤ e.1) := by
      rw [not_or, not_and, not_lt] at hgt
      exact ⟨hgt.1, fun heq => not_lt.mp (hgt.2 heq)⟩
    refine ⟨List.mem_append_right _ (List.mem_singleton_self _), fun x hx => ?_, fun x hx hxe => ?_⟩
    · rcases List.mem_append.mp hx with hx | hx
      · exact (h.count_le x hx).trans hcount
      · exact (congrArg Prod.snd (List.mem_singleton.mp hx)).le
    · rcases List.mem_append.mp hx with hx | hx
      · have hle := h.count_le x hx
        exact (houtcome (by omega)).trans (h.outcome_le x hx (by omega))
      · exact (congrArg Prod.fst (List.mem_singleton.mp hx)).ge

/-- The scan through the entries stops with the leading one. -/
theorem maxBy?_cases (entries : List (String × ℕ)) :
    entries = [] ∧ maxBy? compareEntries entries = none ∨
      ∃ e, maxBy? compareEntries entries = some e ∧ Leads entries e := by
  cases entries with
  | nil => exact .inl ⟨rfl, rfl⟩
  | cons e rest =>
    refine .inr ⟨_, rfl, ?_⟩
    induction rest using List.reverseRecOn with
    | nil =>
      refine ⟨List.mem_singleton_self _, fun x hx => ?_, fun x hx _ => ?_⟩
      · exact (congrArg Prod.snd (List.mem_singleton.mp hx)).le
      · exact (congrArg Prod.fst (List.mem_singleton.mp hx)).ge
    | append_singleton rest x ih =>
      rw [List.foldl_append, ← List.cons_append]
      exact ih.concat x

theorem mostFrequent?_eq_some {e : String × ℕ} :
    c.mostFrequent? = some e ↔ Leads c.entries e := by
  obtain ⟨hnil, hnone⟩ | ⟨e', he', hleads⟩ := maxBy?_cases c.entries
  · rw [mostFrequent?, hnone, hnil]
    exact iff_of_false (fun h => nomatch h) fun h => absurd h.mem List.not_mem_nil
  · rw [mostFrequent?, he', Option.some.injEq]
    constructor
    · rintro rfl
      exact hleads
    · exact hleads.eq

theorem mostFrequent?_eq_none : c.mostFrequent? = none ↔ c.entries = [] := by
  obtain ⟨hnil, hnone⟩ | ⟨e, he, hleads⟩ := maxBy?_cases c.entries
  · exact iff_of_true hnone hnil
  · rw [mostFrequent?, he]
    exact iff_of_false (fun h => nomatch h) (List.ne_nil_of_mem hleads.mem)

theorem leads_tally {outcomes : List String} : Leads (tally outcomes).entries (s, n) ↔
    s ∈ outcomes ∧ n = outcomes.count s ∧
      ∀ s', outcomes.count s' ≤ n ∧ (outcomes.count s' = n → s ≤ s') := by
  constructor
  · rintro ⟨hmem, hcount, houtcome⟩
    obtain ⟨hs, rfl⟩ := mem_tally.mp hmem
    refine ⟨hs, rfl, fun s' => ?_⟩
    by_cases hs' : s' ∈ outcomes
    · have he : (s', outcomes.count s') ∈ (tally outcomes).entries := mem_tally.mpr ⟨hs', rfl⟩
      exact ⟨hcount _ he, houtcome _ he⟩
    · have hpositive := List.count_pos_iff.mpr hs
      rw [List.count_eq_zero.mpr hs']
      exact ⟨Nat.zero_le _, fun h => absurd h.symm hpositive.ne'⟩
  · rintro ⟨hs, rfl, hall⟩
    refine ⟨mem_tally.mpr ⟨hs, rfl⟩, fun e he => ?_, fun e he heq => ?_⟩
    · obtain ⟨-, hn⟩ := mem_tally.mp he
      exact hn ▸ (hall e.1).1
    · obtain ⟨-, hn⟩ := mem_tally.mp he
      exact (hall e.1).2 (hn.symm.trans heq)

theorem entries_tally_eq_nil {outcomes : List String} :
    (tally outcomes).entries = [] ↔ outcomes = [] := by
  constructor
  · intro h
    refine List.eq_nil_iff_forall_not_mem.mpr fun s hs => ?_
    have he : (s, outcomes.count s) ∈ (tally outcomes).entries := mem_tally.mpr ⟨hs, rfl⟩
    rw [h] at he
    exact List.not_mem_nil he
  · rintro rfl
    rfl

end Counts

/-! ## Tables -/

namespace ShotTable

/-- The counts of a table are those of its rows in any order, since they are added one at a time. -/
theorem counts_eq_tally (t : ShotTable) : t.counts = Counts.tally (t.rows.map spelling) :=
  Counts.tally_perm (List.mergeSort_perm _ _)

/-- The counts of a table are added up row by row, and say how often each outcome is spelled by a
row. They have the number of rows as their total and an entry for each outcome that is spelled,
whatever the order of the rows, and those of two tables add up to the counts of all their rows.
There is a most frequent outcome unless there are no rows: one of the greatest count, and the least
of these. -/
theorem counts_histogram (t : ShotTable) :
    t.counts = t.rows.foldl (fun c row => c.insert (spelling row) 1) .empty ∧
    (∀ s, t.counts.get s = t.rows.countP (spelling · = s)) ∧
    t.counts.total = t.rows.length ∧
    t.counts.size = (t.rows.map spelling).toFinset.card ∧
    (∀ t' : ShotTable, t'.rows.Perm t.rows → t'.counts = t.counts) ∧
    (∀ t' : ShotTable, (mk t.width (t.rows ++ t'.rows)).counts = t.counts.merge t'.counts ∧
      ∀ s, (mk t.width (t.rows ++ t'.rows)).counts.get s = t.counts.get s + t'.counts.get s) ∧
    (t.counts.mostFrequent? = none ↔ t.rows = []) ∧
    ∀ s n, t.counts.mostFrequent? = some (s, n) ↔
      s ∈ t.rows.map spelling ∧ n = t.counts.get s ∧
        ∀ s', t.counts.get s' ≤ n ∧ (t.counts.get s' = n → s ≤ s') := by
  have hget (t : ShotTable) (s : String) : t.counts.get s = (t.rows.map spelling).count s := by
    rw [counts_eq_tally, Counts.get_tally]
  refine ⟨?_, fun s => ?_, ?_, ?_, fun t' h => ?_, fun t' => ⟨?_, fun s => ?_⟩, ?_, fun s n => ?_⟩
  · rw [counts_eq_tally, Counts.tally, List.foldl_map]
  · rw [hget, List.count, List.countP_map]
    exact List.countP_congr fun row _ => by simp
  · rw [counts_eq_tally, Counts.total_tally, List.length_map]
  · rw [counts_eq_tally, Counts.size_tally]
  · rw [counts_eq_tally, counts_eq_tally, Counts.tally_perm (h.map spelling)]
  · rw [counts_eq_tally, counts_eq_tally, counts_eq_tally, List.map_append, Counts.tally_append]
  · rw [hget, hget, hget, List.map_append, List.count_append]
  · rw [counts_eq_tally, Counts.mostFrequent?_eq_none, Counts.entries_tally_eq_nil,
      List.map_eq_nil_iff]
  · simp only [hget]
    rw [counts_eq_tally, Counts.mostFrequent?_eq_some, Counts.leads_tally]

/-- Of two outcomes that come twice, in any order of the rows, the lesser one is the most
frequent. -/
theorem counts_histogram_tie :
    let t : ShotTable := ⟨2, [[1, 0], [0, 3], [1, 0], [0, 1], [0, 0]]⟩
    let t' : ShotTable := ⟨2, [[0, 0], [0, 1], [1, 0], [0, 3], [1, 0]]⟩
    t'.rows.Perm t.rows ∧ t'.counts = t.counts ∧ t'.counts.total = 5 ∧
      t'.counts.mostFrequent? = some ("01", 2) := by
  intro t t'
  have hperm : t'.rows.Perm t.rows := by decide
  obtain ⟨hrows, -, -, -, horder, -⟩ := counts_histogram t
  obtain ⟨-, -, htotal, -⟩ := counts_histogram t'
  have hfrequent : t.counts.mostFrequent? = some ("01", 2) := by
    rw [hrows]
    decide
  refine ⟨hperm, horder t' hperm, htotal, ?_⟩
  rw [horder t' hperm, hfrequent]

end ShotTable

end KetSim
