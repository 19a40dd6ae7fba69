import KetSim.Proofs.Backend.Reachable

/-! # Clients that share a cache

A preparation looks into the cache, compiles without holding it, and stores what
it made; other clients come in between. Under any interleaving the order lists the
kept keys by their age, and room is made by dropping the oldest one.
-/
namespace KetSim

variable {α : Type}

/-! ## The cache as a queue -/

namespace Cache

variable {c : Cache α} {capacity : ℕ}

def find? (c : Cache α) (key : CircuitKey) : Option (Prepared α) := c.entries.lookup key

/-- The order lists the keys of the entries once each, every entry is kept under its own key, and
there are no more entries than the capacity allows. -/
structure Consistent (c : Cache α) (capacity : ℕ) : Prop where
  keys : c.entries.map (·.1) = c.order
  nodup : c.order.Nodup
  own : ∀ entry ∈ c.entries, entry.2.key = entry.1
  bounded : c.size ≤ capacity

/-- The kept keys were entered one after the other, in their order, and before now. -/
structure Aged (c : Cache α) (entered : CircuitKey → ℕ) (now : ℕ) : Prop where
  ascending : c.order.Pairwise fun k k' => entered k < entered k'
  past : ∀ k ∈ c.order, entered k < now

def dropOldest (c : Cache α) : Cache α := ⟨c.entries.tail, c.order.tail⟩

/-- Drops the oldest entry of a full cache. -/
def makeRoom (c : Cache α) (capacity : ℕ) : Cache α :=
  if c.size = capacity then c.dropOldest else c

def push (c : Cache α) (p : Prepared α) : Cache α :=
  ⟨c.entries ++ [(p.key, p)], c.order ++ [p.key]⟩

theorem consistent_empty (capacity : ℕ) : (empty : Cache α).Consistent capacity :=
  ⟨rfl, .nil, fun _ he => absurd he List.not_mem_nil, Nat.zero_le _⟩

theorem aged_empty (entered : CircuitKey → ℕ) (now : ℕ) : (empty : Cache α).Aged entered now :=
  ⟨.nil, fun _ hk => absurd hk List.not_mem_nil⟩

theorem find?_push {p : Prepared α} (h : c.find? p.key = none) (key : CircuitKey) :
    (c.push p).find? key = if key = p.key then some p else c.find? key :=
  lookup_concat h p key

theorem size_push (c : Cache α) (p : Prepared α) : (c.push p).size = c.size + 1 := by
  simp [size, push]

theorem size_dropOldest (c : Cache α) : c.dropOldest.size = c.size - 1 := by
  simp [size, dropOldest]

namespace Consistent

theorem find?_eq_none (h : c.Consistent capacity) {key : CircuitKey} :
    c.find? key = none ↔ key ∉ c.order := by
  rw [find?, lookup_eq_none, h.keys]

theorem dropOldest (h : c.Consistent capacity) : c.dropOldest.Consistent capacity := by
  have hsize := c.size_dropOldest
  have hbounded := h.bounded
  refine ⟨?_, h.nodup.tail, fun entry he => h.own entry (List.mem_of_mem_tail he), by omega⟩
  rw [Cache.dropOldest, List.map_tail, h.keys]

theorem push (h : c.Consistent capacity) {p : Prepared α} (hnew : p.key ∉ c.order)
    (hroom : c.size < capacity) : (c.push p).Consistent capacity := by
  have hsize := c.size_push p
  refine ⟨?_, ?_, fun entry he => ?_, by omega⟩
  · rw [Cache.push, List.map_append, h.keys]
    rfl
  · rw [Cache.push, List.nodup_append]
    refine ⟨h.nodup, List.nodup_singleton _, fun k hk k' hk' => ?_⟩
    rw [List.mem_singleton.mp hk']
    exact ne_of_mem_of_not_mem hk hnew
  · rcases List.mem_append.mp he with he | he
    · exact h.own entry he
    · rw [List.mem_singleton.mp he]

/-- The order splits off its head when the entries do. -/
theorem exists_oldest (h : c.Consistent capacity) (hsize : 0 < c.size) :
    ∃ oldest p entries order, c = ⟨(oldest, p) :: entries, oldest :: order⟩ ∧
      entries.map (·.1) = order ∧ oldest ∉ order := by
  obtain ⟨entries, order⟩ := c
  obtain rfl : entries.map (·.1) = order := h.keys
  cases entries with
  | nil => cases hsize
  | cons entry rest =>
    obtain ⟨holdest, -⟩ := List.nodup_cons.mp h.nodup
    exact ⟨entry.1, entry.2, rest, rest.map (·.1), rfl, rfl, holdest⟩

/-- A full cache loses its oldest entry to make room, and no other entry. -/
theorem evict_eq (h : c.Consistent capacity) (hcapacity : 0 < capacity) :
    evict capacity c.entries c.order = c.makeRoom capacity := by
  have hbounded := h.bounded
  by_cases hsize : 0 < c.size
  · obtain ⟨oldest, p, entries, order, rfl, hkeys, holdest⟩ := h.exists_oldest hsize
    have hlength : (⟨(oldest, p) :: entries, oldest :: order⟩ : Cache α).size =
        entries.length + 1 := rfl
    have hfilter : ((oldest, p) :: entries).filter (·.1 ≠ oldest) = entries := by
      rw [List.filter_cons_of_neg (by simp), List.filter_eq_self]
      intro entry he
      have hmem : entry.1 ∈ order := hkeys ▸ List.mem_map_of_mem he
      simpa using ne_of_mem_of_not_mem hmem holdest
    have hstop : evict capacity entries order = ⟨entries, order⟩ := by
      cases order with
      | nil => rfl
      | cons k rest => rw [evict, if_neg (by omega)]
    rw [evict, hfilter, hstop, Cache.makeRoom]
    by_cases hfull : entries.length + 1 = capacity
    · rw [if_pos (by simp; omega), if_pos (by omega)]
      rfl
    · rw [if_neg (by simp; omega), if_neg (by omega)]
  · obtain ⟨entries, order⟩ := c
    obtain rfl : entries = [] := List.length_eq_zero_iff.mp (Nat.eq_zero_of_not_pos hsize)
    obtain rfl : [] = order := h.keys
    rw [Cache.makeRoom, if_neg (by simp only [size, List.length_nil]; omega)]
    rfl

theorem exists_find?_dropOldest (h : c.Consistent capacity) (hsize : 0 < c.size) :
    ∃ oldest order, c.order = oldest :: order ∧ ∀ key,
      c.dropOldest.find? key = if key = oldest then none else c.find? key := by
  obtain ⟨oldest, p, entries, order, rfl, hkeys, holdest⟩ := h.exists_oldest hsize
  refine ⟨oldest, order, rfl, fun key => ?_⟩
  rw [find?, find?, Cache.dropOldest, List.tail_cons, List.lookup_cons]
  by_cases hkey : key = oldest
  · rw [if_pos hkey, hkey, lookup_eq_none, hkeys]
    exact holdest
  · rw [if_neg hkey, beq_false_of_ne hkey]

theorem size_makeRoom (h : c.Consistent capacity) (hcapacity : 0 < capacity) :
    (c.makeRoom capacity).size < capacity := by
  have hbounded := h.bounded
  have hdrop := c.size_dropOldest
  rw [makeRoom]
  split <;> omega

theorem makeRoom (h : c.Consistent capacity) : (c.makeRoom capacity).Consistent capacity := by
  rw [Cache.makeRoom]
  split
  · exact h.dropOldest
  · exact h

variable [BEq α]

/-- A new key is entered last, after the oldest one has left a full cache. -/
theorem insert_eq (h : c.Consistent capacity) {p : Prepared α} (hnew : c.find? p.key = none)
    (hcapacity : 0 < capacity) :
    c.insert capacity p = ((c.makeRoom capacity).push p, p) := by
  have hlookup : c.entries.lookup p.key = none := hnew
  simp only [Cache.insert, hlookup, if_neg (Nat.ne_of_gt hcapacity), h.evict_eq hcapacity]
  rfl

end Consistent

theorem sublist_makeRoom (c : Cache α) (capacity : ℕ) :
    (c.makeRoom capacity).order.Sublist c.order := by
  rw [makeRoom]
  split
  · exact List.tail_sublist c.order
  · exact List.Sublist.refl c.order

theorem Aged.sublist {entered : CircuitKey → ℕ} {now : ℕ} (h : c.Aged entered now) {d : Cache α}
    (hd : d.order.Sublist c.order) : d.Aged entered now :=
  ⟨h.ascending.sublist hd, fun k hk => h.past k (hd.subset hk)⟩

theorem Aged.later {entered : CircuitKey → ℕ} {now : ℕ} (h : c.Aged entered now) :
    c.Aged entered (now + 1) :=
  ⟨h.ascending, fun k hk => Nat.lt_succ_of_lt (h.past k hk)⟩

/-- A key that is not kept may be entered now. -/
theorem Aged.enter {entered : CircuitKey → ℕ} {now : ℕ} (h : c.Aged entered now)
    {key : CircuitKey} (hkey : key ∉ c.order) :
    c.Aged (Function.update entered key now) (now + 1) := by
  have hkeep (k : CircuitKey) (hk : k ∈ c.order) : Function.update entered key now k = entered k :=
    Function.update_of_ne (ne_of_mem_of_not_mem hk hkey) _ _
  refine ⟨h.ascending.imp_of_mem fun {k k'} hk hk' hlt => ?_, fun k hk => ?_⟩
  · rw [hkeep k hk, hkeep k' hk']
    exact hlt
  · rw [hkeep k hk]
    exact Nat.lt_succ_of_lt (h.past k hk)

theorem Aged.push {entered : CircuitKey → ℕ} {now : ℕ} (h : c.Aged entered now) {p : Prepared α}
    (hp : p.key ∉ c.order) : (c.push p).Aged (Function.update entered p.key now) (now + 1) := by
  have hc := h.enter hp
  have hself : Function.update entered p.key now p.key = now := Function.update_self _ _ _
  refine ⟨?_, fun k hk => ?_⟩
  · rw [Cache.push, List.pairwise_append]
    refine ⟨hc.ascending, List.pairwise_singleton _ _, fun k hk k' hk' => ?_⟩
    rw [List.mem_singleton.mp hk', hself, Function.update_of_ne (ne_of_mem_of_not_mem hk hp)]
    exact h.past k hk
  · rcases List.mem_append.mp hk with hk | hk
    · exact hc.past k hk
    · rw [List.mem_singleton.mp hk, hself]
      exact Nat.lt_succ_self now

variable [BEq α]

theorem insert_of_kept {p stored : Prepared α} (h : c.find? p.key = some stored) (capacity : ℕ) :
    c.insert capacity p = (c, if stored.source == p.source then stored else p) := by
  have hlookup : c.entries.lookup p.key = some stored := h
  simp only [insert, hlookup]
  split <;> rfl

theorem insert_snd_of_new {p : Prepared α} (h : c.find? p.key = none) (capacity : ℕ) :
    (c.insert capacity p).2 = p := by
  have hlookup : c.entries.lookup p.key = none := h
  simp only [insert, hlookup]
  split <;> rfl

theorem insert_zero_fst (c : Cache α) (p : Prepared α) : (c.insert 0 p).1 = c := by
  rw [insert]
  split
  · split <;> rfl
  · rfl

/-- An insertion leaves the cache as it is, or enters a new key. -/
theorem Consistent.insert_cases (h : c.Consistent capacity) (p : Prepared α) :
    (c.insert capacity p).1 = c ∨ 0 < capacity ∧ c.find? p.key = none ∧
      (c.insert capacity p).1 = (c.makeRoom capacity).push p := by
  cases hfind : c.find? p.key with
  | some stored => exact .inl (by rw [insert_of_kept hfind])
  | none =>
    rcases Nat.eq_zero_or_pos capacity with rfl | hcapacity
    · exact .inl (c.insert_zero_fst p)
    · exact .inr ⟨hcapacity, rfl, by rw [h.insert_eq hfind hcapacity]⟩

theorem Consistent.insert (h : c.Consistent capacity) (p : Prepared α) :
    (c.insert capacity p).1.Consistent capacity := by
  obtain heq | ⟨hcapacity, hnew, heq⟩ := h.insert_cases p
  · rw [heq]
    exact h
  · have hkey : p.key ∉ c.order := h.find?_eq_none.mp hnew
    rw [heq]
    exact h.makeRoom.push (fun hmem => hkey ((c.sublist_makeRoom capacity).subset hmem))
      (h.size_makeRoom hcapacity)

theorem Consistent.find?_insert_of_room (h : c.Consistent capacity) {p : Prepared α}
    (hnew : c.find? p.key = none) (hroom : c.size < capacity) (key : CircuitKey) :
    (c.insert capacity p).1.find? key = if key = p.key then some p else c.find? key := by
  have hkept : c.makeRoom capacity = c := by rw [Cache.makeRoom, if_neg (by omega)]
  rw [h.insert_eq hnew (by omega), hkept, find?_push hnew]

/-- A new key takes the place of the oldest one in a full cache. -/
theorem Consistent.exists_find?_insert_of_full (h : c.Consistent capacity)
    {entered : CircuitKey → ℕ} {now : ℕ} (ha : c.Aged entered now) {p : Prepared α}
    (hnew : c.find? p.key = none) (hcapacity : 0 < capacity) (hfull : c.size = capacity) :
    ∃ oldest ∈ c.order, (∀ key ∈ c.order, key ≠ oldest → entered oldest < entered key) ∧
      ∀ key, (c.insert capacity p).1.find? key =
        if key = p.key then some p else if key = oldest then none else c.find? key := by
  have hdrop : c.makeRoom capacity = c.dropOldest := by rw [Cache.makeRoom, if_pos hfull]
  obtain ⟨oldest, order, horder, hfind⟩ := h.exists_find?_dropOldest (by omega)
  have hages := ha.ascending
  rw [horder] at hages ⊢
  obtain ⟨holder, -⟩ := List.pairwise_cons.mp hages
  refine ⟨oldest, List.mem_cons_self, fun key hkey hne => ?_, fun key => ?_⟩
  · exact holder key ((List.mem_cons.mp hkey).resolve_left hne)
  · have hnone : c.dropOldest.find? p.key = none := by rw [hfind, hnew, ite_self]
    rw [h.insert_eq hnew hcapacity, hdrop, find?_push hnone, hfind]

/-- The times at which keys were entered, after an insertion. -/
def enteredAfter (c : Cache α) (entered : CircuitKey → ℕ) (now : ℕ) (p : Prepared α) :
    CircuitKey → ℕ :=
  match c.find? p.key with
  | some _ => entered
  | none => Function.update entered p.key now

theorem Aged.insert {entered : CircuitKey → ℕ} {now : ℕ} (h : c.Aged entered now)
    (hc : c.Consistent capacity) (p : Prepared α) :
    (c.insert capacity p).1.Aged (c.enteredAfter entered now p) (now + 1) := by
  cases hfind : c.find? p.key with
  | some stored =>
    rw [insert_of_kept hfind, enteredAfter, hfind]
    exact h.later
  | none =>
    have hkey : p.key ∉ c.order := hc.find?_eq_none.mp hfind
    rw [enteredAfter, hfind]
    obtain heq | ⟨-, -, heq⟩ := hc.insert_cases p
    · rw [heq]
      exact h.enter hkey
    · have hsublist := c.sublist_makeRoom capacity
      rw [heq]
      exact (h.sublist hsublist).push fun hmem => hkey (hsublist.subset hmem)

end Cache

/-! ## Preparations in two steps -/

/-- What a preparation knows after its look into the cache. -/
inductive Looked (α : Type) where
  | failed (e : BackendError α)
  | kept (p : Prepared α)
  | made (p : Prepared α)

namespace Backend

variable [Scalar α] [DecimalText α] [BEq α]

/-- The part of a preparation that reads the cache, with the compilation after it. -/
def look (b : Backend α) (ticket : ℕ) (c : Circuit α) : Looked α :=
  match b.checkSize c with
  | .error e => .failed e
  | .ok () =>
    match b.lookup? (CircuitKey.of c) c with
    | some p => .kept p
    | none =>
      match b.compile ticket (CircuitKey.of c) c with
      | .error e => .failed e
      | .ok p => .made p

/-- A preparation stores what it made when it looked. -/
theorem prepare_eq_look (b : Backend α) (ticket : ℕ) (c : Circuit α) :
    b.prepare ticket c =
      match b.look ticket c with
      | .failed e => (b, .error e)
      | .kept p => (b, .ok p)
      | .made p => ((b.store p).1, .ok (b.store p).2) := by
  cases hsize : b.checkSize c with
  | error e => simp only [prepare, look, hsize]
  | ok u =>
    cases hl : b.lookup? (CircuitKey.of c) c with
    | some p => simp only [prepare, look, hsize, hl]
    | none =>
      cases hk : b.compile ticket (CircuitKey.of c) c <;> simp only [prepare, look, hsize, hl, hk]

omit [Scalar α] [DecimalText α] in
theorem lookup?_of_find? {b : Backend α} {key : CircuitKey} (h : b.cache.find? key = none)
    (c : Circuit α) : b.lookup? key c = none := by
  have hlookup : b.cache.entries.lookup key = none := h
  rw [lookup?, Cache.get?, hlookup]
  exact ite_self none

theorem look_of_missing {b : Backend α} {ticket : ℕ} {c : Circuit α} {k : Compiled α}
    (hk : b.compiled c = .ok k) (h : b.lookup? (CircuitKey.of c) c = none) :
    b.look ticket c = .made (b.prepared ticket c k) := by
  obtain ⟨hsize, hcompile⟩ := compiled_eq_ok.mp hk
  simp only [look, hsize, h, compile, hcompile, Except.mapError, bind, Except.bind]
  rfl

theorem ticket_of_look {b : Backend α} {ticket : ℕ} {c : Circuit α} {p : Prepared α}
    (h : b.look ticket c = .made p) : p.ticket = ticket := by
  unfold look at h
  split at h
  · cases h
  · split at h
    · cases h
    · split at h
      · cases h
      · rename_i hcompile
        obtain rfl := Looked.made.inj h
        obtain ⟨k, -, hp⟩ := bind_eq_ok.mp hcompile
        rw [← Except.ok.inj hp]

omit [Scalar α] [DecimalText α] in
theorem store_of_caching {b : Backend α} (h : b.settings.caching = true) (p : Prepared α) :
    b.store p = ({ b with cache := (b.cache.insert b.settings.cacheCapacity p).1 },
      (b.cache.insert b.settings.cacheCapacity p).2) := by
  simp only [store, h, ↓reduceIte]

end Backend

/-! ## Interleavings -/

/-- A backend with the clients that are busy on it: what each of them has made and not stored yet,
and when the present keys were entered. -/
structure Shared (ι α : Type) where
  backend : Backend α
  pending : ι → Option (Prepared α)
  entered : CircuitKey → ℕ
  clock : ℕ

namespace Shared

variable {ι : Type} [DecidableEq ι]

def start (name : String) (settings : Settings) : Shared ι α :=
  ⟨.build name settings, fun _ => none, fun _ => 0, 0⟩

/-- A client keeps what it made when it looked. -/
def hold (s : Shared ι α) (i : ι) (p : Prepared α) : Shared ι α :=
  { s with
    pending := Function.update s.pending i (some p)
    clock := s.clock + 1 }

/-- A client stores what it made; a key that is not kept is entered now. -/
def deposit [BEq α] (s : Shared ι α) (i : ι) (p : Prepared α) : Shared ι α where
  backend := (s.backend.store p).1
  pending := Function.update s.pending i none
  entered := s.backend.cache.enteredAfter s.entered s.clock p
  clock := s.clock + 1

def clear (s : Shared ι α) : Shared ι α := { s with backend := s.backend.clearCache }

/-- One step of one client. A look that finds a kept preparation or fails leaves no trace. -/
inductive Step [Scalar α] [DecimalText α] [BEq α] : Shared ι α → Shared ι α → Prop
  | answered {s : Shared ι α} {i : ι} {c : Circuit α} (idle : s.pending i = none)
      (h : ∀ p, s.backend.look s.clock c ≠ .made p) : Step s s
  | made {s : Shared ι α} {i : ι} {c : Circuit α} {p : Prepared α} (idle : s.pending i = none)
      (h : s.backend.look s.clock c = .made p) : Step s (s.hold i p)
  | stored {s : Shared ι α} {i : ι} {p : Prepared α} (busy : s.pending i = some p) :
      Step s (s.deposit i p)
  | cleared {s : Shared ι α} : Step s s.clear

/-- What holds between any two steps. Preparations in use are told apart by their tickets. -/
structure Sound (settings : Settings) (s : Shared ι α) : Prop where
  configured : s.backend.settings = settings
  consistent : s.backend.cache.Consistent settings.cacheCapacity
  aged : s.backend.cache.Aged s.entered s.clock
  keptPast : ∀ entry ∈ s.backend.cache.entries, entry.2.ticket < s.clock
  pendingPast : ∀ {i p}, s.pending i = some p → p.ticket < s.clock
  fresh : ∀ {i p}, s.pending i = some p →
    ∀ entry ∈ s.backend.cache.entries, entry.2.ticket ≠ p.ticket
  distinct : ∀ {i j p q}, s.pending i = some p → s.pending j = some q → i ≠ j →
    p.ticket ≠ q.ticket

theorem pending_update {s : Shared ι α} {i j : ι} {o : Option (Prepared α)} {q : Prepared α}
    (h : Function.update s.pending i o j = some q) :
    (j = i ∧ o = some q) ∨ (j ≠ i ∧ s.pending j = some q) := by
  by_cases hj : j = i
  · subst hj
    rw [Function.update_self] at h
    exact .inl ⟨rfl, h⟩
  · rw [Function.update_of_ne hj] at h
    exact .inr ⟨hj, h⟩

omit [DecidableEq ι] in
theorem sound_start (name : String) (settings : Settings) :
    (start name settings : Shared ι α).Sound settings where
  configured := rfl
  consistent := Cache.consistent_empty _
  aged := Cache.aged_empty _ _
  keptPast := fun _ he => absurd he List.not_mem_nil
  pendingPast := fun h => by cases h
  fresh := fun h => by cases h
  distinct := fun h => by cases h

namespace Sound

variable {settings : Settings} {s : Shared ι α}

theorem hold (h : s.Sound settings) {i : ι} {p : Prepared α} (hp : p.ticket = s.clock) :
    (s.hold i p).Sound settings where
  configured := h.configured
  consistent := h.consistent
  aged := h.aged.later
  keptPast := fun entry he => Nat.lt_succ_of_lt (h.keptPast entry he)
  pendingPast := fun {j q} hj => by
    rcases pending_update hj with ⟨-, ho⟩ | ⟨-, hq⟩
    · obtain rfl := Option.some.inj ho
      exact Nat.lt_succ_of_le hp.le
    · exact Nat.lt_succ_of_lt (h.pendingPast hq)
  fresh := fun {j q} hj entry he => by
    rcases pending_update hj with ⟨-, ho⟩ | ⟨-, hq⟩
    · obtain rfl := Option.some.inj ho
      have hlt := h.keptPast entry he
      omega
    · exact h.fresh hq entry he
  distinct := fun {j k q r} hj hk hjk => by
    rcases pending_update hj with ⟨rfl, ho⟩ | ⟨-, hq⟩ <;>
      rcases pending_update hk with ⟨rfl, ho'⟩ | ⟨-, hr⟩
    · exact absurd rfl hjk
    · obtain rfl := Option.some.inj ho
      have hlt := h.pendingPast hr
      omega
    · obtain rfl := Option.some.inj ho'
      have hlt := h.pendingPast hq
      omega
    · exact h.distinct hq hr hjk

omit [DecidableEq ι] in
theorem clear (h : s.Sound settings) : s.clear.Sound settings where
  configured := h.configured
  consistent := Cache.consistent_empty _
  aged := Cache.aged_empty _ _
  keptPast := fun _ he => absurd he List.not_mem_nil
  pendingPast := h.pendingPast
  fresh := fun _ _ he => absurd he List.not_mem_nil
  distinct := h.distinct

variable [BEq α]

theorem deposit (h : s.Sound settings) (hcaching : settings.caching = true) {i : ι}
    {p : Prepared α} (hi : s.pending i = some p) : (s.deposit i p).Sound settings := by
  have hstore := Backend.store_of_caching (h.configured ▸ hcaching) p
  rw [h.configured] at hstore
  obtain ⟨hentries, -⟩ := s.backend.cache.insert_spec settings.cacheCapacity p
  have hcache : (s.deposit i p).backend.cache =
      (s.backend.cache.insert settings.cacheCapacity p).1 := by
    rw [Shared.deposit, hstore]
  -- Only the preparation of the client joins the cache, and the client lets go of it.
  have hkept (entry : CircuitKey × Prepared α)
      (he : entry ∈ (s.deposit i p).backend.cache.entries) :
      entry ∈ s.backend.cache.entries ∨ entry.2 = p := hentries entry (hcache ▸ he)
  have hothers {j : ι} {q : Prepared α} (hj : (s.deposit i p).pending j = some q) :
      j ≠ i ∧ s.pending j = some q := by
    rcases pending_update hj with ⟨-, ho⟩ | hq
    · cases ho
    · exact hq
  refine ⟨?_, ?_, ?_, fun entry he => ?_, fun {j q} hj => ?_, fun {j q} hj entry he => ?_,
    fun {j k q r} hj hk hjk => ?_⟩
  · rw [Shared.deposit, hstore]
  · rw [hcache]
    exact h.consistent.insert p
  · rw [hcache]
    exact h.aged.insert h.consistent p
  · rcases hkept entry he with he | rfl
    · exact Nat.lt_succ_of_lt (h.keptPast entry he)
    · exact Nat.lt_succ_of_lt (h.pendingPast hi)
  · exact Nat.lt_succ_of_lt (h.pendingPast (hothers hj).2)
  · rcases hkept entry he with he | rfl
    · exact h.fresh (hothers hj).2 entry he
    · exact (h.distinct (hothers hj).2 hi (hothers hj).1).symm
  · exact h.distinct (hothers hj).2 (hothers hk).2 hjk

end Sound

variable [Scalar α] [DecimalText α] [BEq α]

theorem Sound.step {settings : Settings} (hcaching : settings.caching = true) {s s' : Shared ι α}
    (h : s.Sound settings) (hs : Step s s') : s'.Sound settings := by
  cases hs with
  | answered idle hl => exact h
  | made idle hl => exact h.hold (Backend.ticket_of_look hl)
  | stored busy => exact h.deposit hcaching busy
  | cleared => exact h.clear

theorem Sound.run {settings : Settings} (hcaching : settings.caching = true) {s s' : Shared ι α}
    (h : s.Sound settings) (hs : Relation.ReflTransGen Step s s') : s'.Sound settings := by
  induction hs with
  | refl => exact h
  | tail _ hlast ih => exact ih.step hcaching hlast

/-! ## Deposits -/

/-- What a deposit does to the cache and what the client gets for it. -/
structure DepositsInOrder (s : Shared ι α) (p : Prepared α) : Prop where
  occupied : ∀ stored, s.backend.cache.find? p.key = some stored →
    (s.backend.store p).1 = s.backend ∧
      ((s.backend.store p).2 = stored ↔ (stored.source == p.source) = true)
  handed : s.backend.cache.find? p.key = none → (s.backend.store p).2 = p
  withoutRoom : s.backend.settings.cacheCapacity = 0 → (s.backend.store p).1 = s.backend
  room : s.backend.cache.find? p.key = none →
    s.backend.cache.size < s.backend.settings.cacheCapacity → ∀ key,
      (s.backend.store p).1.cache.find? key =
        if key = p.key then some p else s.backend.cache.find? key
  full : s.backend.cache.find? p.key = none → 0 < s.backend.settings.cacheCapacity →
    s.backend.cache.size = s.backend.settings.cacheCapacity → ∃ oldest ∈ s.backend.cache.order,
      (∀ key ∈ s.backend.cache.order, key ≠ oldest → s.entered oldest < s.entered key) ∧
      ∀ key, (s.backend.store p).1.cache.find? key =
        if key = p.key then some p
        else if key = oldest then none
        else s.backend.cache.find? key

omit [DecidableEq ι] [Scalar α] [DecimalText α] in
theorem Sound.depositsInOrder {settings : Settings} (hcaching : settings.caching = true)
    {s : Shared ι α} (h : s.Sound settings) {i : ι} {p : Prepared α} (hi : s.pending i = some p) :
    s.DepositsInOrder p := by
  obtain rfl := h.configured
  have hstore := Backend.store_of_caching hcaching p
  have hc := h.consistent
  refine ⟨fun stored hfind => ?_, fun hnew => ?_, fun hzero => ?_, fun hnew hsize key => ?_,
    fun hnew hcapacity hsize => ?_⟩
  · have hne : p ≠ stored := by
      rintro rfl
      exact h.fresh hi _ (mem_of_lookup hfind) rfl
    rw [hstore, Cache.insert_of_kept hfind]
    refine ⟨rfl, ?_⟩
    cases hsource : stored.source == p.source <;> simp [hne]
  · rw [hstore, Cache.insert_snd_of_new hnew]
  · rw [hstore, hzero, Cache.insert_zero_fst]
  · rw [hstore, hc.find?_insert_of_room hnew hsize]
  · rw [hstore]
    exact hc.exists_find?_insert_of_full h.aged hnew hcapacity hsize

/-- Under any interleaving the cache is consistent, and what a client stores enters it in order; a
preparation that fails changes nothing. A preparation is a look and, if it made something, the
deposit of this. -/
theorem cache_fifo_of_run {name : String} {settings : Settings} (hcaching : settings.caching = true)
    {s : Shared ι α} (h : Relation.ReflTransGen Step (start name settings) s) :
    s.backend.cache.Consistent settings.cacheCapacity ∧
    (∀ i p, s.pending i = some p → s.DepositsInOrder p) ∧
    (∀ ticket c e, (s.backend.prepare ticket c).2 = .error e →
      (s.backend.prepare ticket c).1 = s.backend) ∧
    ∀ ticket c, s.backend.prepare ticket c =
      match s.backend.look ticket c with
      | .failed e => (s.backend, .error e)
      | .kept p => (s.backend, .ok p)
      | .made p => ((s.backend.store p).1, .ok (s.backend.store p).2) := by
  have hsound := (sound_start name settings).run hcaching h
  refine ⟨hsound.consistent, fun i p hi => hsound.depositsInOrder hcaching hi, ?_,
    s.backend.prepare_eq_look⟩
  intro ticket c e he
  obtain ⟨e', -, hb⟩ | ⟨p, -, -, hb⟩ | ⟨k, -, -, hb⟩ := s.backend.prepare_cases ticket c
  · rw [hb]
  · rw [hb]
  · rw [hb] at he
    cases he

/-- Two clients fill a cache for one circuit one after the other. -/
theorem cache_fifo_of_run_two :
    let a : Circuit Float := Circuit.withSize "a" 1 0
    let b : Circuit Float := Circuit.withSize "b" 1 0
    ∃ (s : Shared Bool Float) (p q : Prepared Float),
      Relation.ReflTransGen Step (start "qulacs" { cacheCapacity := 1 }) s ∧
      s.pending true = some q ∧ s.backend.cache.find? (CircuitKey.of a) = some p ∧
      (s.backend.store q).1.cache.find? (CircuitKey.of a) = none ∧
      (s.backend.store q).1.cache.find? (CircuitKey.of b) = some q := by
  intro a b
  let settings : Settings := { cacheCapacity := 1 }
  let p : Prepared Float := (Backend.build "qulacs" settings).prepared 0 a
    ⟨⟨1, []⟩, .ofCircuit ⟨true⟩ a, ⟨[]⟩⟩
  let q : Prepared Float := (Backend.build "qulacs" settings).prepared 2 b
    ⟨⟨1, []⟩, .ofCircuit ⟨true⟩ b, ⟨[]⟩⟩
  let s : Shared Bool Float := ((start "qulacs" settings).hold false p).deposit false p
  have hkeys : CircuitKey.of a ≠ CircuitKey.of b := by decide +kernel
  have hcache : s.backend.cache = ⟨[(CircuitKey.of a, p)], [CircuitKey.of a]⟩ := rfl
  have hkept : s.backend.cache.find? (CircuitKey.of a) = some p := by
    rw [hcache, Cache.find?, List.lookup_cons_self]
  have hmissing : s.backend.cache.find? (CircuitKey.of b) = none := by
    rw [hcache, Cache.find?, List.lookup_cons, beq_false_of_ne hkeys.symm]
    rfl
  have hfirst : (Backend.build "qulacs" settings).look 0 a = .made p :=
    Backend.look_of_missing rfl rfl
  have hsecond : s.backend.look 2 b = .made q :=
    Backend.look_of_missing rfl (Backend.lookup?_of_find? hmissing b)
  have hrun : Relation.ReflTransGen Step (start "qulacs" settings) (s.hold true q) :=
    .tail (.tail (.single (.made rfl hfirst)) (.stored rfl)) (.made rfl hsecond)
  obtain ⟨-, hdeposits, -⟩ := cache_fifo_of_run rfl hrun
  obtain ⟨oldest, holdest, -, hfind⟩ := (hdeposits true q rfl).full hmissing Nat.one_pos rfl
  obtain rfl : oldest = CircuitKey.of a := List.mem_singleton.mp holdest
  have hgone := (hfind (CircuitKey.of a)).trans ((if_neg hkeys).trans (if_pos rfl))
  have hnew := (hfind (CircuitKey.of b)).trans (if_pos rfl)
  exact ⟨s.hold true q, p, q, hrun, rfl, hkept, hgone, hnew⟩

end Shared

end KetSim
