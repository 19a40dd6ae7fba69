import KetSim.Backend.Config
import KetSim.Proofs.Ascending
import KetSim.Proofs.Outcome
import KetSim.Proofs.Text.ByteOrder

/-! # Decoding of settings

Each of the seven settings takes values in its own spellings. A configuration decodes
exactly if all that it gives is taken, each setting then has the value given for it or
its default, and otherwise the error is about the first name that is not taken in the
order of the bytes.
-/
namespace KetSim

/-! ## The settings -/

def Representation.spelling : Representation → String
  | stateVector => "statevector"
  | densityMatrix => "density_matrix"

def Engine.Precision.spelling : Engine.Precision → String
  | double => "double"
  | single => "single"

/-- What can be set. -/
inductive Setting where
  | resultType | device | precision | maxQubits | cache | cacheCapacity | seed

namespace Setting

def name : Setting → String
  | resultType => "result_type"
  | device => "device"
  | precision => "precision"
  | maxQubits => "max_qubits"
  | cache => "cache"
  | cacheCapacity => "cache_capacity"
  | seed => "seed"

abbrev Value : Setting → Type
  | resultType => Representation
  | device => Engine.Device
  | precision => Engine.Precision
  | maxQubits | cacheCapacity => ℕ
  | cache => Bool
  | seed => Option UInt64

def get (s : Settings) : (f : Setting) → f.Value
  | resultType => s.representation
  | device => s.device
  | precision => s.precision
  | maxQubits => s.maxQubits
  | cache => s.caching
  | cacheCapacity => s.cacheCapacity
  | seed => s.seed

def set (s : Settings) : (f : Setting) → f.Value → Settings
  | resultType, v => { s with representation := v }
  | device, v => { s with device := v }
  | precision, v => { s with precision := v }
  | maxQubits, v => { s with maxQubits := v }
  | cache, v => { s with caching := v }
  | cacheCapacity, v => { s with cacheCapacity := v }
  | seed, v => { s with seed := v }

@[simp] theorem get_set (s : Settings) (f : Setting) (v : f.Value) : f.get (f.set s v) = v := by
  cases f <;> rfl

theorem get_set_of_ne {f g : Setting} (h : g ≠ f) (s : Settings) (v : f.Value) :
    g.get (f.set s v) = g.get s := by
  cases f <;> cases g <;> first | rfl | exact absurd rfl h

theorem name_injective : Function.Injective name := by
  intro f g h
  cases f <;> cases g <;> first | rfl | exact absurd h (by decide)

theorem eq_of_get_eq {s t : Settings} (h : ∀ f : Setting, f.get s = f.get t) : s = t := by
  obtain ⟨_, _, _, _, _, _, _⟩ := s
  obtain ⟨_, _, _, _, _, _, _⟩ := t
  have hresultType := h resultType
  have hdevice := h device
  have hprecision := h precision
  have hmaxQubits := h maxQubits
  have hcache := h cache
  have hcacheCapacity := h cacheCapacity
  have hseed := h seed
  simp only [get] at *
  simp only [*]

/-! ## Values -/

/-- A spelling alone, or as the only key of an object over `null`. -/
def Spells {β : Type} (spelling : β → String) (j : Json) (v : β) : Prop :=
  j = .str (spelling v) ∨ j = .obj [(spelling v, .null)]

/-- The JSON values that a setting takes, with the value that they stand for. -/
def Takes : (f : Setting) → Json → f.Value → Prop
  | resultType, j, v => Spells Representation.spelling j v
  | device, j, v => Spells Engine.Device.text j v
  | precision, j, v => Spells Engine.Precision.spelling j v
  | maxQubits, j, n => j = .int n ∧ n < 2 ^ 32
  | cache, j, b => j = .bool b
  | cacheCapacity, j, n => j = .int n ∧ n < 2 ^ 64
  | seed, j, none => j = .null
  | seed, j, some n => j = .int n.toNat

/-- A name is accepted with a JSON value if it is that of a setting that takes the value. -/
def Accepts (key : String) (j : Json) : Prop := ∃ f : Setting, f.name = key ∧ ∃ v, f.Takes j v

def read : (f : Setting) → Json → Except SettingProblem f.Value
  | resultType => Settings.choice Representation.table
  | device => Settings.choice Engine.Device.table
  | precision => Settings.choice Engine.Precision.table
  | maxQubits => Settings.whole (2 ^ 32) "u32"
  | cache => Settings.flag
  | cacheCapacity => Settings.whole (2 ^ 64) "usize"
  | seed => Settings.seedValue

section Values

variable {β : Type} {table : List (String × β)} {spelling : β → String} {j : Json}

theorem variant_eq_ok {name : String} {v : β} :
    Settings.variant table name = .ok v ↔ table.lookup name = some v := by
  unfold Settings.variant
  cases table.lookup name <;> simp

theorem choice_eq_ok (htable : ∀ name v, table.lookup name = some v ↔ name = spelling v) {v : β} :
    Settings.choice table j = .ok v ↔ Spells spelling j v := by
  unfold Settings.choice
  split
  · rename_i name
    simp [variant_eq_ok, htable, Spells]
  · rename_i name payload
    rw [bind_eq_ok]
    cases payload <;> simp [variant_eq_ok, htable, Spells]
  · rename_i members hmembers
    refine iff_of_false (fun h => nomatch h) ?_
    rintro (h | h)
    · cases h
    · exact hmembers _ _ (Json.obj.inj h)
  · rename_i hname hmember hmembers
    refine iff_of_false (fun h => nomatch h) ?_
    rintro (rfl | rfl)
    · exact hname _ rfl
    · exact hmembers _ rfl

theorem whole_eq_ok {limit n : ℕ} {expected : String} :
    Settings.whole limit expected j = .ok n ↔ j = .int n ∧ n < limit := by
  unfold Settings.whole
  split
  · rename_i i
    split_ifs with h
    · simp only [Except.ok.injEq, Json.int.injEq]
      omega
    · simp only [false_iff, Json.int.injEq, not_and]
      omega
  · rename_i hint
    refine iff_of_false (fun h => nomatch h) ?_
    rintro ⟨rfl, -⟩
    exact hint _ rfl

theorem flag_eq_ok {b : Bool} : Settings.flag j = .ok b ↔ j = .bool b := by
  cases j <;> simp [Settings.flag]

theorem seedValue_eq_ok {v : Option UInt64} : Settings.seedValue j = .ok v ↔ seed.Takes j v := by
  by_cases hnull : j = .null
  · subst hnull
    cases v <;> simp [Settings.seedValue, Takes]
  · have hwhole : Settings.seedValue j =
        (Settings.whole (2 ^ 64) "u64" j >>= fun n => .ok (some n.toUInt64)) := by
      cases j <;> first | rfl | exact absurd rfl hnull
    rw [hwhole, bind_eq_ok]
    simp only [whole_eq_ok, Except.ok.injEq]
    cases v with
    | none => simp [Takes, hnull]
    | some v =>
      simp only [Takes, Option.some.injEq]
      constructor
      · rintro ⟨n, ⟨rfl, hn⟩, rfl⟩
        rw [UInt64.toNat_ofNat_of_lt' hn]
      · rintro rfl
        exact ⟨v.toNat, ⟨rfl, v.toNat_lt⟩, by simp⟩

end Values

theorem read_eq_ok {f : Setting} {j : Json} {v : f.Value} : f.read j = .ok v ↔ f.Takes j v := by
  cases f with
  | resultType =>
    refine choice_eq_ok fun name v => ?_
    cases v <;> grind [Representation.table, Representation.spelling]
  | device =>
    refine choice_eq_ok fun name v => ?_
    cases v <;> grind [Engine.Device.table, Engine.Device.text]
  | precision =>
    refine choice_eq_ok fun name v => ?_
    cases v <;> grind [Engine.Precision.table, Engine.Precision.spelling]
  | maxQubits => exact whole_eq_ok
  | cache => exact flag_eq_ok
  | cacheCapacity => exact whole_eq_ok
  | seed => exact seedValue_eq_ok

theorem assign_name (s : Settings) (f : Setting) (j : Json) :
    s.assign f.name j = (f.read j).map (f.set s) := by
  cases f <;> rfl

theorem assign_of_ne {key : String} (h : ∀ f : Setting, f.name ≠ key) (s : Settings) (j : Json) :
    s.assign key j = .error .unknownField := by
  unfold Settings.assign
  split
  · exact absurd rfl (h resultType)
  · exact absurd rfl (h device)
  · exact absurd rfl (h precision)
  · exact absurd rfl (h maxQubits)
  · exact absurd rfl (h cache)
  · exact absurd rfl (h cacheCapacity)
  · exact absurd rfl (h seed)
  · rfl

/-- A value is taken as one thing only. -/
theorem Takes.eq {f : Setting} {j : Json} {v v' : f.Value} (h : f.Takes j v) (h' : f.Takes j v') :
    v = v' := by
  rw [← read_eq_ok] at h h'
  exact Except.ok.inj (h.symm.trans h')

/-! ## Members -/

theorem assignMember_of_takes {f : Setting} {j : Json} {v : f.Value} (h : f.Takes j v)
    (s : Settings) : s.assignMember (f.name, j) = .ok (f.set s v) := by
  rw [Settings.assignMember, assign_name, read_eq_ok.mpr h]
  rfl

/-- The problem of a member does not depend on the settings before it. -/
theorem exists_problem {key : String} {j : Json} (h : ¬ Accepts key j) :
    ∃ problem, ∀ s : Settings, s.assign key j = .error problem := by
  by_cases hname : ∃ f : Setting, f.name = key
  · obtain ⟨f, rfl⟩ := hname
    cases hread : f.read j with
    | ok v => exact absurd ⟨f, rfl, v, read_eq_ok.mp hread⟩ h
    | error problem => exact ⟨problem, fun s => by rw [assign_name, hread]; rfl⟩
  · exact ⟨.unknownField, fun s => assign_of_ne (fun f hf => hname ⟨f, hf⟩) s j⟩

end Setting

namespace Settings

open Setting

variable {members : List (String × Json)} {start s s' : Settings}

/-- The settings that are given have a value that is given for them, and the others are as
before. -/
structure Follows (members : List (String × Json)) (start s : Settings) : Prop where
  given : ∀ (f : Setting) j, members.lookup f.name = some j → f.Takes j (f.get s)
  kept : ∀ f : Setting, members.lookup f.name = none → f.get s = f.get start

theorem Follows.eq (h : Follows members start s) (h' : Follows members start s') : s = s' := by
  refine eq_of_get_eq fun f => ?_
  cases hlookup : members.lookup f.name with
  | none => rw [h.kept f hlookup, h'.kept f hlookup]
  | some j => exact (h.given f j hlookup).eq (h'.given f j hlookup)

/-- One member after another is taken, each name once. -/
theorem exists_foldlM_assignMember (hn : (members.map Prod.fst).Nodup)
    (h : ∀ m ∈ members, Accepts m.1 m.2) (start : Settings) :
    ∃ s, members.foldlM assignMember start = .ok s ∧ Follows members start s := by
  induction members generalizing start with
  | nil =>
    have hnone (name : String) (j : Json) : ([] : List (String × Json)).lookup name ≠ some j := nofun
    exact ⟨start, rfl, fun f j hj => absurd hj (hnone f.name j), fun f _ => rfl⟩
  | cons m rest ih =>
    obtain ⟨key, j⟩ := m
    obtain ⟨⟨f, rfl, v, hv⟩, hrest⟩ := List.forall_mem_cons.mp h
    rw [List.map_cons, List.nodup_cons] at hn
    obtain ⟨s, hs, hfollows⟩ := ih hn.2 hrest (f.set start v)
    have hfresh : rest.lookup f.name = none := lookup_eq_none.mpr hn.1
    have hself : f.get s = v := by rw [hfollows.kept f hfresh, get_set]
    refine ⟨s, ?_, fun g j' hj' => ?_, fun g hg => ?_⟩
    · rw [List.foldlM_cons, assignMember_of_takes hv]
      exact hs
    · rw [lookup_cons_ite] at hj'
      split_ifs at hj' with hname
      · obtain rfl := name_injective hname
        obtain rfl := Option.some.inj hj'
        rw [hself]
        exact hv
      · exact hfollows.given g j' hj'
    · rw [lookup_cons_ite] at hg
      split_ifs at hg with hname
      rw [hfollows.kept g hg, get_set_of_ne fun hgf => hname (congrArg Setting.name hgf)]

/-- The first member that is not accepted stops the decoding with its own problem. -/
theorem foldlM_assignMember_of_first {before after : List (String × Json)} {key : String}
    {j : Json} {problem : SettingProblem} (hbefore : ∀ m ∈ before, Accepts m.1 m.2)
    (hproblem : ∀ s : Settings, s.assign key j = .error problem) (start : Settings) :
    (before ++ (key, j) :: after).foldlM assignMember start = .error ⟨key, problem⟩ := by
  induction before generalizing start with
  | nil =>
    rw [List.nil_append, List.foldlM_cons, assignMember, hproblem]
    rfl
  | cons m rest ih =>
    obtain ⟨name, value⟩ := m
    obtain ⟨⟨f, rfl, v, hv⟩, hrest⟩ := List.forall_mem_cons.mp hbefore
    rw [List.cons_append, List.foldlM_cons, assignMember_of_takes hv]
    exact ih hrest _

theorem decode_cases (hn : (members.map Prod.fst).Nodup) :
    (∀ m ∈ members, Accepts m.1 m.2) ∧
        (∃ s, decode members = .ok s ∧ Follows members {} s) ∨
      ∃ before key j after problem, members = before ++ (key, j) :: after ∧
        (∀ m ∈ before, Accepts m.1 m.2) ∧ ¬ Accepts key j ∧
        ({} : Settings).assign key j = .error problem ∧
        decode members = .error ⟨key, problem⟩ := by
  obtain h | ⟨before, ⟨key, j⟩, after, rfl, hbefore, hfirst⟩ :=
    forall_or_first (fun m : String × Json => Accepts m.1 m.2) members
  · exact .inl ⟨h, exists_foldlM_assignMember hn h {}⟩
  · obtain ⟨problem, hproblem⟩ := exists_problem hfirst
    exact .inr ⟨before, key, j, after, problem, rfl, hbefore, hfirst, hproblem {},
      foldlM_assignMember_of_first hbefore hproblem {}⟩

end Settings

end KetSim
