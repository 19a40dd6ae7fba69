import Mathlib
import KetSim.Proofs.Backend.Runs

/-! # Fleets

Several backends serve one sequence of calls. What one of them has prepared is a
value that can be handed to any other, and a backend knows its own preparations
by its name alone. So runs stay with the backend that has prepared them exactly
if no two backends share a name.
-/
namespace KetSim

variable {ι α : Type}

/-! ## Runs across backends -/

namespace Fleet

/-- A call on one of the backends. What is run is named by its place among the preparations that
have been handed out. -/
inductive Call (ι α : Type)
  | prepare (i : ι) (ticket : ℕ) (c : Circuit α)
  | run (i : ι) (o : Occasion) (place : ℕ) (mode : RunMode α)

/-- A run by a backend of the preparation at a place, and what it came to. -/
structure Run (ι α : Type) where
  backend : ι
  place : ℕ
  outcome : Except (BackendError α) (ExecutionResult α)

end Fleet

/-- Backends with the preparations that they have handed out, each with the backend that it is
from, and with their runs. -/
structure Fleet (ι α : Type) where
  backends : ι → Backend α
  handed : List (ι × Prepared α)
  runs : List (Fleet.Run ι α)

namespace Fleet

/-- Each backend has only run what it has prepared itself, and no more qubits than it takes. -/
def Owned (f : Fleet ι α) : Prop :=
  ∀ run ∈ f.runs, ∀ r, run.outcome = .ok r →
    (∃ p, f.handed[run.place]? = some (run.backend, p)) ∧
      r.metadata.numQubits ≤ (f.backends run.backend).settings.maxQubits

/-- Backends of the given names and settings before the first call. -/
def start (name : ι → String) (settings : ι → Settings) : Fleet ι α :=
  ⟨fun i => .build (name i) (settings i), [], []⟩

variable [DecidableEq ι] [Scalar α] [DecimalText α] [BEq α]

/-- A preparation is handed out unless it fails, and a run of one that has not been handed out does
not happen. -/
def serve (f : Fleet ι α) : Call ι α → Fleet ι α
  | .prepare i ticket c =>
    match (f.backends i).prepare ticket c with
    | (b, .ok p) => ⟨Function.update f.backends i b, f.handed ++ [(i, p)], f.runs⟩
    | (b, .error _) => { f with backends := Function.update f.backends i b }
  | .run i o place mode =>
    match f.handed[place]? with
    | some (_, p) => { f with runs := f.runs ++ [⟨i, place, (f.backends i).run o p mode⟩] }
    | none => f

def after (f : Fleet ι α) (calls : List (Call ι α)) : Fleet ι α := calls.foldl serve f

end Fleet

/-! ## Preparations and runs of one backend -/

namespace Backend

variable [Scalar α] [DecimalText α]

omit [DecimalText α] in
/-- A backend runs the preparations that bear its name. -/
theorem backend_eq_of_run {b : Backend α} {o : Occasion} {p : Prepared α} {mode : RunMode α}
    {r : ExecutionResult α} (h : b.run o p mode = .ok r) : p.backend = b.name := by
  obtain ⟨k, haccept, -⟩ := bind_eq_ok.mp h
  by_contra hne
  rw [accept, if_pos hne] at haccept
  cases haccept

theorem numQubits_of_run {b : Backend α} {o : Occasion} {p : Prepared α} {mode : RunMode α}
    {r : ExecutionResult α} (hp : p.Genuine b.name) (h : b.run o p mode = .ok r) :
    r.metadata.numQubits = p.source.numQubits := by
  obtain ⟨k, hk, hrun⟩ := run_of_genuine hp
  rw [hrun] at h
  obtain ⟨outcome, -, rfl⟩ := map_eq_ok.mp h
  exact Circuit.numQubits_of_compile hk

/-- A backend finds the final state of its preparations of fewer than thirty qubits. -/
theorem exists_run_state {b : Backend α} {p : Prepared α} (hp : p.Genuine b.name)
    (hn : p.source.numQubits < 30) (o : Occasion) : ∃ r, b.run o p .state = .ok r := by
  obtain ⟨k, hk, hrun⟩ := run_of_genuine hp
  have hkn := Circuit.numQubits_of_compile hk
  obtain ⟨state, hstate⟩ | ⟨hlarge, -⟩ :=
    Execution.finalState_cases b.settings p.source.phase (Circuit.fits_of_compile hk)
  · have hexecute : Execution.execute b.settings o.entropy k p.source.phase .state =
        .ok (Execution.stateData state, none) := by
      rw [Execution.execute, hstate]
      rfl
    rw [hrun, hexecute]
    exact ⟨_, rfl⟩
  · omega

/-- Every backend prepares the circuit without qubits. -/
theorem exists_prepare_new [BEq α] (name : String) (s : Settings) :
    ∃ p, ((build name s : Backend α).prepare 0 (Circuit.new "")).2 = .ok p ∧
      p.source.numQubits = 0 := by
  have hcompiled : (build name s : Backend α).compiled (Circuit.new "") = .ok _ :=
    compiled_eq_ok.mpr ⟨checkSize_eq_ok.mpr (Nat.zero_le _), rfl⟩
  have hfaithful : (build name s : Backend α).Faithful (Circuit.new "") :=
    fun _ he => absurd he List.not_mem_nil
  obtain ⟨e, -, he⟩ | ⟨p, k, hp, -, -, hsource, -⟩ :=
    (Reachable.build name s).sound.prepare_snd hfaithful 0
  · rw [hcompiled] at he
    cases he
  · exact ⟨p, hp, by rw [hsource]; rfl⟩

end Backend

/-! ## The calls -/

namespace Fleet

variable [Scalar α] [DecimalText α] [BEq α]

/-- A preparation under a name, of no more qubits than its backend takes. -/
structure Accepted (name : String) (s : Settings) (p : Prepared α) : Prop where
  genuine : p.Genuine name
  numQubits_le : p.source.numQubits ≤ s.maxQubits

/-- A backend as it was built, but for a cache of what it has accepted. -/
structure Stays (name : String) (s : Settings) (b : Backend α) : Prop where
  name_eq : b.name = name
  settings_eq : b.settings = s
  sound : b.Sound
  kept : ∀ entry ∈ b.cache.entries, Accepted name s entry.2

theorem stays_build (name : String) (s : Settings) : Stays name s (.build name s : Backend α) where
  name_eq := rfl
  settings_eq := rfl
  sound := (Backend.Reachable.build name s).sound
  kept _ he := absurd he List.not_mem_nil

/-- A preparation changes the cache only, and what is handed out has been accepted. -/
theorem Stays.prepare {name : String} {s : Settings} {b : Backend α} (h : Stays name s b)
    (ticket : ℕ) (c : Circuit α) : Stays name s (b.prepare ticket c).1 ∧
      ∀ p, (b.prepare ticket c).2 = .ok p → Accepted name s p := by
  obtain ⟨hname, hsettings, hsound, hkept⟩ := h
  obtain ⟨hkeeps, hsound'⟩ := hsound.prepare_fst ticket c
  have hmade (k : Compiled α) (hk : b.compiled c = .ok k) :
      Accepted name s (b.prepared ticket c k) := by
    obtain ⟨hsize, -⟩ := Backend.compiled_eq_ok.mp hk
    refine ⟨hname ▸ Backend.genuine_prepared hk ticket, ?_⟩
    rw [← hsettings]
    exact Backend.checkSize_eq_ok.mp hsize
  obtain ⟨hkept', hout⟩ := Backend.prepare_preserves hkept hmade
  exact ⟨⟨hkeeps.name.trans hname, hkeeps.settings.trans hsettings, hsound', hkept'⟩, hout⟩

/-- A successful run is of what a backend of the same name has prepared. -/
def Run.Named (name : ι → String) (handed : List (ι × Prepared α)) (run : Run ι α) : Prop :=
  ∀ r, run.outcome = .ok r → ∃ i p, handed[run.place]? = some (i, p) ∧
    name i = name run.backend ∧ r.metadata.numQubits = p.source.numQubits

omit [Scalar α] [DecimalText α] [BEq α] in
theorem Run.Named.append {name : ι → String} {handed : List (ι × Prepared α)} {run : Run ι α}
    (h : run.Named name handed) (more : List (ι × Prepared α)) :
    run.Named name (handed ++ more) := by
  intro r hr
  obtain ⟨i, p, hplace, hrest⟩ := h r hr
  have hlt := (List.getElem?_eq_some_iff.mp hplace).1
  exact ⟨i, p, by rw [List.getElem?_append_left hlt, hplace], hrest⟩

/-- What holds between calls. -/
structure Sound (name : ι → String) (settings : ι → Settings) (f : Fleet ι α) : Prop where
  backends : ∀ i, Stays (name i) (settings i) (f.backends i)
  handed : ∀ entry ∈ f.handed, Accepted (name entry.1) (settings entry.1) entry.2
  runs : ∀ run ∈ f.runs, run.Named name f.handed

theorem sound_start (name : ι → String) (settings : ι → Settings) :
    (start name settings : Fleet ι α).Sound name settings where
  backends i := stays_build (name i) (settings i)
  handed _ he := absurd he List.not_mem_nil
  runs _ hrun := absurd hrun List.not_mem_nil

variable [DecidableEq ι] {name : ι → String} {settings : ι → Settings}

theorem Sound.prepare {f : Fleet ι α} (h : f.Sound name settings) (i : ι) (ticket : ℕ)
    (c : Circuit α) : (f.serve (.prepare i ticket c)).Sound name settings := by
  obtain ⟨hstays, hout⟩ := (h.backends i).prepare ticket c
  have hbackends : ∀ j, Stays (name j) (settings j)
      (Function.update f.backends i ((f.backends i).prepare ticket c).1 j) := by
    intro j
    by_cases hj : j = i
    · subst hj
      rw [Function.update_self]
      exact hstays
    · rw [Function.update_of_ne hj]
      exact h.backends j
  rcases hb : (f.backends i).prepare ticket c with ⟨b, e | p⟩
  · rw [hb] at hbackends
    simp only [serve, hb]
    exact ⟨hbackends, h.handed, h.runs⟩
  · rw [hb] at hbackends hout
    simp only [serve, hb]
    refine ⟨hbackends, ?_, fun run hrun => (h.runs run hrun).append _⟩
    intro entry he
    rcases List.mem_append.mp he with he | he
    · exact h.handed entry he
    · obtain rfl := List.mem_singleton.mp he
      exact hout p rfl

theorem Sound.run {f : Fleet ι α} (h : f.Sound name settings) (i : ι) (o : Occasion) (place : ℕ)
    (mode : RunMode α) : (f.serve (.run i o place mode)).Sound name settings := by
  cases hplace : f.handed[place]? with
  | none =>
    simp only [serve, hplace]
    exact h
  | some entry =>
    obtain ⟨j, p⟩ := entry
    simp only [serve, hplace]
    refine ⟨h.backends, h.handed, ?_⟩
    intro run hrun
    rcases List.mem_append.mp hrun with hrun | hrun
    · exact h.runs run hrun
    · obtain rfl := List.mem_singleton.mp hrun
      intro r hr
      have hname := (h.backends i).name_eq
      have hgenuine := (h.handed _ (List.mem_of_getElem? hplace)).genuine
      have hbears : p.backend = (f.backends i).name := Backend.backend_eq_of_run hr
      have hsame : name j = name i := by rw [← hname, ← hbears, hgenuine.backend]
      have hgenuine : p.Genuine (f.backends i).name := by rwa [hname, ← hsame]
      exact ⟨j, p, hplace, hsame, Backend.numQubits_of_run hgenuine hr⟩

theorem sound_after (calls : List (Call ι α)) :
    ((start name settings).after calls).Sound name settings := by
  have hfold (f : Fleet ι α) (hf : f.Sound name settings) :
      (f.after calls).Sound name settings := by
    induction calls generalizing f with
    | nil => exact hf
    | cons call rest ih =>
      cases call with
      | prepare i ticket c => exact ih _ (hf.prepare i ticket c)
      | run i o place mode => exact ih _ (hf.run i o place mode)
  exact hfold _ (sound_start name settings)

/-- A backend runs the first thing that another one of its name has prepared. -/
theorem exists_run_of_name_eq (name : ι → String) (settings : ι → Settings) {i j : ι}
    (h : name i = name j) {ticket : ℕ} {c : Circuit α}
    {p : Prepared α} (hp : ((Backend.build (name i) (settings i)).prepare ticket c).2 = .ok p)
    (hn : p.source.numQubits < 30) (o : Occasion) :
    ∃ f : Fleet ι α, (start name settings).after [.prepare i ticket c, .run j o 0 .state] = f ∧
      f.handed = [(i, p)] ∧
      ∃ r, f.runs = [⟨j, 0, .ok r⟩] ∧ r.metadata.numQubits = p.source.numQubits := by
  let f : Fleet ι α := (start name settings).serve (.prepare i ticket c)
  have hf : f.Sound name settings := (sound_start name settings).prepare i ticket c
  have hserve : f.handed = [(i, p)] ∧ f.runs = [] := by
    simp only [f, serve, start]
    rcases hb : (Backend.build (name i) (settings i)).prepare ticket c with ⟨b, out⟩
    rw [hb] at hp
    obtain rfl : out = .ok p := hp
    exact ⟨rfl, rfl⟩
  obtain ⟨hhanded, hruns⟩ := hserve
  have hgenuine : p.Genuine (f.backends j).name := by
    rw [(hf.backends j).name_eq, ← h]
    exact (Backend.Reachable.build (name i) (settings i)).sound.genuine_prepare hp
  obtain ⟨r, hr⟩ := Backend.exists_run_state hgenuine hn o
  refine ⟨f.serve (.run j o 0 .state), rfl, ?_, r, ?_, Backend.numQubits_of_run hgenuine hr⟩
  · simp [serve, hhanded]
  · simp [serve, hhanded, hruns, hr]

/-- Whatever the calls are, runs stay with the backend that has prepared what they run, if and only
if no two backends share a name. -/
theorem owned_iff_injective :
    (∀ calls, ((start name settings : Fleet ι α).after calls).Owned) ↔ Function.Injective name := by
  constructor
  · intro howned i j hij
    obtain ⟨p, hp, hn⟩ := Backend.exists_prepare_new (α := α) (name i) (settings i)
    obtain ⟨f, hf, hhanded, r, hruns, -⟩ :=
      exists_run_of_name_eq name settings hij hp (by omega)
        ⟨0, 0, 0, ⟨"unused"⟩, ⟨2024, 1, 1, 0, 0, 0, 0⟩⟩
    have hrun : (⟨j, 0, .ok r⟩ : Run ι α) ∈ f.runs := hruns ▸ List.mem_singleton_self _
    obtain ⟨⟨p', hp'⟩, -⟩ := hf ▸ howned _ _ (hf ▸ hrun) r rfl
    rw [hhanded] at hp'
    have hsame : (i, p) = (j, p') := Option.some.inj hp'
    exact congrArg Prod.fst hsame
  · intro hinjective calls run hrun r hr
    have hsound : ((start name settings : Fleet ι α).after calls).Sound name settings :=
      sound_after calls
    obtain ⟨i, p, hplace, hname, hn⟩ := hsound.runs run hrun r hr
    obtain rfl := hinjective hname
    refine ⟨⟨p, hplace⟩, ?_⟩
    rw [hn, (hsound.backends run.backend).settings_eq]
    exact (hsound.handed _ (List.mem_of_getElem? hplace)).numQubits_le

/-- Settings of two backends, the second for a single qubit. -/
def twinSettings (second : Bool) : Settings := if second then { maxQubits := 1 } else {}

/-- Two backends with the default name. The first prepares two qubits, and the second runs them. -/
def twins : Fleet Bool Float :=
  (start (fun _ => "qulacs") twinSettings).after
    [.prepare false 0 (.withSize "pair" 2 0),
      .run true ⟨0, 0, 0, ⟨"unused"⟩, ⟨2024, 1, 1, 0, 0, 0, 0⟩⟩ 0 .state]

theorem twins_not_owned : (twins.backends true).settings.maxQubits = 1 ∧
    (∃ p, twins.handed = [(false, p)]) ∧
    (∃ r, twins.runs = [⟨true, 0, .ok r⟩] ∧ r.metadata.numQubits = 2) ∧ ¬twins.Owned := by
  obtain ⟨p, hp, hwide⟩ : ∃ p, ((Backend.build "qulacs" (twinSettings false) :
      Backend Float).prepare 0 (.withSize "pair" 2 0)).2 = .ok p ∧ p.source.numQubits = 2 :=
    ⟨_, rfl, rfl⟩
  have hsame : (fun _ : Bool => "qulacs") false = (fun _ : Bool => "qulacs") true := rfl
  obtain ⟨f, hf, hhanded, r, hruns, hn⟩ := exists_run_of_name_eq (fun _ => "qulacs") twinSettings
    hsame hp (by omega) ⟨0, 0, 0, ⟨"unused"⟩, ⟨2024, 1, 1, 0, 0, 0, 0⟩⟩
  obtain rfl : twins = f := hf
  have hmax : (twins.backends true).settings.maxQubits = 1 := rfl
  refine ⟨hmax, ⟨p, hhanded⟩, ⟨r, hruns, hn.trans hwide⟩, fun howned => ?_⟩
  obtain ⟨-, hle⟩ := howned ⟨true, 0, .ok r⟩ (hruns ▸ List.mem_singleton_self _) r rfl
  simp only [hmax] at hle
  omega

end Fleet

end KetSim
