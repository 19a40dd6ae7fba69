import KetSim.Backend.Registry
import KetSim.Proofs.Backend.Configuration
import KetSim.Proofs.Backend.Precision

/-! # Construction of backends

A backend comes from settings, from a configuration or from a registry. Whatever the way,
its reserved names tell the device that it runs on, and what it says about itself follows
from its name and its settings.
-/
namespace KetSim

variable {α : Type}

/-! ## Devices -/

section Devices

variable [Scalar α]

theorem Execution.options_turn (phase : α) (state : Engine.State α) :
    (turn phase state).options = state.options := by
  cases state with
  | vector v =>
    rw [turn]
    split_ifs <;> rfl
  | density d => rfl

/-- The final states of all runs are kept and evolved on the device of the settings. -/
theorem Execution.device_finalState {s : Settings} {k : Compiled α} {phase : α}
    {state : Engine.State α} (h : finalState s k phase = .ok state) :
    state.options.device = s.device := by
  obtain ⟨start, final, hstart, hrun, rfl⟩ := finalState_eq_ok.mp h
  have hkept := (Engine.Program.kept_run k.program start).options
  rw [hrun] at hkept
  rw [options_turn, hkept, (entries_of_allocate hstart).1]
  rfl

/-- Every state that the backend evolves is on the device. -/
structure Backend.RunsOn (b : Backend α) (device : Engine.Device) : Prop where
  settings : b.settings.device = device
  states : ∀ (k : Compiled α) (phase : α) state,
    Execution.finalState b.settings k phase = .ok state → state.options.device = device

theorem Backend.runsOn_of_settings {b : Backend α} {device : Engine.Device}
    (h : b.settings.device = device) : b.RunsOn device :=
  ⟨h, fun _ _ _ hstate => h ▸ Execution.device_finalState hstate⟩

end Devices

/-! ## Names -/

namespace Backend

variable {b : Backend α} {c : BackendConfig} {s : Settings} {name : String}

theorem nameOf_injective : Function.Injective nameOf := by
  intro d d' h
  cases d <;> cases d' <;> first | rfl | exact absurd h (by decide)

/-- The name of a backend of which a name is asked: a reserved one gives way to that of the
device. -/
def settledName (asked : String) (device : Engine.Device) : String :=
  if asked = nameOf .cpu ∨ asked = nameOf .gpu then nameOf device else asked

theorem settledName_eq_nameOf {device other : Engine.Device}
    (h : settledName name device = nameOf other) : device = other := by
  rw [settledName] at h
  split_ifs at h with hreserved
  · exact nameOf_injective h
  · rw [not_or] at hreserved
    cases other with
    | cpu => exact absurd h hreserved.1
    | gpu => exact absurd h hreserved.2

theorem named_eq_ok : named name s = .ok b ↔ 1 ≤ s.maxQubits ∧ b = build name s := by
  unfold named check
  rw [bind_unit_eq_ok, Except.ok.injEq]
  by_cases h : s.maxQubits = 0
  · simp [h]
  · simp [h, Nat.one_le_iff_ne_zero, eq_comm]

theorem ofConfig_eq_ok : ofConfig c = .ok b ↔ ∃ s, c.settings (α := α) = .ok s ∧
    1 ≤ s.maxQubits ∧ b = build (settledName c.name s.device) s := by
  rw [ofConfig, bind_eq_ok]
  refine exists_congr fun s => and_congr_right fun _ => ?_
  have hreserved : reservedNames.contains c.name = true ↔
      c.name = nameOf .cpu ∨ c.name = nameOf .gpu := by
    simp [reservedNames]
  rw [settledName]
  by_cases h : c.name = nameOf .cpu ∨ c.name = nameOf .gpu
  · rw [if_pos h, if_pos (hreserved.mpr h), ofSettings, named_eq_ok]
  · rw [if_neg h, if_neg (mt hreserved.mp h), named_eq_ok]

end Backend

/-! ## The data-parallel backend -/

namespace BackendConfig

variable {c : BackendConfig} {s : Settings}

/-- The extra values name no device other than the data-parallel one. -/
def AllowsGpu (c : BackendConfig) : Prop :=
  ∀ j, c.extra? "device" = some j → j = .str "gpu"

theorem takes_gpu : Setting.device.Takes (.str "gpu") .gpu := .inl rfl

theorem device_of_settings (hc : Ascending c.extras)
    (h : (c.withExtra "device" (.str "gpu")).settings (α := α) = .ok s) : s.device = .gpu := by
  have hdevice : (c.withExtra "device" (.str "gpu")).extra? Setting.device.name =
      some (.str "gpu") := by
    rw [extra?_withExtra]
    rfl
  obtain ⟨-, hfollows⟩ := follows_of_settings (ascending_withExtra hc _ _) h
  exact (hfollows.given .device _ hdevice).eq takes_gpu

end BackendConfig

namespace Registry

variable {r : Registry α} {c : BackendConfig} {b : Backend α}

theorem create_cpu (r : Registry α) (c : BackendConfig) :
    r.registerBackends.create (Backend.nameOf .cpu) c = Backend.ofConfig c := by
  have hlookup : r.registerBackends.factories.lookup (Backend.nameOf .cpu) =
      some Backend.ofConfig := by
    rw [registerBackends, register, lookup_put, if_neg (by decide), register, lookup_put,
      if_pos rfl]
  rw [create, hlookup]

theorem create_gpu (r : Registry α) (c : BackendConfig) :
    r.registerBackends.create (Backend.nameOf .gpu) c = gpuFactory c := by
  have hlookup : r.registerBackends.factories.lookup (Backend.nameOf .gpu) = some gpuFactory := by
    rw [registerBackends, register, lookup_put, if_pos rfl]
  rw [create, hlookup]

theorem gpuFactory_of_allows (h : c.AllowsGpu) :
    gpuFactory (α := α) c = Backend.ofConfig (c.withExtra "device" (.str "gpu")) := by
  unfold gpuFactory
  split
  · rfl
  · rfl
  · rename_i device hne hdevice
    exact absurd (h device hdevice) hne

theorem gpuFactory_of_not_allows (h : ¬ c.AllowsGpu) :
    ∃ reason, gpuFactory (α := α) c = .error (.configuration reason) := by
  unfold gpuFactory
  split
  · rename_i hnone
    exact absurd (fun j hj => by simp [hnone] at hj) h
  · rename_i hgpu
    exact absurd (fun j hj => by simpa [hgpu, eq_comm] using hj) h
  · exact ⟨_, rfl⟩

end Registry

/-! ## Every way -/

/-- The ways to get a backend; a registry may hold anything else besides. -/
inductive Construction (α : Type) where
  | new
  | gpu
  | ofSettings (s : Settings)
  | ofConfig (name : String) (extras : List (String × Json))
  | create (r : Registry α) (registered : Engine.Device) (name : String)
      (extras : List (String × Json))

namespace Construction

def result : Construction α → Except (BackendError α) (Backend α)
  | new => .ok .new
  | gpu => Backend.gpu
  | ofSettings s => Backend.ofSettings s
  | ofConfig name extras => Backend.ofConfig ((BackendConfig.new name).withExtras extras)
  | create r registered name extras =>
    r.registerBackends.create (Backend.nameOf registered)
      ((BackendConfig.new name).withExtras extras)

/-- The name in the configuration, if there is one. -/
def asked? : Construction α → Option String
  | ofConfig name _ | create _ _ name _ => some name
  | new | gpu | ofSettings _ => none

variable {w : Construction α} {b : Backend α}

/-- A backend is built with one qubit at least, under the name that settles what is asked. -/
theorem exists_build (h : w.result = .ok b) : ∃ s asked, 1 ≤ s.maxQubits ∧
    b = .build (Backend.settledName asked s.device) s ∧
    ∀ name, w.asked? = some name → asked = name := by
  have hnamed (s : Settings) (h : Backend.ofSettings s = .ok b) : ∃ s asked, 1 ≤ s.maxQubits ∧
      b = .build (Backend.settledName asked s.device) s ∧
      ∀ name, (none : Option String) = some name → asked = name := by
    obtain ⟨hone, rfl⟩ := Backend.named_eq_ok.mp h
    refine ⟨s, Backend.nameOf .cpu, hone, ?_, nofun⟩
    rw [Backend.settledName, if_pos (.inl rfl)]
  have hconfig (name : String) (c : BackendConfig) (hname : c.name = name)
      (h : Backend.ofConfig c = .ok b) : ∃ s asked, 1 ≤ s.maxQubits ∧
      b = .build (Backend.settledName asked s.device) s ∧
      ∀ other, some name = some other → asked = other := by
    obtain ⟨s, -, hone, rfl⟩ := Backend.ofConfig_eq_ok.mp h
    exact ⟨s, name, hone, hname ▸ rfl, fun _ => Option.some.inj⟩
  cases w with
  | new => exact hnamed {} h
  | gpu => exact hnamed { device := .gpu } h
  | ofSettings s => exact hnamed s h
  | ofConfig name extras => exact hconfig name _ (BackendConfig.name_withExtras _ extras) h
  | create r registered name extras =>
    cases registered with
    | cpu =>
      rw [result, Registry.create_cpu] at h
      exact hconfig name _ (BackendConfig.name_withExtras _ extras) h
    | gpu =>
      rw [result, Registry.create_gpu] at h
      by_cases hallows : ((BackendConfig.new name).withExtras extras).AllowsGpu
      · rw [Registry.gpuFactory_of_allows hallows] at h
        exact hconfig name _ (BackendConfig.name_withExtras _ extras) h
      · obtain ⟨reason, he⟩ := Registry.gpuFactory_of_not_allows (α := α) hallows
        cases he.symm.trans h

theorem capabilities_build (name : String) (s : Settings) :
    (Backend.build name s : Backend α).capabilities.name = name ∧
      (Backend.build name s : Backend α).capabilities.numQubits = s.maxQubits := by
  rw [Backend.build, Settings.capabilities]
  cases s.device <;> exact ⟨rfl, rfl⟩

theorem hasFeature_build (name f : String) (s : Settings) :
    (Backend.build name s : Backend α).capabilities.hasFeature f = true ↔
      f = "shots" ∨ f = "expectation" ∨
        f = "statevector" ∧ s.representation = .stateVector ∨
        f = "density_matrix" ∧ s.representation = .densityMatrix ∨
        f = "gpu" ∧ s.device = .gpu := by
  rw [Capabilities.hasFeature, List.contains_iff_mem, Backend.build, Settings.capabilities]
  cases s.representation <;> cases s.device <;>
    simp [Capabilities.withFeature, Capabilities.simulator, Representation.feature]

/-- However a backend is constructed, it takes one qubit at least, a reserved name of it tells the
device that it runs on, any other name that is asked for is kept, and its capabilities are those of
its name and its settings. From the registry, the name of the data-parallel kernels gives a backend
that runs on them, with all other settings as in the configuration, and it is refused together with
another value for the device. -/
theorem names_tell_device [Scalar α] :
    (∀ (w : Construction α) (b : Backend α), w.result = .ok b →
      1 ≤ b.settings.maxQubits ∧
      (b.name = "qulacs" → b.RunsOn .cpu) ∧ (b.name = "qulacs-gpu" → b.RunsOn .gpu) ∧
      (∀ name, w.asked? = some name → name ≠ "qulacs" → name ≠ "qulacs-gpu" → b.name = name) ∧
      b.capabilities.name = b.name ∧ b.capabilities.numQubits = b.settings.maxQubits ∧
      ∀ f, b.capabilities.hasFeature f = true ↔ f = "shots" ∨ f = "expectation" ∨
        f = "statevector" ∧ b.settings.representation = .stateVector ∨
        f = "density_matrix" ∧ b.settings.representation = .densityMatrix ∨
        f = "gpu" ∧ b.settings.device = .gpu) ∧
    ∀ (r : Registry α) (name : String) (extras : List (String × Json)),
      let c := (BackendConfig.new name).withExtras extras
      (∀ b, (create r .gpu name extras).result = .ok b → b.RunsOn .gpu) ∧
      (∀ s, c.AllowsGpu → c.settings (α := α) = .ok s → 1 ≤ s.maxQubits →
        ∃ b, (create r .gpu name extras).result = .ok b ∧ b.settings = { s with device := .gpu }) ∧
      ∀ j, c.extra? "device" = some j → j ≠ .str "gpu" →
        ∃ reason, (create r .gpu name extras).result = .error (.configuration reason) := by
  refine ⟨fun w b h => ?_, fun r name extras => ?_⟩
  · obtain ⟨s, asked, hone, rfl, hasked⟩ := exists_build h
    obtain ⟨hname, hnumQubits⟩ := capabilities_build (α := α) (Backend.settledName asked s.device) s
    have hdevice (device : Engine.Device)
        (h : Backend.settledName asked s.device = Backend.nameOf device) :
        (Backend.build (Backend.settledName asked s.device) s : Backend α).RunsOn device :=
      Backend.runsOn_of_settings (Backend.settledName_eq_nameOf h)
    refine ⟨hone, hdevice .cpu, hdevice .gpu, fun name hname hcpu hgpu => ?_, hname,
      hnumQubits, fun f => hasFeature_build _ f s⟩
    · obtain rfl := hasked name hname
      exact if_neg (not_or.mpr ⟨hcpu, hgpu⟩)
  · intro c
    have hc : Ascending c.extras := BackendConfig.ascending_withExtras name extras
    have hresult : (create r .gpu name extras).result = Registry.gpuFactory c :=
      Registry.create_gpu r c
    rw [hresult]
    refine ⟨fun b h => ?_, fun s hallows hs hone => ?_, fun j hj hne => ?_⟩
    · by_cases hallows : c.AllowsGpu
      · rw [Registry.gpuFactory_of_allows hallows] at h
        obtain ⟨s, hs, -, rfl⟩ := Backend.ofConfig_eq_ok.mp h
        exact Backend.runsOn_of_settings (BackendConfig.device_of_settings hc hs)
      · obtain ⟨reason, he⟩ := Registry.gpuFactory_of_not_allows (α := α) hallows
        cases he.symm.trans h
    · rw [Registry.gpuFactory_of_allows hallows]
      have hgpu := BackendConfig.settings_withExtra hc hs BackendConfig.takes_gpu
      exact ⟨_, Backend.ofConfig_eq_ok.mpr ⟨_, hgpu, hone, rfl⟩, rfl⟩
    · exact Registry.gpuFactory_of_not_allows fun hallows => hne (hallows j hj)

/-- A configuration under the name of the data-parallel backend may give one on the sequential
kernels, which loses the name. From the registry another name is kept, and the device as the key of
an object is refused. -/
theorem names_tell_device_renamed :
    let sequential : Construction Float := ofConfig "qulacs-gpu" [("device", .str "cpu")]
    let lab : Construction Float :=
      create .empty .gpu "lab" [("result_type", .str "density_matrix")]
    let refused : Construction Float :=
      create .empty .gpu "lab" [("device", .obj [("gpu", .null)])]
    (∃ b, sequential.result = .ok b ∧ b.name = "qulacs" ∧ b.RunsOn .cpu) ∧
      (∃ b, lab.result = .ok b ∧ b.name = "lab" ∧ b.RunsOn .gpu ∧
        b.settings.representation = .densityMatrix ∧ b.capabilities.hasFeature "gpu" = true) ∧
      ∃ reason, refused.result = .error (.configuration reason) := by
  intro sequential lab refused
  obtain ⟨hways, hgpu⟩ := names_tell_device (α := Float)
  have hsequential : sequential.result = .ok (.build "qulacs" {}) := rfl
  obtain ⟨-, hcpu, -⟩ := hways sequential _ hsequential
  obtain ⟨hruns, hyields, -⟩ := hgpu .empty "lab" [("result_type", .str "density_matrix")]
  obtain ⟨-, -, hrefuses⟩ := hgpu .empty "lab" [("device", .obj [("gpu", .null)])]
  obtain ⟨b, hb, hsettings⟩ := hyields { representation := .densityMatrix } nofun rfl (by decide)
  obtain ⟨-, -, -, hkept, -, -, hfeatures⟩ := hways lab b hb
  refine ⟨⟨_, hsequential, rfl, hcpu rfl⟩, ⟨b, hb, hkept "lab" rfl (by decide) (by decide),
    hruns b hb, by rw [hsettings], ?_⟩, hrefuses _ rfl nofun⟩
  exact (hfeatures "gpu").mpr (.inr (.inr (.inr (.inr ⟨rfl, by rw [hsettings]⟩))))

end Construction

end KetSim
