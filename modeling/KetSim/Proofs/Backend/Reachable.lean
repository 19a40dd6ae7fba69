import Mathlib
import KetSim.Backend.Execution
import KetSim.Proofs.Lookup
import KetSim.Proofs.Lowering.Program

/-! # Reachable backends

A backend starts without prepared circuits and serves any sequence of requests.
Its cache only ever holds what a compilation of the source circuit gives, so a
request is answered as if there were no cache.
-/
namespace KetSim

deriving instance ReflBEq, LawfulBEq for Angle
deriving instance ReflBEq, LawfulBEq for KetSim.Gate
deriving instance ReflBEq, LawfulBEq for InstructionKind
deriving instance ReflBEq, LawfulBEq for Instruction
deriving instance ReflBEq, LawfulBEq for Circuit

variable {α : Type} [Scalar α] [DecimalText α]

/-- A preparation by a backend of the given name: the compiled form of its source. -/
structure Prepared.Genuine (name : String) (p : Prepared α) : Prop where
  backend : p.backend = name
  compiled : ∃ k, p.source.compile = .ok k ∧ p.compiled? = some k

namespace Backend

variable [BEq α]

/-- The backends that requests lead to. -/
inductive Reachable : Backend α → Prop
  | build (name : String) (s : Settings) : Reachable (build name s)
  | prepare {b : Backend α} (h : Reachable b) (ticket : ℕ) (c : Circuit α) :
      Reachable (b.prepare ticket c).1
  | process {b : Backend α} (h : Reachable b) (o : Occasion) (c : Circuit α) (mode : RunMode α) :
      Reachable (b.process o c mode).1
  | submit {b : Backend α} (h : Reachable b) (o : Occasion) (c : Circuit α) (mode : RunMode α) :
      Reachable (b.submit o c mode).1
  | result {b : Backend α} (h : Reachable b) (id : JobId) : Reachable (b.result id).1
  | clearCache {b : Backend α} (h : Reachable b) : Reachable b.clearCache

omit [BEq α] in
/-- The capabilities are those of the settings, and every kept preparation is genuine. -/
structure Sound (b : Backend α) : Prop where
  capabilities : b.capabilities = b.settings.capabilities b.name
  cache : ∀ entry ∈ b.cache.entries, entry.2.Genuine b.name

end Backend

/-! ## The cache -/

namespace Cache

omit [Scalar α] [DecimalText α] in
theorem mem_evict {capacity : ℕ} {entries : List (CircuitKey × Prepared α)}
    {order : List CircuitKey} {entry : CircuitKey × Prepared α}
    (h : entry ∈ (evict capacity entries order).entries) : entry ∈ entries := by
  induction order generalizing entries with
  | nil => exact h
  | cons oldest rest ih =>
    rw [evict] at h
    split at h
    · exact List.mem_of_mem_filter (ih h)
    · exact h

variable [BEq α]

omit [Scalar α] [DecimalText α] in
/-- Only the new preparation joins a cache, and what is handed out is it or a kept one of an equal
circuit. -/
theorem insert_spec (cache : Cache α) (capacity : ℕ) (p : Prepared α) :
    (∀ entry ∈ (cache.insert capacity p).1.entries, entry ∈ cache.entries ∨ entry.2 = p) ∧
      ((cache.insert capacity p).2 = p ∨
        ∃ entry ∈ cache.entries, entry.2 = (cache.insert capacity p).2 ∧
          (entry.2.source == p.source) = true) := by
  unfold insert
  split
  · rename_i stored hl
    split
    · rename_i heq
      exact ⟨fun e he => .inl he, .inr ⟨_, mem_of_lookup hl, rfl, heq⟩⟩
    · exact ⟨fun e he => .inl he, .inl rfl⟩
  · split
    · exact ⟨fun e he => .inl he, .inl rfl⟩
    · refine ⟨fun e he => ?_, .inl rfl⟩
      rcases List.mem_append.mp he with he | he
      · exact .inl (mem_evict he)
      · exact .inr (by rw [List.mem_singleton.mp he])

end Cache

/-! ## Requests -/

namespace Backend

omit [Scalar α] [DecimalText α] in
theorem checkSize_eq_ok {b : Backend α} {c : Circuit α} :
    b.checkSize c = .ok () ↔ c.numQubits ≤ b.settings.maxQubits := by
  unfold checkSize
  split <;> simp <;> omega

/-- The compiled form of a circuit that the backend accepts, without a look into the cache. -/
def compiled (b : Backend α) (c : Circuit α) : Except (BackendError α) (Compiled α) := do
  b.checkSize c
  c.compile.mapError BackendError.ofLowering

theorem compiled_eq_ok {b : Backend α} {c : Circuit α} {k : Compiled α} :
    b.compiled c = .ok k ↔ b.checkSize c = .ok () ∧ c.compile = .ok k := by
  simp only [compiled, bind_unit_eq_ok, mapError_eq_ok]

/-- The data and the seed that a request comes to, without a look into the cache. -/
def answer (b : Backend α) (entropy : UInt64) (c : Circuit α) (mode : RunMode α) :
    Except (BackendError α) (ResultData α × Option UInt64) := do
  let k ← b.compiled c
  b.checkShots mode
  Execution.execute b.settings entropy k c.phase mode

/-- The preparation of a circuit that has just been compiled. -/
def prepared (b : Backend α) (ticket : ℕ) (c : Circuit α) (k : Compiled α) : Prepared α :=
  ⟨CircuitKey.of c, b.name, c, .compiled k, ticket⟩

theorem genuine_prepared {b : Backend α} {c : Circuit α} {k : Compiled α}
    (hk : b.compiled c = .ok k)
    (ticket : ℕ) : (b.prepared ticket c k).Genuine b.name :=
  ⟨rfl, k, (compiled_eq_ok.mp hk).2, rfl⟩

/-- A backend accepts the preparations of its name. -/
theorem accept_of_genuine {b : Backend α} {p : Prepared α} (h : p.Genuine b.name) :
    ∃ k, p.source.compile = .ok k ∧ b.accept p = .ok k := by
  obtain ⟨hname, k, hk, hpk⟩ := h
  exact ⟨k, hk, by simp [accept, hname, hpk]⟩

/-- A backend runs the compiled forms of the preparations of its name. -/
theorem run_of_genuine {b : Backend α} {p : Prepared α} (h : p.Genuine b.name) :
    ∃ k, p.source.compile = .ok k ∧ ∀ o mode, b.run o p mode =
      (b.checkShots mode >>= fun _ =>
        Execution.execute b.settings o.entropy k p.source.phase mode).map fun r =>
          ⟨r.1, ⟨b.name, k.program.numQubits, some o.milliseconds, r.2⟩⟩ := by
  obtain ⟨k, hk, haccept⟩ := accept_of_genuine h
  refine ⟨k, hk, fun o mode => ?_⟩
  simp only [run, haccept, bind, Except.bind, Except.map]
  cases b.checkShots mode with
  | error e => rfl
  | ok u => cases Execution.execute b.settings o.entropy k p.source.phase mode <;> rfl

variable [BEq α]

omit [Scalar α] [DecimalText α] in
theorem mem_of_lookup? {b : Backend α} {key : CircuitKey} {c : Circuit α} {p : Prepared α}
    (h : b.lookup? key c = some p) : (key, p) ∈ b.cache.entries ∧ (p.source == c) = true := by
  unfold lookup? at h
  split at h
  · refine ⟨?_, Cache.source_of_get? h⟩
    exact mem_of_lookup (Option.eq_some_of_filter_eq_some h)
  · cases h

/-- A preparation fails as the compilation does, or finds a kept preparation, or stores a new
one. -/
theorem prepare_cases (b : Backend α) (ticket : ℕ) (c : Circuit α) :
    (∃ e, b.compiled c = .error e ∧ b.prepare ticket c = (b, .error e)) ∨
    (∃ p, b.checkSize c = .ok () ∧ b.lookup? (CircuitKey.of c) c = some p ∧
      b.prepare ticket c = (b, .ok p)) ∨
    ∃ k, b.lookup? (CircuitKey.of c) c = none ∧ b.compiled c = .ok k ∧
      b.prepare ticket c = ((b.store (b.prepared ticket c k)).1,
        .ok (b.store (b.prepared ticket c k)).2) := by
  cases hsize : b.checkSize c with
  | error e =>
    have hb : b.prepare ticket c = (b, .error e) := by simp only [prepare, hsize]
    have hcompiled : b.compiled c = .error e := by simp [compiled, hsize, bind, Except.bind]
    exact .inl ⟨e, hcompiled, hb⟩
  | ok u =>
    have hcompiled : b.compiled c = c.compile.mapError BackendError.ofLowering := by
      simp [compiled, hsize, bind, Except.bind]
    cases hl : b.lookup? (CircuitKey.of c) c with
    | some p => exact .inr (.inl ⟨p, rfl, rfl, by simp only [prepare, hsize, hl]⟩)
    | none =>
      cases hk : c.compile with
      | error e =>
        refine .inl ⟨BackendError.ofLowering e, by rw [hcompiled, hk]; rfl, ?_⟩
        simp [prepare, compile, hsize, hl, hk, Except.mapError, bind, Except.bind]
      | ok k =>
        refine .inr (.inr ⟨k, rfl, by rw [hcompiled, hk]; rfl, ?_⟩)
        simp [prepare, compile, prepared, hsize, hl, hk, Except.mapError, bind, Except.bind]

theorem process_fst_eq (b : Backend α) (o : Occasion) (c : Circuit α) (mode : RunMode α) :
    (b.process o c mode).1 = (b.prepare o.ticket c).1 := by
  unfold process
  rcases b.prepare o.ticket c with ⟨b', e | p⟩ <;> rfl

/-- A submission changes the jobs beyond what its preparation changes. -/
theorem exists_submit_fst_eq (b : Backend α) (o : Occasion) (c : Circuit α) (mode : RunMode α) :
    ∃ jobs, (b.submit o c mode).1 = { (b.prepare o.ticket c).1 with jobs := jobs } := by
  unfold submit
  rcases b.prepare o.ticket c with ⟨b', e | p⟩
  · exact ⟨b'.jobs, rfl⟩
  · cases hshots : b'.checkShots mode with
    | error e => exact ⟨b'.jobs, by simp only [hshots]⟩
    | ok u => exact ⟨_, by simp only [hshots]; rfl⟩

structure Keeps (b b' : Backend α) : Prop where
  name : b'.name = b.name
  settings : b'.settings = b.settings
  capabilities : b'.capabilities = b.capabilities

omit [Scalar α] [DecimalText α] in
/-- Only the new preparation joins what is kept, and what is handed out is it or a kept one of an
equal circuit. -/
theorem store_spec (b : Backend α) (p : Prepared α) :
    Keeps b (b.store p).1 ∧
      (∀ entry ∈ (b.store p).1.cache.entries, entry ∈ b.cache.entries ∨ entry.2 = p) ∧
      ((b.store p).2 = p ∨ ∃ entry ∈ b.cache.entries, entry.2 = (b.store p).2 ∧
        (entry.2.source == p.source) = true) := by
  unfold store
  split
  · exact ⟨⟨rfl, rfl, rfl⟩, b.cache.insert_spec b.settings.cacheCapacity p⟩
  · exact ⟨⟨rfl, rfl, rfl⟩, fun entry he => .inl he, .inl rfl⟩

theorem keeps_prepare (b : Backend α) (ticket : ℕ) (c : Circuit α) :
    Keeps b (b.prepare ticket c).1 := by
  obtain ⟨e, -, hb⟩ | ⟨p, -, -, hb⟩ | ⟨k, -, -, hb⟩ := b.prepare_cases ticket c
  · rw [hb]
    exact ⟨rfl, rfl, rfl⟩
  · rw [hb]
    exact ⟨rfl, rfl, rfl⟩
  · rw [hb]
    exact (b.store_spec _).1

/-- What holds of all that is kept and of what is made anew holds of all that is kept and handed
out afterwards. -/
theorem prepare_preserves {b : Backend α} {P : Prepared α → Prop} {ticket : ℕ} {c : Circuit α}
    (hkept : ∀ entry ∈ b.cache.entries, P entry.2)
    (hmade : ∀ k, b.compiled c = .ok k → P (b.prepared ticket c k)) :
    (∀ entry ∈ (b.prepare ticket c).1.cache.entries, P entry.2) ∧
      ∀ p, (b.prepare ticket c).2 = .ok p → P p := by
  obtain ⟨e, -, hb⟩ | ⟨p, -, hl, hb⟩ | ⟨k, -, hk, hb⟩ := b.prepare_cases ticket c
  · rw [hb]
    exact ⟨hkept, fun p hp => by cases hp⟩
  · rw [hb]
    exact ⟨hkept, fun p' hp => Except.ok.inj hp ▸ hkept _ (mem_of_lookup? hl).1⟩
  · rw [hb]
    obtain ⟨-, hentries, hout⟩ := b.store_spec (b.prepared ticket c k)
    refine ⟨fun entry he => ?_, fun p hp => ?_⟩
    · rcases hentries entry he with he | he
      · exact hkept entry he
      · exact he ▸ hmade k hk
    · obtain rfl := Except.ok.inj hp
      rcases hout with hout | ⟨entry, he, hout, -⟩
      · rw [hout]
        exact hmade k hk
      · rw [← hout]
        exact hkept entry he

/-- What is handed out has the circuit for its source, or a kept one that compares as equal. -/
theorem source_prepare {b : Backend α} {ticket : ℕ} {c : Circuit α} {p : Prepared α}
    (hp : (b.prepare ticket c).2 = .ok p) : p.source = c ∨ (p.source == c) = true := by
  obtain ⟨e, -, hb⟩ | ⟨kept, -, hl, hb⟩ | ⟨k, -, hk, hb⟩ := b.prepare_cases ticket c
  · rw [hb] at hp
    cases hp
  · rw [hb] at hp
    exact .inr (Except.ok.inj hp ▸ (mem_of_lookup? hl).2)
  · rw [hb] at hp
    obtain ⟨-, -, hout⟩ := b.store_spec (b.prepared ticket c k)
    rw [Except.ok.inj hp] at hout
    rcases hout with hout | ⟨entry, -, hout, heq⟩
    · exact .inl (by rw [hout]; rfl)
    · exact .inr (by rw [← hout]; exact heq)

/-- A kept preparation of a circuit that compares as equal to `c` is a preparation of `c`. -/
def Faithful (b : Backend α) (c : Circuit α) : Prop :=
  ∀ entry ∈ b.cache.entries, (entry.2.source == c) = true → entry.2.source = c

omit [Scalar α] [DecimalText α] in
theorem faithful_of_lawful [LawfulBEq α] (b : Backend α) (c : Circuit α) : b.Faithful c :=
  fun _ _ => eq_of_beq

namespace Sound

variable {b : Backend α}

theorem genuine_of_lookup (h : b.Sound) {key : CircuitKey} {c : Circuit α} {p : Prepared α}
    (hl : b.lookup? key c = some p) : p.Genuine b.name :=
  h.cache _ (mem_of_lookup? hl).1

theorem prepare_fst (h : b.Sound) (ticket : ℕ) (c : Circuit α) :
    Keeps b (b.prepare ticket c).1 ∧ (b.prepare ticket c).1.Sound := by
  have hkeeps := b.keeps_prepare ticket c
  obtain ⟨hcache, -⟩ := prepare_preserves h.cache fun k hk => genuine_prepared hk ticket
  refine ⟨hkeeps, ?_, fun entry he => hkeeps.name ▸ hcache entry he⟩
  rw [hkeeps.capabilities, hkeeps.settings, hkeeps.name, h.capabilities]

/-- What is handed out is genuine, whether it was kept or has just been made. -/
theorem genuine_prepare (h : b.Sound) {ticket : ℕ} {c : Circuit α} {p : Prepared α}
    (hp : (b.prepare ticket c).2 = .ok p) : p.Genuine b.name :=
  (prepare_preserves h.cache fun _ hk => genuine_prepared hk ticket).2 p hp

/-- A preparation comes to what a compilation comes to. -/
theorem prepare_snd (h : b.Sound) {c : Circuit α} (hf : b.Faithful c) (ticket : ℕ) :
    (∃ e, (b.prepare ticket c).2 = .error e ∧ b.compiled c = .error e) ∨
      ∃ p k, (b.prepare ticket c).2 = .ok p ∧ b.compiled c = .ok k ∧ p.backend = b.name ∧
        p.source = c ∧ p.compiled? = some k := by
  obtain ⟨e, he, hb⟩ | ⟨p, hsize, hl, hb⟩ | ⟨k, -, hk, hb⟩ := b.prepare_cases ticket c
  · exact .inl ⟨e, by rw [hb], he⟩
  · obtain ⟨hmem, heq⟩ := mem_of_lookup? hl
    have hsource : p.source = c := hf _ hmem heq
    obtain ⟨hname, k, hk, hpk⟩ := h.genuine_of_lookup hl
    rw [hsource] at hk
    exact .inr ⟨p, k, by rw [hb], compiled_eq_ok.mpr ⟨hsize, hk⟩, hname, hsource, hpk⟩
  · have hp : (b.prepare ticket c).2 = .ok (b.store (b.prepared ticket c k)).2 := by rw [hb]
    obtain ⟨hname, k', hk', hpk⟩ := h.genuine_prepare hp
    obtain ⟨-, -, hout⟩ := b.store_spec (b.prepared ticket c k)
    have hsource : (b.store (b.prepared ticket c k)).2.source = c := by
      rcases hout with hout | ⟨entry, hmem, hout, heq⟩
      · rw [hout]
        rfl
      · rw [← hout]
        exact hf entry hmem heq
    rw [hsource, (compiled_eq_ok.mp hk).2] at hk'
    obtain rfl := Except.ok.inj hk'
    exact .inr ⟨_, k, by rw [hb], hk, hname, hsource, hpk⟩

theorem source_eq (h : b.Sound) {c : Circuit α} (hf : b.Faithful c) {ticket : ℕ} {p : Prepared α}
    (hp : (b.prepare ticket c).2 = .ok p) : p.source = c := by
  obtain ⟨e, he, -⟩ | ⟨p', -, hp', -, -, hsource, -⟩ := h.prepare_snd hf ticket
  · rw [he] at hp
    cases hp
  · rw [hp'] at hp
    exact Except.ok.inj hp ▸ hsource

omit [BEq α] in
theorem maxShots (h : b.Sound) : b.capabilities.maxShots = 1000000 := by
  rw [h.capabilities, Settings.capabilities]
  cases b.settings.device <;> rfl

omit [BEq α] in
theorem checkShots_eq (h : b.Sound) {b' : Backend α} (h' : b'.Sound) (mode : RunMode α) :
    b'.checkShots mode = b.checkShots mode := by
  simp only [Backend.checkShots, h.maxShots, h'.maxShots]

theorem process_fst (h : b.Sound) (o : Occasion) (c : Circuit α) (mode : RunMode α) :
    Keeps b (b.process o c mode).1 ∧ (b.process o c mode).1.Sound := by
  rw [process_fst_eq]
  exact h.prepare_fst o.ticket c

theorem submit_fst (h : b.Sound) (o : Occasion) (c : Circuit α) (mode : RunMode α) :
    Keeps b (b.submit o c mode).1 ∧ (b.submit o c mode).1.Sound := by
  obtain ⟨jobs, hb⟩ := b.exists_submit_fst_eq o c mode
  obtain ⟨⟨hname, hsettings, hcapabilities⟩, hsound⟩ := h.prepare_fst o.ticket c
  rw [hb]
  exact ⟨⟨hname, hsettings, hcapabilities⟩, hsound.capabilities, hsound.cache⟩

/-- A request is answered as if there were no cache. -/
theorem process_snd_of_faithful (h : b.Sound) {c : Circuit α} (hf : b.Faithful c) (o : Occasion)
    (mode : RunMode α) :
    (b.process o c mode).2 = (b.answer o.entropy c mode).map fun r =>
      ⟨r.1, ⟨b.name, c.numQubits, some o.milliseconds, r.2⟩⟩ := by
  obtain ⟨hkeeps, -⟩ := h.prepare_fst o.ticket c
  have hout := h.prepare_snd hf o.ticket
  unfold Backend.process
  rcases hb : b.prepare o.ticket c with ⟨b', r⟩
  rw [hb] at hkeeps hout
  obtain ⟨e, rfl, he⟩ | ⟨p, k, rfl, hk, hname, rfl, hpk⟩ := hout
  · simp [answer, he, bind, Except.bind, Except.map]
  · obtain ⟨hbn, hbs, hbc⟩ := hkeeps
    simp only at hbn hbs hbc
    have haccept : b'.accept p = .ok k := by
      simp [Backend.accept, hname, hbn, hpk]
    have hshots : b'.checkShots mode = b.checkShots mode := by
      simp only [Backend.checkShots, hbc]
    have hn := Circuit.numQubits_of_compile (compiled_eq_ok.mp hk).2
    simp only [Backend.run, haccept, hshots, hbs, hbn, answer, hk, hn, bind, Except.bind,
      Except.map]
    cases b.checkShots mode with
    | error e => rfl
    | ok u =>
      cases Execution.execute b.settings o.entropy k p.source.phase mode <;> rfl

theorem process_snd [LawfulBEq α] (h : b.Sound) (o : Occasion) (c : Circuit α) (mode : RunMode α) :
    (b.process o c mode).2 = (b.answer o.entropy c mode).map fun r =>
      ⟨r.1, ⟨b.name, c.numQubits, some o.milliseconds, r.2⟩⟩ :=
  h.process_snd_of_faithful (b.faithful_of_lawful c) o mode

end Sound

theorem Reachable.sound {b : Backend α} (h : b.Reachable) : b.Sound := by
  induction h with
  | build name s => exact ⟨rfl, fun e he => absurd he List.not_mem_nil⟩
  | prepare _ ticket c ih => exact (ih.prepare_fst ticket c).2
  | process _ o c mode ih => exact (ih.process_fst o c mode).2
  | submit _ o c mode ih => exact (ih.submit_fst o c mode).2
  | result _ id ih => exact ⟨ih.capabilities, ih.cache⟩
  | clearCache _ ih => exact ⟨ih.capabilities, fun e he => absurd he List.not_mem_nil⟩

end Backend

end KetSim
