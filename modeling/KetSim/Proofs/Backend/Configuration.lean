import KetSim.Proofs.Form.Settings

/-! # Extra values of configurations

A configuration keeps the value given last for each name, by ascending name. Its settings
depend on these values only, not on the order in which they came, and settings that are
written into a configuration are read from it again.
-/
namespace KetSim

/-! ## Written settings -/

/-- Settings whose numbers are of 32 and of 64 bits. -/
structure Settings.Fits (s : Settings) : Prop where
  maxQubits : s.maxQubits < 2 ^ 32
  cacheCapacity : s.cacheCapacity < 2 ^ 64

namespace Setting

/-- The form in which a value is written; no seed is left out. -/
def write : (f : Setting) → f.Value → Option Json
  | resultType, v => some (.str v.spelling)
  | device, v => some (.str v.text)
  | precision, v => some (.str v.spelling)
  | maxQubits, n => some (.int n)
  | cache, b => some (.bool b)
  | cacheCapacity, n => some (.int n)
  | seed, v => v.map fun n => .int n.toNat

theorem takes_of_write {s : Settings} (h : s.Fits) {f : Setting} {j : Json}
    (hj : f.write (f.get s) = some j) : f.Takes j (f.get s) := by
  cases f with
  | resultType | device | precision => exact .inl (Option.some.inj hj).symm
  | maxQubits => exact ⟨(Option.some.inj hj).symm, h.maxQubits⟩
  | cache => exact (Option.some.inj hj).symm
  | cacheCapacity => exact ⟨(Option.some.inj hj).symm, h.cacheCapacity⟩
  | seed =>
    obtain ⟨n, hn, rfl⟩ := Option.map_eq_some_iff.mp hj
    rw [hn]
    rfl

theorem get_of_write_eq_none {s : Settings} {f : Setting} (h : f.write (f.get s) = none) :
    f.get s = f.get {} := by
  cases f with
  | seed => exact Option.map_eq_none_iff.mp h
  | _ => cases h

/-- What a setting takes is kept as it was given. -/
theorem Takes.canonical {f : Setting} {j : Json} {v : f.Value} (h : f.Takes j v) :
    j.canonical = j := by
  cases f with
  | resultType | device | precision => rcases h with rfl | rfl <;> rfl
  | maxQubits | cacheCapacity =>
    obtain ⟨rfl, -⟩ := h
    rfl
  | cache =>
    obtain rfl : j = .bool v := h
    rfl
  | seed => cases v <;> (obtain rfl := h; rfl)

end Setting

namespace Settings

/-- The members of written settings. -/
def written (s : Settings) : List (String × Json) :=
  [Setting.resultType, .device, .precision, .maxQubits, .cache, .cacheCapacity, .seed].filterMap
    fun f => (f.write (f.get s)).map (f.name, ·)

theorem toJson_eq (s : Settings) : s.toJson = .obj s.written := by
  obtain ⟨r, d, p, n, b, k, _ | seed⟩ := s <;> cases r <;> cases d <;> cases p <;> rfl

theorem lookup_written (s : Settings) (f : Setting) :
    s.written.lookup f.name = f.write (f.get s) := by
  obtain ⟨r, d, p, n, b, k, _ | seed⟩ := s <;> cases f <;> rfl

theorem nodup_written (s : Settings) : (s.written.map Prod.fst).Nodup := by
  have hnames : names.Nodup := by decide
  obtain ⟨r, d, p, n, b, k, _ | seed⟩ := s
  · exact hnames.sublist (List.dropLast_sublist names)
  · exact hnames

theorem exists_name_of_mem_written {s : Settings} {m : String × Json} (h : m ∈ s.written) :
    ∃ f : Setting, f.name = m.1 := by
  obtain ⟨f, -, hf⟩ := List.mem_filterMap.mp h
  obtain ⟨j, -, rfl⟩ := Option.map_eq_some_iff.mp hf
  exact ⟨f, rfl⟩

theorem follows_written {s : Settings} (h : s.Fits) : Follows s.written {} s where
  given f _ hj := Setting.takes_of_write h (s.lookup_written f ▸ hj)
  kept f hf := Setting.get_of_write_eq_none (s.lookup_written f ▸ hf)

theorem accepts_written {s : Settings} (h : s.Fits) {m : String × Json} (hm : m ∈ s.written) :
    Setting.Accepts m.1 m.2 := by
  obtain ⟨f, hname⟩ := exists_name_of_mem_written hm
  refine ⟨f, hname, f.get s, (follows_written h).given f m.2 ?_⟩
  rw [hname]
  exact lookup_eq_some_of_mem s.nodup_written hm

end Settings

/-! ## Extra values -/

namespace BackendConfig

variable {α : Type} {c : BackendConfig} {name key : String} {members : List (String × Json)}
  {s : Settings}

theorem extra?_withExtra (c : BackendConfig) (key other : String) (value : Json) :
    (c.withExtra key value).extra? other =
      if other = key then some value.canonical else c.extra? other :=
  Json.lookup_insertMember key other value.canonical c.extras

theorem withExtras_concat (c : BackendConfig) (m : String × Json) :
    c.withExtras (members ++ [m]) = (c.withExtras members).withExtra m.1 m.2 := by
  rw [withExtras, List.foldl_append]
  rfl

theorem ascending_withExtra (h : Ascending c.extras) (key : String) (value : Json) :
    Ascending (c.withExtra key value).extras := by
  rw [withExtra, Json.insertMember_eq]
  exact h.insertWith key _

theorem ascending_withExtras (name : String) (members : List (String × Json)) :
    Ascending ((new name).withExtras members).extras := by
  induction members using List.reverseRecOn with
  | nil => exact List.Pairwise.nil
  | append_singleton members m ih =>
    rw [withExtras_concat]
    exact ascending_withExtra ih m.1 m.2

@[simp] theorem name_withExtras (c : BackendConfig) (members : List (String × Json)) :
    (c.withExtras members).name = c.name := by
  induction members using List.reverseRecOn with
  | nil => rfl
  | append_singleton members m ih => rw [withExtras_concat, ← ih]; rfl

/-- The value that is given last for a name is kept. -/
theorem extra?_withExtras (name key : String) (members : List (String × Json)) :
    ((new name).withExtras members).extra? key =
      (members.reverse.lookup key).map Json.canonical := by
  induction members using List.reverseRecOn with
  | nil => rfl
  | append_singleton members m ih =>
    rw [withExtras_concat, extra?_withExtra, ih, List.reverse_append, List.reverse_singleton,
      List.singleton_append, lookup_cons_ite]
    split_ifs <;> rfl

/-- Values that are given last are all that counts. -/
theorem withExtras_congr {members' : List (String × Json)}
    (h : ∀ key, members'.reverse.lookup key = members.reverse.lookup key) :
    (new name).withExtras members' = (new name).withExtras members := by
  have heta (members : List (String × Json)) :
      (new name).withExtras members = ⟨name, ((new name).withExtras members).extras⟩ :=
    congrArg (mk · _) (name_withExtras (new name) members)
  rw [heta members', heta members]
  refine congrArg (mk name) ?_
  refine (ascending_withExtras name members').ext (ascending_withExtras name members) fun key => ?_
  have hextra := extra?_withExtras name key members'
  rwa [h, ← extra?_withExtras] at hextra

/-! ## Settings of a configuration -/

/-- A name with a value that is not accepted, the first of them by the order of the bytes. -/
structure Refused (c : BackendConfig) (key : String) (j : Json) : Prop where
  given : c.extra? key = some j
  refused : ¬ Setting.Accepts key j
  first : ∀ other j', c.extra? other = some j' → ¬ Setting.Accepts other j' →
    other = key ∨ Text.bytes key < Text.bytes other

/-- What an error about the settings says. -/
def complaint (c : BackendConfig) (key : String) (problem : SettingProblem) : BackendError α :=
  .configuration
    ("invalid settings for '" ++ c.name ++ "': " ++ SettingError.message ⟨key, problem⟩)

theorem settings_cases (h : Ascending c.extras) :
    (∀ key j, c.extra? key = some j → Setting.Accepts key j) ∧
        (∃ s, c.settings (α := α) = .ok s ∧ Settings.Follows c.extras {} s) ∨
      ∃ key j problem, c.Refused key j ∧ ({} : Settings).assign key j = .error problem ∧
        c.settings (α := α) = .error (c.complaint key problem) := by
  obtain ⟨haccepts, s, hs, hfollows⟩ |
    ⟨before, key, j, after, problem, hsplit, hbefore, hfirst, hproblem, he⟩ :=
      Settings.decode_cases h.nodup
  · refine .inl ⟨fun key j hj => haccepts (key, j) (mem_of_lookup hj), s, ?_, hfollows⟩
    rw [settings, hs]
    rfl
  · have hmem : (key, j) ∈ c.extras := hsplit ▸ List.mem_append_right _ List.mem_cons_self
    refine .inr ⟨key, j, problem, ⟨h.mem_iff_lookup.mp hmem, hfirst, ?_⟩, hproblem, ?_⟩
    · intro other j' hj' hrefused
      have hother : (other, j') ∈ before ++ (key, j) :: after := hsplit ▸ mem_of_lookup hj'
      rcases List.mem_append.mp hother with hother | hother
      · exact absurd (hbefore _ hother) hrefused
      · rcases List.mem_cons.mp hother with hother | hother
        · exact .inl (congrArg Prod.fst hother)
        · have hlt : key < other := (hsplit ▸ h).lt_of_mem_after hother
          exact .inr (Text.lt_iff_bytes_lt.mp hlt)
    · rw [settings, he]
      rfl

/-- Settings are read if they are the ones that are given. -/
theorem settings_of_follows (h : Ascending c.extras)
    (haccepts : ∀ key j, c.extra? key = some j → Setting.Accepts key j)
    (hs : Settings.Follows c.extras {} s) : c.settings (α := α) = .ok s := by
  obtain ⟨-, s', hs', hfollows⟩ | ⟨key, j, -, hrefused, -⟩ := settings_cases (α := α) h
  · rw [hs', hfollows.eq hs]
  · exact absurd (haccepts key j hrefused.given) hrefused.refused

theorem follows_of_settings (h : Ascending c.extras)
    (hs : c.settings (α := α) = .ok s) :
    (∀ key j, c.extra? key = some j → Setting.Accepts key j) ∧ Settings.Follows c.extras {} s := by
  obtain ⟨haccepts, s', hs', hfollows⟩ | ⟨key, j, problem, -, -, he⟩ := settings_cases (α := α) h
  · obtain rfl : s' = s := Except.ok.inj (hs'.symm.trans hs)
    exact ⟨haccepts, hfollows⟩
  · cases he.symm.trans hs

/-- One more value changes the setting that it is given for. -/
theorem settings_withExtra (h : Ascending c.extras)
    (hs : c.settings (α := α) = .ok s) {f : Setting} {j : Json} {v : f.Value} (hv : f.Takes j v) :
    (c.withExtra f.name j).settings (α := α) = .ok (f.set s v) := by
  obtain ⟨haccepts, hfollows⟩ := follows_of_settings h hs
  have hextra (key : String) : (c.withExtra f.name j).extra? key =
      if key = f.name then some j else c.extra? key := by
    rw [extra?_withExtra, hv.canonical]
  have hself : (c.withExtra f.name j).extra? f.name = some j := by rw [hextra, if_pos rfl]
  have hother (g : Setting) (hne : g ≠ f) :
      (c.withExtra f.name j).extra? g.name = c.extra? g.name := by
    rw [hextra, if_neg fun hname => hne (Setting.name_injective hname)]
  refine settings_of_follows (ascending_withExtra h _ _) (fun key j' hj' => ?_)
    ⟨fun g j' hj' => ?_, fun g hg => ?_⟩
  · rw [hextra] at hj'
    split_ifs at hj' with hkey
    · obtain rfl := Option.some.inj hj'
      exact ⟨f, hkey.symm, v, hv⟩
    · exact haccepts key j' hj'
  · by_cases hgf : g = f
    · subst hgf
      obtain rfl := Option.some.inj (hself.symm.trans hj')
      rw [Setting.get_set]
      exact hv
    · rw [Setting.get_set_of_ne hgf]
      exact hfollows.given g j' ((hother g hgf).symm.trans hj')
  · by_cases hgf : g = f
    · subst hgf
      cases hself.symm.trans hg
    · rw [Setting.get_set_of_ne hgf]
      exact hfollows.kept g ((hother g hgf).symm.trans hg)

theorem fits_of_follows (h : Settings.Follows c.extras {} s) : s.Fits where
  maxQubits := by
    cases hj : c.extras.lookup Setting.maxQubits.name with
    | none =>
      have hdefault : s.maxQubits = 24 := h.kept .maxQubits hj
      omega
    | some j => exact (h.given .maxQubits j hj).2
  cacheCapacity := by
    cases hj : c.extras.lookup Setting.cacheCapacity.name with
    | none =>
      have hdefault : s.cacheCapacity = 256 := h.kept .cacheCapacity hj
      omega
    | some j => exact (h.given .cacheCapacity j hj).2

theorem settings_written (h : s.Fits) (hperm : members.Perm s.written) :
    ((new name).withExtras members).settings (α := α) = .ok s := by
  have hextra (key : String) : ((new name).withExtras members).extra? key =
      (s.written.lookup key).map Json.canonical := by
    have hreverse := (List.reverse_perm members).trans hperm
    rw [extra?_withExtras, lookup_perm hreverse.symm s.nodup_written]
  have hcanonical {m : String × Json} (hm : m ∈ s.written) : m.2.canonical = m.2 := by
    obtain ⟨f, -, v, hv⟩ := Settings.accepts_written h hm
    exact hv.canonical
  have hgiven (key : String) (j : Json) (hj : ((new name).withExtras members).extra? key = some j) :
      s.written.lookup key = some j := by
    obtain ⟨j', hj', rfl⟩ := Option.map_eq_some_iff.mp (hextra key ▸ hj)
    rw [hj', hcanonical (mem_of_lookup hj')]
  refine settings_of_follows (ascending_withExtras name members) (fun key j hj => ?_) ?_
  · exact Settings.accepts_written h (mem_of_lookup (hgiven key j hj))
  · have hfollows := Settings.follows_written h
    refine ⟨fun f j hj => hfollows.given f j (hgiven f.name j hj), fun f hf => ?_⟩
    exact hfollows.kept f
      (Option.map_eq_none_iff.mp ((hextra f.name).symm.trans hf))

/-- A configuration holds the value given last for each name. Its settings are read exactly if each
name is that of a setting, with a value that the setting takes. Every setting that is given then has
this value, and every other one its default. What is read depends on the last values only, not on
the order of the names. An error is about the first of the names that are not accepted, by the order
of the bytes. Written settings are read again, in whatever order they are given. -/
theorem settings_exact (name : String) (members : List (String × Json)) :
    let c := (new name).withExtras members
    (∀ key, c.extra? key = (members.reverse.lookup key).map Json.canonical) ∧
    ((∃ s, c.settings (α := α) = .ok s) ↔
      ∀ key j, c.extra? key = some j → Setting.Accepts key j) ∧
    (∀ s, c.settings (α := α) = .ok s → s.Fits ∧ ∀ f : Setting,
      (∀ j, c.extra? f.name = some j → f.Takes j (f.get s)) ∧
      (c.extra? f.name = none → f.get s = f.get {})) ∧
    (∀ members', (∀ key, members'.reverse.lookup key = members.reverse.lookup key) →
      ((new name).withExtras members').settings (α := α) = c.settings) ∧
    (∀ e, c.settings (α := α) = .error e → ∃ key j problem, c.Refused key j ∧
      ({} : Settings).assign key j = .error problem ∧
      e = .configuration ("invalid settings for '" ++ name ++ "': " ++
        SettingError.message ⟨key, problem⟩)) ∧
    ∀ s : Settings, s.Fits → s.toJson = .obj s.written ∧ ∀ members', members'.Perm s.written →
      ((new name).withExtras members').settings (α := α) = .ok s := by
  intro c
  have hname : c.name = name := name_withExtras (new name) members
  refine ⟨fun key => extra?_withExtras name key members, ?_, fun s hs => ?_,
    fun members' h => by rw [withExtras_congr h], fun e he => ?_,
    fun s h => ⟨s.toJson_eq, fun members' hperm => settings_written h hperm⟩⟩
  · obtain ⟨haccepts, s, hs, -⟩ | ⟨key, j, problem, hrefused, -, he⟩ :=
      settings_cases (α := α) (ascending_withExtras name members)
    · exact iff_of_true ⟨s, hs⟩ haccepts
    · refine iff_of_false ?_ fun haccepts => hrefused.refused (haccepts key j hrefused.given)
      rintro ⟨s, hs⟩
      cases he.symm.trans hs
  · obtain ⟨-, hfollows⟩ := follows_of_settings (ascending_withExtras name members) hs
    exact ⟨fits_of_follows hfollows, fun f => ⟨hfollows.given f, hfollows.kept f⟩⟩
  · obtain ⟨-, s', hs', -⟩ | ⟨key, j, problem, hrefused, hproblem, he'⟩ :=
      settings_cases (α := α) (ascending_withExtras name members)
    · cases hs'.symm.trans he
    · refine ⟨key, j, problem, hrefused, hproblem, ?_⟩
      rw [← hname]
      exact Except.error.inj (he.symm.trans he')

/-- A device may be the key of an object, the seed given last counts, and of two values that are not
accepted the one under the lesser name is reported. -/
theorem settings_exact_mixed :
    let given : List (String × Json) := [("seed", .int 11), ("device", .obj [("gpu", .null)]),
      ("result_type", .str "density_matrix"), ("seed", .int 7)]
    let again : List (String × Json) := [("result_type", .str "density_matrix"), ("seed", .int 7),
      ("device", .obj [("gpu", .null)])]
    let refused : List (String × Json) :=
      [("zeta", .null), ("device", .str "tpu"), ("cache", .int 1)]
    let s : Settings := { representation := .densityMatrix, device := .gpu, seed := some 7 }
    ((new "q").withExtras given).settings (α := Float) = .ok s ∧
      Setting.device.Takes (.obj [("gpu", .null)]) s.device ∧ s.maxQubits = 24 ∧
      ((new "q").withExtras again).settings (α := Float) = .ok s ∧
      ((new "q").withExtras s.written).settings (α := Float) = .ok s ∧
      ((new "q").withExtras refused).Refused "cache" (.int 1) := by
  intro given again refused s
  have hs : ((new "q").withExtras given).settings (α := Float) = .ok s := rfl
  have hrefused : ((new "q").withExtras refused).settings (α := Float) =
      .error (.configuration
        "invalid settings for 'q': invalid type: integer `1`, expected a boolean") := rfl
  have hlast (key : String) : again.reverse.lookup key = given.reverse.lookup key := by
    change List.lookup key [("device", _), ("seed", _), ("result_type", _)] =
      List.lookup key [("seed", _), ("result_type", _), ("device", _), ("seed", _)]
    simp only [lookup_cons_ite]
    split_ifs <;> simp_all
  have hcache : ¬ Setting.Accepts "cache" (.int 1) := by
    rintro ⟨f, hname, v, hv⟩
    obtain rfl : f = .cache := Setting.name_injective hname
    cases hv
  obtain ⟨-, -, hvalues, hsame, -, hwritten⟩ := settings_exact (α := Float) "q" given
  obtain ⟨-, -, -, -, herror, -⟩ := settings_exact (α := Float) "q" refused
  obtain ⟨key, j, -, hfirst, -, -⟩ := herror _ hrefused
  have hvalues := hvalues s hs
  refine ⟨hs, (hvalues.2 .device).1 _ rfl, (hvalues.2 .maxQubits).2 rfl,
    (hsame again hlast).trans hs, (hwritten s hvalues.1).2 _ (List.Perm.refl _), ?_⟩
  have hmem : (key, j) ∈ [("cache", Json.int 1), ("device", .str "tpu"), ("zeta", .null)] :=
    mem_of_lookup hfirst.given
  rcases hfirst.first "cache" (.int 1) rfl hcache with rfl | hlt
  · obtain rfl : j = .int 1 := Option.some.inj (hfirst.given.symm.trans rfl)
    exact hfirst
  · rw [← Text.lt_iff_bytes_lt] at hlt
    simp only [List.mem_cons, Prod.mk.injEq, List.not_mem_nil, or_false] at hmem
    rcases hmem with ⟨rfl, -⟩ | ⟨rfl, -⟩ | ⟨rfl, -⟩ <;> exact absurd hlt (by decide)

end BackendConfig

end KetSim
