import BslLint.Proofs.Data.Attempts
import BslLint.Proofs.Data.KeyMap
import BslLint.Proofs.Rule.Locations

/-!
# What a setting of a rule changes

What a configuration finds in a document is put together from what it finds by each rule, and that
depends on what it says about this one rule (`Config.diagnostics?_eq_ok_iff`). So a change in the
settings of a rule leaves what the other rules find as it was, and its order too, because
diagnostics are ordered by their places: a rule that is disabled takes its own diagnostics away,
another severity changes nothing but the severity, other parameters change nothing but what the rule
itself finds, and what is said about rules and parameters that do not exist changes nothing at all.

A configuration cannot be used if and only if a rule that is to be run is given something else than
a size (`Config.exists_error_iff`).
-/

namespace BslLint

/-! ### Parameters that can be used -/

/-- The value is an integer, or a string that is one once the white space around it is gone. -/
inductive Toml.IsInteger : Toml → Int → Prop where
  | int (n : Int) : IsInteger (.int n) n
  | str {s : String} {n : Int} (h : Text.integer? (Text.trim s.toList) = some n) :
    IsInteger (.str s) n

/-- An integer is read from a value just if the value is one, as a number or as a string. -/
theorem Toml.asInteger?_eq_some_iff {v : Toml} {n : Int} :
    v.asInteger? = some n ↔ v.IsInteger n := by
  constructor
  · intro h
    cases v with
    | int m =>
      obtain rfl : m = n := Option.some.inj h
      exact .int m
    | str s => exact .str h
    | _ => exact nomatch h
  · rintro (_ | h)
    · rfl
    · exact h

/-- The value cannot be used as a size: it is no integer, or it is negative. -/
def Toml.IsNoSize (v : Toml) : Prop := (∀ n, ¬v.IsInteger n) ∨ ∃ n, v.IsInteger n ∧ n < 0

/-- What is no integer and what is negative are refused alike. -/
theorem Toml.isNoSize_iff {v : Toml} : v.IsNoSize ↔ ∀ n, v.asInteger? = some n → n < 0 := by
  simp only [IsNoSize, ← asInteger?_eq_some_iff]
  cases v.asInteger? <;> simp

/-- A size is read if nothing is given or something that can be used. -/
theorem Parameters.exists_size?_eq_ok_iff {ps : Parameters} {name : String} :
    (∃ size, ps.size? name = .ok size) ↔ ∀ v, ps.find? name = some v → ¬v.IsNoSize := by
  simp only [Toml.isNoSize_iff, size?, integer?]
  cases ps.find? name with
  | none => exact ⟨fun _ ↦ nofun, fun _ ↦ ⟨none, rfl⟩⟩
  | some v =>
    cases hv : v.asInteger? with
    | none => simp [hv, bind_eq_ok_iff]
    | some n =>
      by_cases hn : n < 0
      · simp [hv, hn, bind_eq_ok_iff, throw_ne_ok]
      · simp [hv, bind_eq_ok_iff, pure_eq_ok_iff, hn, not_lt.1 hn]

namespace Rule

variable {r : Rule} {s s' : RuleSettings} {ps ps' : Parameters} {limit : Nat} {d : Document}

/-- The size that a rule works with. -/
def limitOf (r : Rule) (ps : Parameters) : Nat := ((r.limit? ps).toOption).getD 0

/-- The rule is given a size, if it is given one of its parameters at all. -/
def Accepts (r : Rule) (ps : Parameters) : Prop :=
  ∀ p, r.parameter? = some p → ∀ v, ps.find? p.name = some v → ¬v.IsNoSize

/-- A rule has a size just if it accepts its parameters. -/
theorem limit?_eq_ok_iff :
    r.limit? ps = .ok limit ↔ r.Accepts ps ∧ r.limitOf ps = limit := by
  have hiff : (∃ limit, r.limit? ps = .ok limit) ↔ r.Accepts ps := by
    unfold limit? Accepts
    cases r.parameter? with
    | none => exact ⟨fun _ ↦ nofun, fun _ ↦ ⟨0, rfl⟩⟩
    | some p =>
      have hsize : (∃ size, ps.size? p.name = .ok size) ↔ _ := Parameters.exists_size?_eq_ok_iff
      simp only [Option.some.injEq, forall_eq', ← hsize]
      cases ps.size? p.name <;> simp [bind, Except.bind, pure, Except.pure]
  rw [← hiff, limitOf]
  cases r.limit? ps <;> simp [Except.toOption]

/-- What is given under another name does not matter. -/
theorem limit?_congr (h : ∀ p, r.parameter? = some p → ps'.find? p.name = ps.find? p.name) :
    r.limit? ps' = r.limit? ps := by
  unfold limit?
  cases hp : r.parameter? with
  | none => rfl
  | some p => simp only [Parameters.size?, Parameters.integer?, h p hp]

/-- A rule as it is run. -/
def ranked (r : Rule) (s : RuleSettings) : RankedPass Unit :=
  ⟨r.pass (r.limitOf s.parameters), s.severity.getD r.info.severity⟩

/-- What a rule finds in a document. -/
def found (r : Rule) (s : RuleSettings) (d : Document) : List Diagnostic :=
  if s.enabled then
    ((r.pass (r.limitOf s.parameters)).course d).findings.map
      (·.toDiagnostic r.code (s.severity.getD r.info.severity))
  else []

/-- What a rule finds has its code. -/
theorem code_of_mem_found {x : Diagnostic} (hx : x ∈ r.found s d) : x.code = r.code := by
  rw [found] at hx
  split at hx
  · obtain ⟨f, -, rfl⟩ := List.mem_map.1 hx
    rfl
  · cases hx

/-- A rule that is disabled finds nothing. -/
theorem found_of_disabled (d : Document) (h : s.enabled = false) : r.found s d = [] := by
  rw [found, h]
  rfl

/-- Under both settings a rule is run in the same way, if it is run. -/
structure SameRun (r : Rule) (s s' : RuleSettings) : Prop where
  enabled : s'.enabled = s.enabled
  severity : s'.severity = s.severity
  limit : s.enabled = true → r.limit? s'.parameters = r.limit? s.parameters

/-- Rules that are run in the same way find the same. -/
theorem SameRun.found_eq (h : r.SameRun s s') (d : Document) : r.found s' d = r.found s d := by
  rw [found, found, h.enabled, h.severity]
  split
  next henabled => rw [limitOf, limitOf, h.limit henabled]
  next => rfl

theorem SameRun.accepts (h : r.SameRun s s') (henabled : s.enabled = true)
    (haccepts : r.Accepts s.parameters) : r.Accepts s'.parameters :=
  (limit?_eq_ok_iff.1 ((h.limit henabled).trans (limit?_eq_ok_iff.2 ⟨haccepts, rfl⟩))).1

/-- No two rules have one code. -/
theorem code_injective : Function.Injective code := fun r r' h ↦
  Option.some.inj <| (ofCode?_code r).symm.trans <| (congrArg ofCode? h).trans (ofCode?_code r')

theorem mem_all (r : Rule) : r ∈ all := by
  cases r <;> decide

end Rule

namespace Config

variable {c c' : Config} {d : Document} {ds : List Diagnostic} {r : Rule}

/-- What a configuration says about a rule; if it says nothing, that is nothing out of the
ordinary. -/
def settingsOf (c : Config) (r : Rule) : RuleSettings := (c.rules.find? r.code).getD {}

theorem isEnabled_eq (c : Config) (r : Rule) : c.isEnabled r = (c.settingsOf r).enabled := by
  rw [isEnabled, settingsOf]
  cases c.rules.find? r.code <;> rfl

theorem severityOf_eq (c : Config) (r : Rule) :
    c.severityOf r = (c.settingsOf r).severity.getD r.info.severity := by
  rw [severityOf, settingsOf]
  cases c.rules.find? r.code <;> rfl

theorem parametersOf_eq (c : Config) (r : Rule) :
    c.parametersOf r = (c.settingsOf r).parameters := by
  rw [parametersOf, settingsOf]
  cases c.rules.find? r.code <;> rfl

/-- A rule can be run just if it accepts its parameters. -/
theorem rankedPass?_eq_ok_iff {p : RankedPass Unit} : c.rankedPass? r = .ok p ↔
    r.Accepts (c.settingsOf r).parameters ∧ r.ranked (c.settingsOf r) = p := by
  rw [rankedPass?, parametersOf_eq, severityOf_eq, Rule.ranked]
  cases hlimit : r.limit? (c.settingsOf r).parameters with
  | ok limit =>
    obtain ⟨haccepts, rfl⟩ := Rule.limit?_eq_ok_iff.1 hlimit
    simp [haccepts]
  | error cause =>
    have hno : ¬r.Accepts (c.settingsOf r).parameters := fun h ↦
      nomatch hlimit.symm.trans (Rule.limit?_eq_ok_iff.2 ⟨h, rfl⟩)
    simp [hno]

/-- Every rule that is run is given a size. -/
def IsUsable (c : Config) : Prop :=
  ∀ r : Rule, (c.settingsOf r).enabled = true → r.Accepts (c.settingsOf r).parameters

/-- **A configuration can be run just if all of its rules can**, and the runner has those that are
enabled. -/
theorem runner?_eq_ok_iff {runner : Runner Unit} : c.runner? = .ok runner ↔
    c.IsUsable ∧ (Rule.all.filter c.isEnabled).map (fun r ↦ r.ranked (c.settingsOf r)) =
      runner.passes := by
  -- The runner is made in one go of all passes; what remains is about one rule at a time.
  have hmap : c.runner? = .ok runner ↔
      (Rule.all.filter c.isEnabled).mapM c.rankedPass? = .ok runner.passes := by
    rw [runner?]
    cases (Rule.all.filter c.isEnabled).mapM c.rankedPass? with
    | error e => exact ⟨nofun, nofun⟩
    | ok passes =>
      constructor
      · intro h
        obtain rfl : ⟨passes⟩ = runner := Except.ok.inj h
        rfl
      · intro h
        obtain rfl : passes = runner.passes := Except.ok.inj h
        rfl
  rw [hmap, mapM_eq_ok_iff]
  simp only [rankedPass?_eq_ok_iff, List.forall₂_and_left]
  rw [← List.forall₂_map_left_iff (R := Eq), List.forall₂_eq_eq_eq]
  refine and_congr_left' ⟨fun h r hr ↦ ?_, fun h r hr ↦ ?_⟩
  · exact h r (List.mem_filter.2 ⟨r.mem_all, (c.isEnabled_eq r).trans hr⟩)
  · exact h r ((c.isEnabled_eq r).symm.trans (List.mem_filter.1 hr).2)

/-- What is found by all rules, in the order of places. -/
def report (c : Config) (d : Document) : List Diagnostic :=
  Diagnostic.sorted (Rule.all.flatMap fun r ↦ r.found (c.settingsOf r) d)

/-- **What is found in a document is what each rule finds, in the order of places.** -/
theorem diagnostics?_eq_ok_iff :
    c.diagnostics? d = .ok ds ↔ c.IsUsable ∧ c.report d = ds := by
  have hrun {runner : Runner Unit} (h : (Rule.all.filter c.isEnabled).map
      (fun r ↦ r.ranked (c.settingsOf r)) = runner.passes) : runner.run d = c.report d := by
    have hkinds : ∀ p ∈ runner.passes, p.pass.kinds.Nodup := by
      rw [← h]
      exact List.forall_mem_map.2 fun r _ ↦ r.nodup_kinds _
    -- A rule that is off is left out of the runner, and `found` gives nothing for it.
    have hfound (rs : List Rule) : (rs.filter c.isEnabled).flatMap (fun r ↦
        (((r.ranked (c.settingsOf r)).pass.course d).findings).map (·.toDiagnostic
          (r.ranked (c.settingsOf r)).pass.code (r.ranked (c.settingsOf r)).severity)) =
        rs.flatMap fun r ↦ r.found (c.settingsOf r) d := by
      induction rs with
      | nil => rfl
      | cons r rs ih =>
        rw [List.filter_cons, isEnabled_eq, List.flatMap_cons, ← ih, Rule.found]
        split
        next => rw [List.flatMap_cons, Rule.ranked, Rule.code_pass]
        next => rfl
    rw [Diagnostic.isStableSort_iff.1 (Runner.isStableSort_run d hkinds), ← h, List.flatMap_map,
      hfound, report]
  simp only [diagnostics?, bind_eq_ok_iff, pure_eq_ok_iff, runner?_eq_ok_iff]
  constructor
  · rintro ⟨runner, ⟨husable, hpasses⟩, rfl⟩
    exact ⟨husable, (hrun hpasses).symm⟩
  · rintro ⟨husable, rfl⟩
    exact ⟨⟨_⟩, ⟨husable, rfl⟩, hrun rfl⟩

/-- A configuration cannot be used if and only if a rule that is run is given no size. -/
theorem exists_error_iff : (∃ e, c.runner? = .error e) ↔
    ∃ r, c.isEnabled r = true ∧ ∃ p, r.parameter? = some p ∧
      ∃ v, (c.parametersOf r).find? p.name = some v ∧ v.IsNoSize := by
  have husable : (∃ e, c.runner? = .error e) ↔ ¬c.IsUsable := by
    constructor
    · rintro ⟨e, he⟩ h
      have hok : c.runner? = .ok ⟨_⟩ := runner?_eq_ok_iff.2 ⟨h, rfl⟩
      exact nomatch he.symm.trans hok
    · intro h
      cases hrunner : c.runner? with
      | ok runner => exact absurd (runner?_eq_ok_iff.1 hrunner).1 h
      | error e => exact ⟨e, rfl⟩
  simp [husable, IsUsable, Rule.Accepts, isEnabled_eq, parametersOf_eq]

/-! ### Changes -/

/-- A configuration that says something else about a rule, or about a code that no rule has. -/
def withSettings (c : Config) (code : String) (s : RuleSettings) : Config :=
  { c with rules := c.rules.insert code s }

/-- A configuration that says nothing about a rule, or about a code that no rule has. -/
def without (c : Config) (code : String) : Config := { c with rules := c.rules.erase code }

/-- What is said about one rule is said about no other. -/
theorem settingsOf_withSettings (c : Config) (r : Rule) (s : RuleSettings) (r' : Rule) :
    (c.withSettings r.code s).settingsOf r' = if r' = r then s else c.settingsOf r' := by
  rw [settingsOf, withSettings, KeyMap.find?_insert, if_congr Rule.code_injective.eq_iff rfl rfl,
    settingsOf]
  split <;> rfl

/-- What is said about a code that no rule has is said about no rule. -/
theorem settingsOf_of_unknown {code : String} (h : Rule.ofCode? code = none) (r : Rule) :
    (∀ s, (c.withSettings code s).settingsOf r = c.settingsOf r) ∧
      (c.without code).settingsOf r = c.settingsOf r := by
  have hne : r.code ≠ code := by
    rintro rfl
    exact nomatch (Rule.ofCode?_code r).symm.trans h
  refine ⟨fun s ↦ ?_, ?_⟩
  · rw [settingsOf, withSettings, KeyMap.find?_insert, if_neg hne, settingsOf]
  · rw [settingsOf, without, KeyMap.find?_erase, if_neg hne, settingsOf]

/-- If every rule is run in the same way, the same is found. -/
theorem diagnostics?_of_sameRun (hsame : ∀ r : Rule, r.SameRun (c.settingsOf r) (c'.settingsOf r))
    (h : c.diagnostics? d = .ok ds) : c'.diagnostics? d = .ok ds := by
  obtain ⟨husable, rfl⟩ := diagnostics?_eq_ok_iff.1 h
  refine diagnostics?_eq_ok_iff.2 ⟨fun r hr ↦ ?_, ?_⟩
  · rw [(hsame r).enabled] at hr
    exact (hsame r).accepts hr (husable r hr)
  · simp only [report, (hsame _).found_eq]

/-- A configuration stays usable if the rule accepts what it is given. -/
theorem isUsable_withSettings {s : RuleSettings} (h : c.IsUsable)
    (haccepts : s.enabled = true → r.Accepts s.parameters) :
    (c.withSettings r.code s).IsUsable := by
  intro r'
  rw [settingsOf_withSettings]
  split
  next hr =>
    subst hr
    exact haccepts
  next => exact h r'

/-- What the other rules find. -/
theorem filter_report (c : Config) (d : Document) (r : Rule) :
    (c.report d).filter (·.code ≠ r.code) = Diagnostic.sorted
      (Rule.all.flatMap fun r' ↦ if r' = r then [] else r'.found (c.settingsOf r') d) := by
  rw [report, Diagnostic.filter_sorted, List.filter_flatMap]
  congr 2
  funext r'
  split
  next hr =>
    subst hr
    exact List.filter_eq_nil_iff.2 fun x hx ↦ by simp [Rule.code_of_mem_found hx]
  next hr =>
    refine List.filter_eq_self.2 fun x hx ↦ ?_
    simpa [Rule.code_of_mem_found hx] using fun hcode ↦ hr (Rule.code_injective hcode)

/-- What one rule finds is replaced, and stands where it stood. -/
theorem report_withSettings (c : Config) (d : Document) (r : Rule) (s : RuleSettings) :
    (c.withSettings r.code s).report d = Diagnostic.sorted (Rule.all.flatMap fun r' ↦
      if r' = r then r.found s d else r'.found (c.settingsOf r') d) := by
  simp only [report, settingsOf_withSettings]
  congr 2
  funext r'
  split
  next hr => rw [hr]
  next => rfl

/-- A rule that is disabled takes what it finds away. -/
theorem report_of_disabled {s : RuleSettings} (h : s.enabled = false) :
    (c.withSettings r.code s).report d = (c.report d).filter (·.code ≠ r.code) := by
  rw [report_withSettings, filter_report, Rule.found_of_disabled d h]

/-- The other rules find what they found. -/
theorem filter_report_withSettings (s : RuleSettings) :
    ((c.withSettings r.code s).report d).filter (·.code ≠ r.code) =
      (c.report d).filter (·.code ≠ r.code) := by
  rw [filter_report, filter_report]
  congr 2
  funext r'
  split
  next => rfl
  next hr => rw [settingsOf_withSettings, if_neg hr]

/-- What a rule finds is as serious as is said. -/
theorem report_withSeverity (severity : Option Severity) :
    (c.withSettings r.code { c.settingsOf r with severity }).report d =
      (c.report d).map fun x ↦
        if x.code = r.code then { x with severity := severity.getD r.info.severity } else x := by
  rw [report_withSettings, report, Diagnostic.map_sorted fun x ↦ by split <;> rfl, List.map_flatMap]
  congr 2
  funext r'
  split
  next hr =>
    subst hr
    rw [Rule.found, Rule.found]
    split
    · rw [List.map_map]
      exact List.map_congr_left fun x _ ↦ (if_pos rfl).symm
    · rfl
  next hr =>
    symm
    exact (List.map_congr_left fun x hx ↦ if_neg fun hcode ↦ hr <| Rule.code_injective <|
      (Rule.code_of_mem_found hx).symm.trans hcode).trans (List.map_id _)

/-- A change of parameters that the rule does not look at. -/
theorem sameRun_withParameters {parameters : Parameters}
    (h : (c.settingsOf r).enabled = true →
      r.limit? parameters = r.limit? (c.settingsOf r).parameters) (r' : Rule) :
    r'.SameRun (c.settingsOf r')
      ((c.withSettings r.code { c.settingsOf r with parameters }).settingsOf r') := by
  rw [settingsOf_withSettings]
  split
  next hr =>
    subst hr
    exact ⟨rfl, rfl, h⟩
  next => exact ⟨rfl, rfl, fun _ ↦ rfl⟩

/-- **What is said about one rule does not matter for the others.** If a rule is disabled, its
diagnostics go and the others stay as they are. Another severity of the rule changes the severity of
its diagnostics and nothing else. Other parameters that it accepts, whatever it finds with them,
leave the diagnostics of the others, and their order. Nothing changes with what is said about codes
that no rule has, about parameters that the rule does not have, and about those of a rule that is
disabled; and a configuration cannot be used exactly if a rule that is not disabled has something
else than a size for its parameter. -/
theorem settings_are_independent (c : Config) (d : Document) (ds : List Diagnostic)
    (h : c.diagnostics? d = .ok ds) (r : Rule) :
    (∀ s : RuleSettings, s.enabled = false →
      (c.withSettings r.code s).diagnostics? d = .ok (ds.filter (·.code ≠ r.code))) ∧
    (∀ severity, (c.withSettings r.code { c.settingsOf r with severity }).diagnostics? d =
      .ok (ds.map fun x ↦
        if x.code = r.code then { x with severity := severity.getD r.info.severity } else x)) ∧
    (∀ parameters, r.Accepts parameters → ∃ ds',
      (c.withSettings r.code { c.settingsOf r with parameters }).diagnostics? d = .ok ds' ∧
        ds'.filter (·.code ≠ r.code) = ds.filter (·.code ≠ r.code)) ∧
    (∀ code, Rule.ofCode? code = none →
      (∀ s, (c.withSettings code s).diagnostics? d = .ok ds) ∧
        (c.without code).diagnostics? d = .ok ds) ∧
    (∀ name, (∀ p ∈ r.info.parameters, p.name ≠ name) →
      (∀ value, (c.withSettings r.code { c.settingsOf r with
        parameters := (c.settingsOf r).parameters.insert name value }).diagnostics? d = .ok ds) ∧
      (c.withSettings r.code { c.settingsOf r with
        parameters := (c.settingsOf r).parameters.erase name }).diagnostics? d = .ok ds) ∧
    ((c.settingsOf r).enabled = false → ∀ parameters,
      (c.withSettings r.code { c.settingsOf r with parameters }).diagnostics? d = .ok ds) ∧
    ∀ c' : Config, (∃ e, c'.runner? = .error e) ↔
      ∃ r : Rule, c'.isEnabled r = true ∧ ∃ p, r.parameter? = some p ∧
        ∃ v, (c'.parametersOf r).find? p.name = some v ∧ v.IsNoSize := by
  obtain ⟨husable, rfl⟩ := diagnostics?_eq_ok_iff.1 h
  refine ⟨fun s hs ↦ ?_, fun severity ↦ ?_, fun parameters hparameters ↦ ?_, fun code hcode ↦ ?_,
    fun name hname ↦ ?_, fun hdisabled parameters ↦ ?_, fun c' ↦ exists_error_iff⟩
  · have haccepts : s.enabled = true → r.Accepts s.parameters := fun henabled ↦
      nomatch hs.symm.trans henabled
    exact diagnostics?_eq_ok_iff.2 ⟨isUsable_withSettings husable haccepts, report_of_disabled hs⟩
  · exact diagnostics?_eq_ok_iff.2 ⟨isUsable_withSettings husable (husable r),
      report_withSeverity severity⟩
  · exact ⟨_, diagnostics?_eq_ok_iff.2 ⟨isUsable_withSettings husable fun _ ↦ hparameters, rfl⟩,
      filter_report_withSettings _⟩
  · -- No rule has the code, so no rule sees a difference.
    have hsame (c' : Config) (hc' : ∀ r, c'.settingsOf r = c.settingsOf r) :
        c'.diagnostics? d = .ok (c.report d) :=
      diagnostics?_of_sameRun (fun r ↦ by rw [hc' r]; exact ⟨rfl, rfl, fun _ ↦ rfl⟩) h
    exact ⟨fun s ↦ hsame _ fun r ↦ (settingsOf_of_unknown hcode r).1 s,
      hsame _ fun r ↦ (settingsOf_of_unknown hcode r).2⟩
  · -- The parameter that the rule reads has another name.
    have hne (p : RuleParameter) (hp : r.parameter? = some p) : p.name ≠ name := by
      refine hname p ?_
      rw [r.parameters_info, hp]
      exact List.mem_singleton_self p
    exact ⟨fun value ↦ diagnostics?_of_sameRun (sameRun_withParameters fun _ ↦
        Rule.limit?_congr fun p hp ↦ by rw [KeyMap.find?_insert, if_neg (hne p hp)]) h,
      diagnostics?_of_sameRun (sameRun_withParameters fun _ ↦
        Rule.limit?_congr fun p hp ↦ by rw [KeyMap.find?_erase, if_neg (hne p hp)]) h⟩
  · -- A rule that is off does not read its parameters.
    exact diagnostics?_of_sameRun (sameRun_withParameters fun henabled ↦
      nomatch hdisabled.symm.trans henabled) h

/-- Without the rule that finds it, the comparison of a text with itself is not found. -/
theorem comparison_is_not_found_if_disabled :
    ∃ (d : Document) (ds : List Diagnostic), d = .ofText "Х=А=А" ∧
      Config.standard.diagnostics? d = .ok ds ∧
      ds.map (·.code) = [Rule.identicalExpressions.code] ∧
      (Config.standard.withSettings Rule.identicalExpressions.code
        { enabled := false }).diagnostics? d = .ok [] := by
  obtain ⟨d, hd⟩ : ∃ d, d = Document.ofText "Х=А=А" := ⟨_, rfl⟩
  -- The run is computed once; what is without the rule follows from it.
  have hcodes : (Config.standard.diagnostics? d).toOption.map (·.map (·.code)) =
      some [Rule.identicalExpressions.code] := by
    rw [hd, Document.ofText_eq_evaluated]
    decide +kernel
  cases h : Config.standard.diagnostics? d with
  | error e =>
    rw [h] at hcodes
    exact nomatch hcodes
  | ok ds =>
    rw [h] at hcodes
    have hds : ds.map (·.code) = [Rule.identicalExpressions.code] := Option.some.inj hcodes
    refine ⟨d, ds, hd, h, hds, ?_⟩
    rw [(settings_are_independent Config.standard d ds h .identicalExpressions).1 _ rfl]
    congr 1
    refine List.filter_eq_nil_iff.2 fun x hx ↦ ?_
    have hcode := List.mem_map_of_mem (f := (·.code)) hx
    rw [hds] at hcode
    simpa using List.mem_singleton.1 hcode

end Config
end BslLint
