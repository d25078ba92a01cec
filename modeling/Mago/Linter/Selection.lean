import Mago.Linter.External

/-!
# The rules that run on a file

Whatever the workers answer, the issues of a file are issues of rules that the settings select
for it, with the levels of the settings and within the file.
-/
namespace Mago.Linter
open Library Extension
open Storage (File FileId)
open Suppression (Level Annotation Issue text)

/-! ## Plans -/

section Plan

variable {κ : Type} (kinds : NodeKinds κ)

/-- The plan of the rules that are enabled. -/
def ActiveRulePlan.ofEnabled (rules : List (ExternalRule κ)) (enabled : ExternalRule κ → Bool) :
    ActiveRulePlan where
  indices := (rules.zipIdx.filter fun rule => enabled rule.1).map fun rule => .ofNat rule.2
  targets := fun kind => (rules.zipIdx.filter fun rule => enabled rule.1).any fun rule =>
    rule.1.targets.any fun target => kinds.index target == kind

theorem foldlM_buildStep_eq_ok_iff {rules : List (ExternalRule κ × ℕ)}
    {plan plan' : ActiveRulePlan} :
    rules.foldlM (ActiveRulePlan.buildStep kinds) plan = .ok plan' ↔
      (∀ rule ∈ rules, rule.2 < 2 ^ 16) ∧
      plan'.indices = plan.indices ++ rules.map (fun rule => UInt16.ofNat rule.2) ∧
      plan'.targets = fun kind => plan.targets kind || rules.any fun rule =>
        rule.1.targets.any fun target => kinds.index target == kind := by
  induction rules generalizing plan with
  | nil =>
    obtain ⟨indices, targets⟩ := plan
    obtain ⟨indices', targets'⟩ := plan'
    simp [pure, Except.pure, eq_comm]
  | cons rule rules ih =>
    rw [foldlM_cons_eq_ok_iff, List.forall_mem_cons]
    simp only [ih]
    constructor
    · intro h
      obtain ⟨_, hstep, hrules, hindices, htargets⟩ := h
      rw [ActiveRulePlan.buildStep] at hstep
      split_ifs at hstep with hlt
      cases hstep
      exact ⟨⟨hlt, hrules⟩, by simpa [ActiveRulePlan.push] using hindices,
        by simpa [ActiveRulePlan.push, Bool.or_assoc] using htargets⟩
    · intro h
      obtain ⟨⟨hlt, hrules⟩, hindices, htargets⟩ := h
      exact ⟨_, if_pos hlt, hrules, by simpa [ActiveRulePlan.push] using hindices,
        by simpa [ActiveRulePlan.push, Bool.or_assoc] using htargets⟩

/-- A plan has sixteen bits for the place of a rule. -/
theorem build_eq_ok_iff {rules : List (ExternalRule κ)} {enabled : ExternalRule κ → Bool}
    {plan : ActiveRulePlan} : ActiveRulePlan.build kinds rules enabled = .ok plan ↔
      (∀ (index : ℕ) (rule : ExternalRule κ), rules[index]? = some rule → enabled rule = true →
        index < 2 ^ 16) ∧ plan = .ofEnabled kinds rules enabled := by
  obtain ⟨indices, targets⟩ := plan
  rw [ActiveRulePlan.build, foldlM_buildStep_eq_ok_iff]
  refine and_congr ?_ ?_
  · simp only [List.mem_filter, Prod.forall, List.mem_zipIdx_iff_getElem?, and_imp]
    exact forall_comm
  · simp [ActiveRulePlan.ofEnabled, ActiveRulePlan.empty]

theorem build_indices {rules : List (ExternalRule κ)} {enabled : ExternalRule κ → Bool}
    {plan : ActiveRulePlan} (h : ActiveRulePlan.build kinds rules enabled = .ok plan)
    (index : UInt16) : index ∈ plan.indices ↔
      ∃ rule, rules[index.toNat]? = some rule ∧ enabled rule = true := by
  obtain ⟨hlt, rfl⟩ := (build_eq_ok_iff kinds).mp h
  rw [ActiveRulePlan.ofEnabled, List.mem_map]
  constructor
  · intro hindex
    obtain ⟨⟨rule, i⟩, hrule, rfl⟩ := hindex
    rw [List.mem_filter, List.mem_zipIdx_iff_getElem?] at hrule
    refine ⟨rule, ?_, hrule.2⟩
    rw [UInt16.toNat_ofNat_of_lt' (hlt i rule hrule.1 hrule.2)]
    exact hrule.1
  · intro hindex
    obtain ⟨rule, hrule, henabled⟩ := hindex
    refine ⟨(rule, index.toNat), ?_, UInt16.ofNat_toNat⟩
    rw [List.mem_filter, List.mem_zipIdx_iff_getElem?]
    exact ⟨hrule, henabled⟩

theorem build_ne_panicked (rules : List (ExternalRule κ)) (enabled : ExternalRule κ → Bool) :
    ActiveRulePlan.build kinds rules enabled ≠ .error .panicked := by
  refine foldlM_ne_error fun plan rule _ h => ?_
  rw [ActiveRulePlan.buildStep] at h
  split_ifs at h
  cases h

theorem foldlM_withoutStep {rules : List (ExternalRule κ)} {excluded indices : List UInt16}
    (hindices : ∀ index ∈ indices, index.toNat < rules.length) (plan : ActiveRulePlan) :
    ∃ plan', indices.foldlM (ActiveRulePlan.withoutStep kinds rules excluded) plan = .ok plan' ∧
      plan'.indices = plan.indices ++ indices.filter fun index => decide (index ∉ excluded) := by
  induction indices generalizing plan with
  | nil => exact ⟨plan, rfl, (List.append_nil _).symm⟩
  | cons index indices ih =>
    rw [List.forall_mem_cons] at hindices
    by_cases hexcluded : index ∈ excluded
    · obtain ⟨plan', hplan', hlists⟩ := ih hindices.2 plan
      refine ⟨plan', foldlM_cons_eq_ok_iff.mpr ⟨plan, if_pos hexcluded, hplan'⟩, ?_⟩
      rw [hlists, List.filter_cons_of_neg (by simpa using hexcluded)]
    · obtain ⟨rule, hrule⟩ : ∃ rule, rules[index.toNat]? = some rule :=
        ⟨_, List.getElem?_eq_getElem hindices.1⟩
      obtain ⟨plan', hplan', hlists⟩ := ih hindices.2 (plan.push kinds index rule)
      refine ⟨plan', foldlM_cons_eq_ok_iff.mpr ⟨_, ?_, hplan'⟩, ?_⟩
      · rw [ActiveRulePlan.withoutStep, if_neg hexcluded, hrule]
      · rw [hlists, List.filter_cons_of_pos (by simpa using hexcluded), ActiveRulePlan.push,
          List.append_assoc, List.singleton_append]

/-- A plan of rules that are there loses exactly the excluded ones. -/
theorem without_indices {rules : List (ExternalRule κ)} {excluded : List UInt16}
    {plan : ActiveRulePlan} (hplan : ∀ index ∈ plan.indices, index.toNat < rules.length) :
    ∃ plan', plan.without kinds rules excluded = .ok plan' ∧
      plan'.indices = plan.indices.filter fun index => decide (index ∉ excluded) :=
  foldlM_withoutStep kinds hplan .empty

end Plan

/-! ## What settings say of a rule -/

section Settings

variable {τ κ : Type} (compile : List Text → Option (Text → Bool))

/-- The level of a rule after some settings, each of which may change it. -/
def levelAfter (settings : List RulesSettings) (rule : ExternalRule κ) : Level :=
  settings.foldl
    (fun level settings => ((settings.lookup rule.code).bind ExternalRuleSettings.level).getD level)
    rule.defaultLevel

/-- Whether a rule runs; empty settings change nothing. -/
def enabledAfter (settings : List RulesSettings) (rule : ExternalRule κ) : Bool :=
  settings.foldl
    (fun enabled settings => if settings.isEmpty then enabled else enabledBy settings rule)
    rule.defaultEnabled

def excludedBy (settings : RulesSettings) (rule : ExternalRule κ) (fileName : Text) : Bool :=
  match settings.lookup rule.code with
  | none => false
  | some ruleSettings => !ruleSettings.exclude.isEmpty &&
      (compile ruleSettings.exclude).any fun matcher => matcher fileName

/-- Whether a rule is kept away from a file. -/
def excludedAfter (settings : List RulesSettings) (rule : ExternalRule κ) (fileName : Text) :
    Bool :=
  settings.foldl
    (fun excluded settings =>
      if settings.isEmpty then excluded else excludedBy compile settings rule fileName) false

/-- A backend that was configured by some settings. The place of a rule is known to the protocol
where it fits in 16 bits. -/
structure Backend.Follows (settings : List RulesSettings) (backend : Backend τ κ) : Prop where
  levels : backend.levels = backend.registration.rules.map (levelAfter settings)
  plan : ∀ index, index ∈ backend.defaultPlan.indices ↔
    ∃ rule, backend.registration.rules[index.toNat]? = some rule ∧ enabledAfter settings rule = true
  excludes : ∀ index fileName,
    (∃ matcher, (index, matcher) ∈ backend.excludes ∧ matcher fileName = true) ↔
      ∃ rule, backend.registration.rules[index.toNat]? = some rule ∧
        excludedAfter compile settings rule fileName = true

/-- Every backend of a linter follows the settings. -/
def ExternalLinter.Follows (settings : List RulesSettings) (linter : ExternalLinter τ κ) : Prop :=
  ∀ backend ∈ linter.backends, backend.Follows compile settings

/-! ## Configuration follows the settings -/

def levelGiven (settings : RulesSettings) (rule : ExternalRule κ) : Option Level :=
  (settings.lookup rule.code).bind ExternalRuleSettings.level

def exclusionGiven (settings : RulesSettings) (rule : ExternalRule κ × ℕ) :
    List (UInt16 × (Text → Bool)) :=
  match settings.lookup rule.1.code with
  | none => []
  | some ruleSettings =>
    if ruleSettings.exclude = [] then []
    else if rule.2 < 2 ^ 16 then
      (compile ruleSettings.exclude).toList.map fun matcher => (.ofNat rule.2, matcher)
    else []

theorem configureRule_snd (settings : RulesSettings)
    (acc : List Level × List (UInt16 × (Text → Bool))) (rule : ExternalRule κ × ℕ) :
    (configureRule compile settings acc rule).2 =
      acc.2 ++ exclusionGiven compile settings rule := by
  rw [configureRule, exclusionGiven]
  cases settings.lookup rule.1.code with
  | none => exact (List.append_nil _).symm
  | some ruleSettings =>
    dsimp only
    split_ifs with hexclude hlt
    · exact (List.append_nil _).symm
    · cases compile ruleSettings.exclude with
      | none => exact (List.append_nil _).symm
      | some matcher => rfl
    · exact (List.append_nil _).symm

theorem configureRule_fst (settings : RulesSettings)
    (acc : List Level × List (UInt16 × (Text → Bool))) (rule : ExternalRule κ × ℕ) :
    (configureRule compile settings acc rule).1 =
      match levelGiven settings rule.1 with
      | some level => acc.1.set rule.2 level
      | none => acc.1 := by
  rw [configureRule, levelGiven]
  cases settings.lookup rule.1.code with
  | none => rfl
  | some ruleSettings =>
    dsimp only
    split_ifs with hexclude hlt
    · rfl
    · cases compile ruleSettings.exclude with
      | none => rfl
      | some matcher => rfl
    · rfl

theorem foldl_configureRule_fst (settings : RulesSettings) (rules : List (ExternalRule κ))
    (before current : List Level) (excludes : List (UInt16 × (Text → Bool)))
    (hlength : current.length = rules.length) :
    ((rules.zipIdx before.length).foldl (configureRule compile settings)
      (before ++ current, excludes)).1 =
      before ++ List.zipWith (fun rule level => (levelGiven settings rule).getD level) rules
        current := by
  induction rules generalizing before current excludes with
  | nil =>
    rw [List.length_nil, List.length_eq_zero_iff] at hlength
    subst hlength
    rfl
  | cons rule rules ih =>
    cases current with
    | nil => cases hlength
    | cons level current =>
      have hfst := configureRule_fst compile settings (before ++ level :: current, excludes)
        (rule, before.length)
      have hset : (configureRule compile settings (before ++ level :: current, excludes)
          (rule, before.length)).1 =
            (before ++ [(levelGiven settings rule).getD level]) ++ current := by
        rw [hfst]
        cases levelGiven settings rule with
        | none => simp
        | some level' => simp
      have hrest := ih (before ++ [(levelGiven settings rule).getD level]) current
        (configureRule compile settings (before ++ level :: current, excludes)
          (rule, before.length)).2 (Nat.succ.inj hlength)
      rw [List.length_append, List.length_singleton, ← hset, Prod.mk.eta] at hrest
      rw [List.zipIdx_cons, List.foldl_cons, hrest, List.zipWith_cons_cons, List.append_assoc,
        List.singleton_append]

theorem levelAfter_concat (settings : List RulesSettings) (last : RulesSettings)
    (rule : ExternalRule κ) : levelAfter (settings ++ [last]) rule =
      (levelGiven last rule).getD (levelAfter settings rule) := by
  rw [levelAfter, List.foldl_append]
  rfl

theorem enabledAfter_concat (settings : List RulesSettings) {last : RulesSettings}
    (hlast : last ≠ []) (rule : ExternalRule κ) :
    enabledAfter (settings ++ [last]) rule = enabledBy last rule := by
  rw [enabledAfter, List.foldl_append, List.foldl_cons, List.foldl_nil, if_neg]
  rwa [List.isEmpty_iff]

theorem excludedAfter_concat (settings : List RulesSettings) {last : RulesSettings}
    (hlast : last ≠ []) (rule : ExternalRule κ) (fileName : Text) :
    excludedAfter compile (settings ++ [last]) rule fileName =
      excludedBy compile last rule fileName := by
  rw [excludedAfter, List.foldl_append, List.foldl_cons, List.foldl_nil, if_neg]
  rwa [List.isEmpty_iff]

theorem mem_exclusionGiven {settings : RulesSettings} {rule : ExternalRule κ × ℕ}
    {index : UInt16} {matcher : Text → Bool} :
    (index, matcher) ∈ exclusionGiven compile settings rule ↔
      ∃ ruleSettings, settings.lookup rule.1.code = some ruleSettings ∧
        ruleSettings.exclude ≠ [] ∧ rule.2 < 2 ^ 16 ∧
        compile ruleSettings.exclude = some matcher ∧ index = .ofNat rule.2 := by
  rw [exclusionGiven]
  cases settings.lookup rule.1.code with
  | none => simp
  | some ruleSettings =>
    dsimp only
    split_ifs with hexclude hlt
    · simp [hexclude]
    · simp only [List.mem_map, Option.mem_toList, Prod.mk.injEq, Option.some.injEq,
        exists_eq_left', hexclude, hlt, ne_eq, not_false_eq_true, true_and]
      constructor
      · intro h
        obtain ⟨_, hmatcher, rfl, rfl⟩ := h
        exact ⟨hmatcher, rfl⟩
      · intro h
        exact ⟨_, h.1, h.2.symm, rfl⟩
    · refine iff_of_false nofun fun h => ?_
      obtain ⟨_, _, _, hlt', _⟩ := h
      exact hlt hlt'

theorem excludedBy_iff {settings : RulesSettings} {rule : ExternalRule κ} {fileName : Text} :
    excludedBy compile settings rule fileName = true ↔
      ∃ ruleSettings matcher, settings.lookup rule.code = some ruleSettings ∧
        ruleSettings.exclude ≠ [] ∧ compile ruleSettings.exclude = some matcher ∧
        matcher fileName = true := by
  rw [excludedBy]
  cases settings.lookup rule.code with
  | none => simp
  | some ruleSettings =>
    cases hmatcher : compile ruleSettings.exclude with
    | none => simp [hmatcher]
    | some matcher => simp [hmatcher]

/-- The exclusions of a backend are those of its rules. -/
theorem exclusions_iff (settings : RulesSettings) (rules : List (ExternalRule κ))
    (index : UInt16) (fileName : Text) :
    (∃ matcher, (index, matcher) ∈ rules.zipIdx.flatMap (exclusionGiven compile settings) ∧
      matcher fileName = true) ↔
      ∃ rule, rules[index.toNat]? = some rule ∧
        excludedBy compile settings rule fileName = true := by
  simp only [List.mem_flatMap, mem_exclusionGiven, excludedBy_iff]
  constructor
  · intro h
    obtain ⟨matcher, ⟨⟨rule, i⟩, hrule, ruleSettings, hlookup, hexclude, hlt, hmatcher, rfl⟩,
      hmatches⟩ := h
    refine ⟨rule, ?_, ruleSettings, matcher, hlookup, hexclude, hmatcher, hmatches⟩
    rw [UInt16.toNat_ofNat_of_lt' hlt]
    exact List.mem_zipIdx_iff_getElem?.mp hrule
  · intro h
    obtain ⟨rule, hrule, ruleSettings, matcher, hlookup, hexclude, hmatcher, hmatches⟩ := h
    exact ⟨matcher, ⟨(rule, index.toNat), List.mem_zipIdx_iff_getElem?.mpr hrule, ruleSettings,
      hlookup, hexclude, index.toNat_lt, hmatcher, UInt16.ofNat_toNat.symm⟩, hmatches⟩

variable {compile} (kinds : NodeKinds κ)

/-- Settings that say something are followed from then on. -/
theorem Backend.Follows.configure {settings : List RulesSettings} {last : RulesSettings}
    {backend backend' : Backend τ κ} (h : backend.Follows compile settings) (hlast : last ≠ [])
    (hconfigure : configureBackend kinds compile last backend = .ok backend') :
    backend'.Follows compile (settings ++ [last]) ∧
      backend'.registration = backend.registration := by
  rw [configureBackend] at hconfigure
  cases hplan : ActiveRulePlan.build kinds backend.registration.rules (enabledBy last) with
  | error error =>
    rw [hplan] at hconfigure
    cases hconfigure
  | ok plan =>
    rw [hplan] at hconfigure
    cases hconfigure
    refine ⟨⟨?_, ?_, ?_⟩, rfl⟩
    · have hfold := foldl_configureRule_fst compile last backend.registration.rules []
        backend.levels [] (by rw [h.levels, List.length_map])
      refine hfold.trans ?_
      rw [h.levels, List.zipWith_map_right, List.zipWith_self, List.nil_append]
      exact List.map_congr_left fun rule _ => (levelAfter_concat settings last rule).symm
    · intro index
      rw [build_indices kinds hplan]
      simp only [enabledAfter_concat settings hlast]
    · intro index fileName
      simp only [excludedAfter_concat compile settings hlast]
      rw [← exclusions_iff]
      have hexcludes : (backend.registration.rules.zipIdx.foldl (configureRule compile last)
          (backend.levels, [])).2 =
            [] ++ backend.registration.rules.zipIdx.flatMap (exclusionGiven compile last) :=
        seen_foldl (configureRule_snd compile last)
      rw [hexcludes, List.nil_append]

theorem levelAfter_empty (settings : List RulesSettings) (rule : ExternalRule κ) :
    levelAfter (settings ++ [[]]) rule = levelAfter settings rule :=
  levelAfter_concat settings [] rule

theorem Backend.Follows.skip {settings : List RulesSettings} {backend : Backend τ κ}
    (h : backend.Follows compile settings) : backend.Follows compile (settings ++ [[]]) where
  levels := h.levels.trans (List.map_congr_left fun rule _ => (levelAfter_empty settings rule).symm)
  plan index := by
    rw [h.plan]
    simp only [enabledAfter, List.foldl_append, List.foldl_cons, List.foldl_nil, List.isEmpty_nil,
      if_true]
  excludes index fileName := by
    rw [h.excludes]
    simp only [excludedAfter, List.foldl_append, List.foldl_cons, List.foldl_nil, List.isEmpty_nil,
      if_true]

theorem ExternalLinter.Follows.configure {settings : List RulesSettings} {last : RulesSettings}
    {linter linter' : ExternalLinter τ κ} (h : linter.Follows compile settings)
    (hconfigure : Linter.configure kinds compile linter last = .ok linter') :
    linter'.Follows compile (settings ++ [last]) ∧ ∀ backend' ∈ linter'.backends,
      ∃ backend ∈ linter.backends, backend'.registration = backend.registration := by
  rw [Linter.configure] at hconfigure
  split_ifs at hconfigure with hlast
  · cases hconfigure
    subst hlast
    exact ⟨fun backend hbackend => (h backend hbackend).skip,
      fun backend hbackend => ⟨backend, hbackend, rfl⟩⟩
  · simp only [bind_eq_ok_iff, mapM_eq_ok_iff] at hconfigure
    obtain ⟨backends, hbackends, hlinter⟩ := hconfigure
    cases hlinter
    constructor
    · intro backend' hbackend'
      obtain ⟨backend, hbackend, hok⟩ := exists_of_forall₂ hbackends hbackend'
      exact ((h backend hbackend).configure kinds hlast hok).1
    · intro backend' hbackend'
      obtain ⟨backend, hbackend, hok⟩ := exists_of_forall₂ hbackends hbackend'
      exact ⟨backend, hbackend, ((h backend hbackend).configure kinds hlast hok).2⟩

/-- A linter follows all settings that it was given, one after the other. -/
theorem ExternalLinter.Follows.configure_all {settings : List RulesSettings}
    {linter linter' : ExternalLinter τ κ} (h : linter.Follows compile [])
    (hconfigure : settings.foldlM (Linter.configure kinds compile) linter = .ok linter') :
    linter'.Follows compile settings ∧ ∀ backend' ∈ linter'.backends,
      ∃ backend ∈ linter.backends, backend'.registration = backend.registration := by
  refine foldlM_invariant (P := fun done linter' => linter'.Follows compile done ∧
    ∀ backend' ∈ linter'.backends, ∃ backend ∈ linter.backends,
      backend'.registration = backend.registration)
    ⟨h, fun backend hbackend => ⟨backend, hbackend, rfl⟩⟩ ?_ hconfigure
  intro done last linter' linter'' hdone hstep
  obtain ⟨hfollows, hkept⟩ := hdone.1.configure kinds hstep
  refine ⟨hfollows, fun backend'' hbackend'' => ?_⟩
  obtain ⟨backend', hbackend', hregistration'⟩ := hkept backend'' hbackend''
  obtain ⟨backend, hbackend, hregistration⟩ := hdone.2 backend' hbackend'
  exact ⟨backend, hbackend, hregistration'.trans hregistration⟩

end Settings

/-! ## Initialization -/

section Initialize

variable {τ κ : Type} [DecidableEq κ] (kinds : NodeKinds κ)

theorem insertAll_eq_ok_iff {α : Type} {key : α → Text} {duplicate : α → ExternalLintError}
    {seen seen' : List Text} {values : List α} :
    insertAll key duplicate seen values = .ok seen' ↔
      Fresh seen (values.map key) ∧ seen' = seen ++ values.map key := by
  induction values generalizing seen with
  | nil =>
    rw [insertAll, List.foldlM_nil, List.map_nil, List.append_nil]
    constructor
    · intro h
      cases h
      exact ⟨⟨List.nodup_nil, List.disjoint_nil_right _⟩, rfl⟩
    · intro h
      rw [h.2]
      rfl
  | cons value values ih =>
    have hfresh : Fresh seen ([key value] ++ values.map key) ↔ _ := fresh_append
    rw [List.singleton_append] at hfresh
    rw [insertAll, foldlM_cons_eq_ok_iff, List.map_cons, hfresh, fresh_singleton,
      ← List.contains_iff_mem]
    constructor
    · intro h
      obtain ⟨_, hvalue, hvalues⟩ := h
      split_ifs at hvalue with hseen
      cases hvalue
      obtain ⟨hfresh, rfl⟩ := ih.mp hvalues
      exact ⟨⟨hseen, hfresh⟩, List.append_assoc ..⟩
    · intro h
      obtain ⟨⟨hseen, hfresh⟩, rfl⟩ := h
      exact ⟨_, if_neg hseen, ih.mpr ⟨hfresh, List.append_cons ..⟩⟩

/-- The registration of a pool is that of each of its workers. -/
theorem agreedRegistration_eq_ok_iff {responses : List Buffer} {registration : Registration κ} :
    agreedRegistration kinds responses = .ok registration ↔ responses ≠ [] ∧
      ∀ response ∈ responses, decodeRegistration kinds response = .ok registration := by
  cases responses with
  | nil => exact iff_of_false nofun fun h => h.1 rfl
  | cons first others =>
    rw [agreedRegistration, bind_eq_ok_iff, List.forall_mem_cons]
    have hothers (registration' : Registration κ) :
        others.foldlM (fun registration response => do
          let other ← decodeRegistration kinds response
          if other ≠ registration then .error .inconsistentRegistration else .ok registration)
            registration' = .ok registration ↔
          registration' = registration ∧
            ∀ response ∈ others, decodeRegistration kinds response = .ok registration := by
      induction others with
      | nil => simp [pure, Except.pure]
      | cons response others ih =>
        rw [foldlM_cons_eq_ok_iff, List.forall_mem_cons]
        simp only [bind_eq_ok_iff]
        constructor
        · intro h
          obtain ⟨_, ⟨other, hresponse, hother⟩, hrest⟩ := h
          split_ifs at hother with hne
          cases hother
          rw [not_not] at hne
          subst hne
          obtain ⟨rfl, hothers⟩ := ih.mp hrest
          exact ⟨rfl, hresponse, hothers⟩
        · intro h
          obtain ⟨rfl, hresponse, hothers⟩ := h
          exact ⟨registration', ⟨registration', hresponse, if_neg (not_not.mpr rfl)⟩,
            ih.mpr ⟨rfl, hothers⟩⟩
    simp only [hothers]
    constructor
    · intro h
      obtain ⟨_, hfirst, rfl, hothers⟩ := h
      exact ⟨nofun, hfirst, hothers⟩
    · intro h
      exact ⟨registration, h.2.1, rfl, h.2.2⟩

def Backend.codes (backend : Backend τ κ) : List Text :=
  backend.registration.rules.map ExternalRule.code

def Backend.identifiers (backend : Backend τ κ) : List Text :=
  backend.registration.extensions.map fun extension => toAsciiLowercase extension.identifier

/-- A backend as its pool has registered it. -/
structure Registered (broadcast : τ → Except WorkerError (List Buffer)) (source : τ)
    (backend : Backend τ κ) : Prop where
  transport : backend.transport = source
  agreed : ∃ responses, broadcast source = .ok responses ∧ responses ≠ [] ∧
    ∀ response ∈ responses, decodeRegistration kinds response = .ok backend.registration
  excludes : backend.excludes = []
  levels : backend.levels = backend.registration.rules.map ExternalRule.defaultLevel
  indexed : ∀ (index : ℕ) (rule : ExternalRule κ),
    backend.registration.rules[index]? = some rule → rule.defaultEnabled = true → index < 2 ^ 16
  plan : backend.defaultPlan =
    .ofEnabled kinds backend.registration.rules ExternalRule.defaultEnabled

def Initializing.extend (acc : Initializing τ κ) (backends : List (Backend τ κ)) :
    Initializing τ κ where
  backends := acc.backends ++ backends
  extensions := acc.extensions ++ backends.flatMap fun backend => backend.registration.extensions
  extensionIdentifiers := acc.extensionIdentifiers ++ backends.flatMap Backend.identifiers
  ruleCodes := acc.ruleCodes ++ backends.flatMap Backend.codes

omit [DecidableEq κ] in
theorem Initializing.extend_nil (acc : Initializing τ κ) : acc.extend [] = acc := by
  simp [extend]

omit [DecidableEq κ] in
theorem Initializing.extend_cons (acc : Initializing τ κ) (backend : Backend τ κ)
    (backends : List (Backend τ κ)) :
    acc.extend (backend :: backends) = (acc.extend [backend]).extend backends := by
  simp [extend]

theorem initializeBackend_eq_ok_iff {broadcast : τ → Except WorkerError (List Buffer)}
    {acc acc' : Initializing τ κ} {transport : τ} :
    initializeBackend kinds broadcast acc transport = .ok acc' ↔
      ∃ backend, Registered kinds broadcast transport backend ∧
        Fresh acc.extensionIdentifiers backend.identifiers ∧ Fresh acc.ruleCodes backend.codes ∧
        acc' = acc.extend [backend] := by
  simp only [initializeBackend, bind_eq_ok_iff, mapError_eq_ok_iff, insertAll_eq_ok_iff,
    agreedRegistration_eq_ok_iff, build_eq_ok_iff]
  constructor
  · intro h
    obtain ⟨responses, hbroadcast, registration, hagreed, identifiers, ⟨hidentifiers, rfl⟩, codes,
      ⟨hcodes, rfl⟩, plan, hplan, hacc⟩ := h
    cases hacc
    refine ⟨⟨transport, registration, plan, registration.rules.map ExternalRule.defaultLevel, []⟩,
      ⟨rfl, ⟨responses, hbroadcast, hagreed⟩, rfl, rfl, hplan.1, hplan.2⟩, hidentifiers, hcodes, ?_⟩
    simp [Initializing.extend, Backend.identifiers, Backend.codes]
  · intro h
    obtain ⟨⟨transport', registration, plan, levels, excludes⟩,
      ⟨htransport, ⟨responses, hbroadcast, hagreed⟩, hexcludes, hlevels, hindexed, hplan⟩,
      hidentifiers, hcodes, rfl⟩ := h
    dsimp only at htransport hagreed hexcludes hlevels hplan
    subst htransport hexcludes hlevels
    refine ⟨responses, hbroadcast, registration, hagreed, _, ⟨hidentifiers, rfl⟩, _,
      ⟨hcodes, rfl⟩, plan, ⟨hindexed, hplan⟩, ?_⟩
    simp [Initializing.extend, Backend.identifiers, Backend.codes, pure, Except.pure]

theorem foldlM_initializeBackend_eq_ok_iff {broadcast : τ → Except WorkerError (List Buffer)}
    {acc acc' : Initializing τ κ} {transports : List τ} :
    transports.foldlM (initializeBackend kinds broadcast) acc = .ok acc' ↔
      ∃ backends, List.Forall₂ (Registered kinds broadcast) transports backends ∧
        Fresh acc.extensionIdentifiers (backends.flatMap Backend.identifiers) ∧
        Fresh acc.ruleCodes (backends.flatMap Backend.codes) ∧ acc' = acc.extend backends := by
  induction transports generalizing acc with
  | nil =>
    simp only [List.forall₂_nil_left_iff, exists_eq_left, List.flatMap_nil,
      Initializing.extend_nil]
    constructor
    · intro h
      cases h
      exact ⟨⟨List.nodup_nil, List.disjoint_nil_right _⟩,
        ⟨List.nodup_nil, List.disjoint_nil_right _⟩, rfl⟩
    · intro h
      rw [h.2.2]
      rfl
  | cons transport transports ih =>
    rw [foldlM_cons_eq_ok_iff]
    simp only [initializeBackend_eq_ok_iff, ih]
    constructor
    · intro h
      obtain ⟨_, ⟨backend, hbackend, hidentifiers, hcodes, rfl⟩, backends, hbackends,
        hidentifiers', hcodes', rfl⟩ := h
      simp only [Initializing.extend, List.flatMap_singleton] at hidentifiers' hcodes'
      exact ⟨backend :: backends, .cons hbackend hbackends,
        fresh_append.mpr ⟨hidentifiers, hidentifiers'⟩, fresh_append.mpr ⟨hcodes, hcodes'⟩,
        (acc.extend_cons backend backends).symm⟩
    · intro h
      obtain ⟨_, hall, hidentifiers, hcodes, rfl⟩ := h
      cases hall with
      | cons hbackend hbackends =>
        rename_i backend backends
        rw [List.flatMap_cons, fresh_append] at hidentifiers hcodes
        refine ⟨_, ⟨backend, hbackend, hidentifiers.1, hcodes.1, rfl⟩, backends, hbackends, ?_, ?_,
          acc.extend_cons backend backends⟩
        · simpa only [Initializing.extend, List.flatMap_singleton] using hidentifiers.2
        · simpa only [Initializing.extend, List.flatMap_singleton] using hcodes.2

/-- Pools are accepted exactly where the workers of each agree on what they register, no rule that
is enabled by default has a place of more than sixteen bits in its pool, no two extensions of all
pools have identifiers that are equal up to the case of letters, and no two rules, native ones
included, share a code. -/
theorem initializeTransports_eq_ok_iff {pool : LinterTransport τ} {nativeCodes : List Text}
    {versionId : ℕ} {kindNames : List Text} {transports : List τ} {linter : ExternalLinter τ κ} :
    initializeTransports kinds pool nativeCodes versionId kindNames transports = .ok linter ↔
      List.Forall₂ (Registered kinds fun transport =>
          pool.broadcast transport (encodeDescribeRequest versionId kindNames))
        transports linter.backends ∧
      linter.extensions =
        linter.backends.flatMap (fun backend => backend.registration.extensions) ∧
      (linter.backends.flatMap Backend.identifiers).Nodup ∧
      (linter.backends.flatMap Backend.codes).Nodup ∧
      nativeCodes.Disjoint (linter.backends.flatMap Backend.codes) := by
  simp only [initializeTransports, bind_eq_ok_iff, foldlM_initializeBackend_eq_ok_iff,
    fresh_nil_left]
  constructor
  · intro h
    obtain ⟨_, ⟨backends, hbackends, hidentifiers, hcodes, rfl⟩, hlinter⟩ := h
    cases hlinter
    exact ⟨hbackends, rfl, hidentifiers, hcodes⟩
  · intro h
    obtain ⟨hbackends, hextensions, hidentifiers, hcodes⟩ := h
    refine ⟨_, ⟨linter.backends, hbackends, hidentifiers, hcodes, rfl⟩, congrArg Except.ok ?_⟩
    rw [Initializing.extend, List.nil_append, List.nil_append, ← hextensions]

variable {kinds} (compile : List Text → Option (Text → Bool))

theorem Registered.follows {broadcast : τ → Except WorkerError (List Buffer)} {source : τ}
    {backend : Backend τ κ} (h : Registered kinds broadcast source backend) :
    backend.Follows compile [] where
  levels := h.levels
  plan := build_indices kinds ((build_eq_ok_iff kinds).mpr ⟨h.indexed, h.plan⟩)
  excludes index fileName := by
    rw [h.excludes]
    refine iff_of_false nofun fun hexcluded => ?_
    obtain ⟨_, _, hexcluded⟩ := hexcluded
    cases hexcluded

theorem initialized_follows {pool : LinterTransport τ} {nativeCodes : List Text} {versionId : ℕ}
    {kindNames : List Text} {transports : List τ} {linter : ExternalLinter τ κ}
    (h : initializeTransports kinds pool nativeCodes versionId kindNames transports =
      .ok linter) : linter.Follows compile [] := by
  simp only [initializeTransports, bind_eq_ok_iff, foldlM_initializeBackend_eq_ok_iff] at h
  obtain ⟨_, ⟨backends, hbackends, _, _, rfl⟩, hlinter⟩ := h
  cases hlinter
  intro backend hbackend
  obtain ⟨_, _, hregistered⟩ := exists_of_forall₂ hbackends hbackend
  exact hregistered.follows compile

end Initialize

/-! ## Linting -/

section Lint

variable {τ κ ι π : Type} {kinds : NodeKinds κ} {compile : List Text → Option (Text → Bool)}
variable {settings : List RulesSettings} {backend : Backend τ κ}

/-- Whether a rule is asked for by its code, or enabled where no codes are asked for. -/
def Selected (settings : List RulesSettings) (only : Option (List Text)) (rule : ExternalRule κ) :
    Prop :=
  match only with
  | none => enabledAfter settings rule = true
  | some codes => rule.code ∈ codes

/-- Whether a rule runs on a file. A name that is not UTF-8 is never excluded. -/
structure Runs (compile : List Text → Option (Text → Bool)) (settings : List RulesSettings)
    (only : Option (List Text)) (file : File π) (rule : ExternalRule κ) : Prop where
  selected : Selected settings only rule
  kept : ∀ fileName, fromUtf8 file.name = some fileName →
    excludedAfter compile settings rule fileName = false

theorem Backend.Follows.mem_selectedPlan (h : backend.Follows compile settings)
    {only : Option (List Text)} {plan : ActiveRulePlan}
    (hplan : backend.selectedPlan kinds only = .ok plan) (index : UInt16) :
    index ∈ plan.indices ↔ ∃ rule, backend.registration.rules[index.toNat]? = some rule ∧
      Selected settings only rule := by
  cases only with
  | none =>
    cases hplan
    exact h.plan index
  | some codes =>
    rw [Backend.selectedPlan] at hplan
    rw [build_indices kinds hplan]
    simp [Selected]

theorem Backend.Follows.mem_excludedRules (h : backend.Follows compile settings)
    {plan : ActiveRulePlan} {index : UInt16} (hindex : index ∈ plan.indices) (file : File π) :
    index ∈ backend.excludedRules plan file ↔ ∃ fileName, fromUtf8 file.name = some fileName ∧
      ∃ rule, backend.registration.rules[index.toNat]? = some rule ∧
        excludedAfter compile settings rule fileName = true := by
  rw [Backend.excludedRules]
  simp only [← h.excludes]
  split_ifs with hempty
  · simp [List.isEmpty_iff.mp hempty]
  · cases fromUtf8 file.name with
    | none => simp
    | some fileName => simp [hindex]

theorem Backend.Follows.lt_of_mem_selectedPlan (h : backend.Follows compile settings)
    {only : Option (List Text)} {plan : ActiveRulePlan}
    (hplan : backend.selectedPlan kinds only = .ok plan) :
    ∀ index ∈ plan.indices, index.toNat < backend.registration.rules.length := by
  intro index hindex
  obtain ⟨rule, hrule, _⟩ := (h.mem_selectedPlan hplan index).mp hindex
  exact (List.getElem?_eq_some_iff.mp hrule).1

/-- The plan for a file lists the rules that run on it. -/
theorem Backend.Follows.mem_planFor (h : backend.Follows compile settings) {file : File π}
    {only : Option (List Text)} {plan : ActiveRulePlan}
    (hplan : backend.planFor kinds file only = .ok plan) (index : UInt16) :
    index ∈ plan.indices ↔ ∃ rule, backend.registration.rules[index.toNat]? = some rule ∧
      Runs compile settings only file rule := by
  simp only [Backend.planFor, bind_eq_ok_iff] at hplan
  obtain ⟨selected, hselected, hplan⟩ := hplan
  have hkept : index ∈ plan.indices ↔
      index ∈ selected.indices ∧ index ∉ backend.excludedRules selected file := by
    split_ifs at hplan with hnone
    · cases hplan
      simp [hnone]
    · obtain ⟨plan', hplan', hindices⟩ :=
        without_indices kinds (h.lt_of_mem_selectedPlan hselected)
      rw [hplan] at hplan'
      cases hplan'
      simp [hindices]
  rw [hkept]
  constructor
  · intro hindex
    obtain ⟨rule, hrule, hrun⟩ := (h.mem_selectedPlan hselected index).mp hindex.1
    refine ⟨rule, hrule, hrun, fun fileName hname => ?_⟩
    rw [← Bool.not_eq_true]
    intro hexcluded
    exact hindex.2 ((h.mem_excludedRules hindex.1 file).mpr
      ⟨fileName, hname, rule, hrule, hexcluded⟩)
  · intro hrule
    obtain ⟨rule, hrule, hrun⟩ := hrule
    have hindex := (h.mem_selectedPlan hselected index).mpr ⟨rule, hrule, hrun.selected⟩
    refine ⟨hindex, fun hexcluded => ?_⟩
    obtain ⟨fileName, hname, rule', hrule', hexcluded⟩ :=
      (h.mem_excludedRules hindex file).mp hexcluded
    rw [hrule] at hrule'
    cases hrule'
    rw [hrun.kept fileName hname] at hexcluded
    cases hexcluded

theorem Backend.Follows.planFor_ne_panicked (h : backend.Follows compile settings) (file : File π)
    (only : Option (List Text)) : backend.planFor kinds file only ≠ .error .panicked := by
  refine bind_ne_error ?_ fun selected hselected => ?_
  · cases only with
    | none => exact nofun
    | some codes =>
      rw [Backend.selectedPlan]
      exact build_ne_panicked kinds _ _
  · dsimp only
    split_ifs with hnone
    · exact nofun
    · have hwithout : ∃ plan', selected.without kinds backend.registration.rules
          (backend.excludedRules selected file) = .ok plan' ∧ _ :=
        without_indices kinds (h.lt_of_mem_selectedPlan hselected)
      obtain ⟨plan', hplan', _⟩ := hwithout
      rw [hplan']
      exact nofun

theorem payloadErrorOf_ne_panicked (error : PayloadError) : payloadErrorOf error ≠ .panicked := by
  cases error with
  | lengthOverflow length => exact protocol_ne_panicked _

theorem encodeLintRequest_ne_panicked (file : File π) (program : Program ι)
    (resolvedNames : List ResolvedName) (activeRules : List UInt16) (targetKinds : UInt8 → Bool) :
    encodeLintRequest file program resolvedNames activeRules targetKinds ≠ .error .panicked := by
  rw [encodeLintRequest]
  by_cases hlarge : file.contents.length > u32Max
  · rw [if_pos hlarge]
    intro h
    cases h
  · rw [if_neg hlarge]
    refine bind_ne_error (mapError_ne_error payloadErrorOf_ne_panicked) fun snapshot _ => ?_
    cases snapshot with
    | none =>
      intro h
      cases h
    | some snapshot =>
      refine bind_ne_error (mapError_ne_error payloadErrorOf_ne_panicked) fun writer _ => ?_
      by_cases hmany : activeRules.length ≥ 2 ^ 16
      · rw [if_pos hmany]
        intro h
        cases h
      · rw [if_neg hmany]
        refine bind_ne_error (mapError_ne_error payloadErrorOf_ne_panicked) fun writer _ => ?_
        intro h
        cases h

variable (hash : Bytes → FileId)

/-- An issue that a rule of a backend may have in a file. -/
def Reports (compile : List Text → Option (Text → Bool)) (settings : List RulesSettings)
    (only : Option (List Text)) (file : File π) (registration : Registration κ) (issue : Issue) :
    Prop :=
  ∃ rule ∈ registration.rules, ∃ reported : ReportedIssue, Runs compile settings only file rule ∧
    reported.Admissible file ∧
      issue = reported.toIssue hash file rule.code (levelAfter settings rule)

/-- What a pool adds to the issues are issues of its rules. -/
theorem Backend.Follows.lintBackend (h : backend.Follows compile settings)
    {request : τ → Bytes → Except WorkerError Buffer} {file : File π} {program : Program ι}
    {resolvedNames : List ResolvedName} {only : Option (List Text)} {issues issues' : List Issue}
    (hlint : Linter.lintBackend kinds hash request file program resolvedNames only issues backend =
      .ok issues') : ∀ issue ∈ issues', issue ∈ issues ∨
        Reports hash compile settings only file backend.registration issue := by
  simp only [Linter.lintBackend, bind_eq_ok_iff] at hlint
  obtain ⟨plan, hplan, hlint⟩ := hlint
  intro issue hissue
  split_ifs at hlint with hnone
  · cases hlint
    exact .inl hissue
  · simp only [bind_eq_ok_iff] at hlint
    obtain ⟨payload, _, hlint⟩ := hlint
    cases payload with
    | none =>
      cases hlint
      exact .inl hissue
    | some payload =>
      simp only [bind_eq_ok_iff] at hlint
      obtain ⟨response, _, backendIssues, hresponse, hlint⟩ := hlint
      cases hlint
      rcases List.mem_append.mp hissue with hissue | hissue
      · exact .inl hissue
      · right
        obtain ⟨reported, hactive, hadmissible, rule, level, hrule, hlevel, rfl⟩ :=
          explained_of_decode hash file hresponse issue hissue
        obtain ⟨rule', hrule', hruns⟩ := (h.mem_planFor hplan reported.ruleIndex).mp hactive
        rw [hrule] at hrule'
        cases hrule'
        rw [h.levels, List.getElem?_map, hrule] at hlevel
        cases hlevel
        exact ⟨rule, List.mem_of_getElem? hrule, reported, hruns, hadmissible, rfl⟩

theorem Backend.Follows.lintBackend_ne_panicked (h : backend.Follows compile settings)
    (request : τ → Bytes → Except WorkerError Buffer) (file : File π) (program : Program ι)
    (resolvedNames : List ResolvedName) (only : Option (List Text)) (issues : List Issue) :
    Linter.lintBackend kinds hash request file program resolvedNames only issues backend ≠
      .error .panicked := by
  rw [Linter.lintBackend]
  refine bind_ne_error (h.planFor_ne_panicked file only) fun plan _ => ?_
  split_ifs with hnone
  · intro hpanic
    cases hpanic
  · refine bind_ne_error (encodeLintRequest_ne_panicked _ _ _ _ _) fun payload _ => ?_
    cases payload with
    | none =>
      intro hpanic
      cases hpanic
    | some payload =>
      refine bind_ne_error (mapError_ne_error fun _ => nofun) fun response _ => ?_
      have hlevels : backend.levels.length = backend.registration.rules.length := by
        rw [h.levels, List.length_map]
      refine bind_ne_error (decodeLintResponse_ne_panicked hash file hlevels _) fun _ _ => ?_
      intro hpanic
      cases hpanic

/-- What the pools report of a file are issues of their rules. -/
theorem ExternalLinter.Follows.lint {linter : ExternalLinter τ κ}
    (h : linter.Follows compile settings) {request : τ → Bytes → Except WorkerError Buffer}
    {file : File π} {program : Program ι} {resolvedNames : List ResolvedName}
    {only : Option (List Text)} {issues : List Issue}
    (hlint : Linter.lint kinds hash request linter file program resolvedNames only = .ok issues) :
    ∀ issue ∈ issues, ∃ backend ∈ linter.backends,
      Reports hash compile settings only file backend.registration issue := by
  refine foldlM_invariant (P := fun done issues => (∀ backend ∈ done, backend ∈ linter.backends) →
    ∀ issue ∈ issues, ∃ backend ∈ linter.backends,
      Reports hash compile settings only file backend.registration issue)
    (fun _ _ hissue => by cases hissue) ?_ hlint fun _ hbackend => hbackend
  intro done backend issues issues' hdone hstep hmem issue hissue
  have hbackend : backend ∈ linter.backends :=
    hmem backend (List.mem_append_right _ List.mem_cons_self)
  rcases (h backend hbackend).lintBackend hash hstep issue hissue with hissue | hreports
  · exact hdone (fun backend hbackend => hmem backend (List.mem_append_left _ hbackend)) issue
      hissue
  · exact ⟨backend, hbackend, hreports⟩

/-- Whatever the pools answer, a linter that was set up never panics, and all it reports of a file
are issues that a rule which runs on the file may have in it, with the level of the settings. -/
theorem lint_sound [DecidableEq κ] {pool : LinterTransport τ} {nativeCodes : List Text}
    {versionId : ℕ} {kindNames : List Text} {transports : List τ}
    {registered configured : ExternalLinter τ κ}
    (hregistered : initializeTransports kinds pool nativeCodes versionId kindNames transports =
      .ok registered)
    (hconfigured : settings.foldlM (configure kinds compile) registered = .ok configured)
    (request : τ → Bytes → Except WorkerError Buffer) (file : File π) (program : Program ι)
    (resolvedNames : List ResolvedName) (only : Option (List Text)) :
    lint kinds hash request configured file program resolvedNames only ≠ .error .panicked ∧
      ∀ issues, lint kinds hash request configured file program resolvedNames only = .ok issues →
        ∀ issue ∈ issues, ∃ backend ∈ registered.backends,
          Reports hash compile settings only file backend.registration issue := by
  obtain ⟨hfollows, hkept⟩ := (initialized_follows compile hregistered).configure_all kinds
    hconfigured
  constructor
  · exact foldlM_ne_error fun issues backend hbackend =>
      (hfollows backend hbackend).lintBackend_ne_panicked hash request file program resolvedNames
        only issues
  · intro issues hlint issue hissue
    obtain ⟨backend, hbackend, hreports⟩ := hfollows.lint hash hlint issue hissue
    obtain ⟨backend', hbackend', hregistration⟩ := hkept backend hbackend
    rw [hregistration] at hreports
    exact ⟨backend', hbackend', hreports⟩

def oneKind : NodeKinds Unit where
  name _ := ['n']
  parse t := if t = ['n'] then some () else none
  parse_eq_some_iff {t kind} := by simp
  index _ := 0

def oneRule : ExternalRule Unit := ⟨['c'], ['c'], ['c'], .warning, true, [()]⟩

def oneRegistration : Registration Unit := ⟨[⟨['x'], ['x'], ['x'], [oneRule]⟩], [oneRule], false⟩

def oneAnswer : Buffer :=
  ⟨[0x4D, 0x4C, 0x4E, 0x54, 0, 1, 0, 0, 0x80, 1, 0, 0, 0, 0, 0, 1,
    0, 0, 0, 1, 120, 0, 0, 0, 1, 120, 0, 0, 0, 1, 120, 0, 0, 0, 0, 1,
    0, 0, 0, 1, 99, 0, 0, 0, 1, 99, 0, 0, 0, 1, 99, 3, 1, 0, 0, 0, 1, 0, 0, 0, 1, 110], by decide⟩

/-- One issue of the rule, on the first byte of the file. -/
def oneIssue : Buffer :=
  ⟨[0x4D, 0x4C, 0x4E, 0x54, 0, 1, 0, 0, 0x80, 2, 0, 0, 0, 0, 0, 1,
    0, 0, 0, 0, 0, 1, 109, 0, 0, 0, 0, 0, 0, 0, 0, 0, 1, 1, 0, 0, 0, 0, 0, 0, 0, 1, 0,
    0, 0, 0, 0], by decide⟩

/-- One worker with one extension of one rule. -/
def onePool : LinterTransport Unit := ⟨fun _ _ => .ok [oneAnswer], fun _ _ => .ok oneIssue⟩

def oneFile : File Unit := ⟨[97], .host, none, [98]⟩

def oneProgram : Program Unit := ⟨.node ⟨(), 0, 0, 1, none⟩ [], []⟩

def oneLinter (level : Level) : ExternalLinter Unit Unit :=
  ⟨[⟨(), oneRegistration, ActiveRulePlan.empty.push oneKind 0 oneRule, [level], []⟩],
    oneRegistration.extensions⟩

theorem decodeRegistration_oneAnswer :
    decodeRegistration oneKind oneAnswer = .ok oneRegistration := by
  have hdecode : (decodeRegistration oneKind oneAnswer).toOption = some oneRegistration := by
    decide +kernel
  cases hresult : decodeRegistration oneKind oneAnswer with
  | error error =>
    rw [hresult] at hdecode
    cases hdecode
  | ok registration =>
    rw [hresult] at hdecode
    cases hdecode
    rfl

theorem initializeTransports_onePool :
    initializeTransports oneKind onePool [] 0 [['n']] [()] = .ok (oneLinter .warning) := by
  simp only [initializeTransports, bind_eq_ok_iff, foldlM_initializeBackend_eq_ok_iff]
  have hfresh (key : Text) : Fresh [] [key] := fresh_nil_left.mpr (List.nodup_singleton key)
  refine ⟨_, ⟨(oneLinter .warning).backends, .cons ⟨rfl, ⟨[oneAnswer], rfl, nofun, ?_⟩, rfl, rfl,
    ?_, ?_⟩ .nil, hfresh ['x'], hfresh ['c'], rfl⟩, rfl⟩
  · intro response hresponse
    rw [List.mem_singleton.mp hresponse]
    exact decodeRegistration_oneAnswer
  · intro index rule hrule _
    have hlt : index < 1 := (List.getElem?_eq_some_iff.mp hrule).1
    omega
  · simp [ActiveRulePlan.push, ActiveRulePlan.ofEnabled, ActiveRulePlan.empty, oneRegistration,
      oneRule]

theorem oneIssue_reported : ∃ issue,
    lint oneKind (fun _ => 0) onePool.request (oneLinter .error) oneFile oneProgram [] none =
      .ok [issue] := by
  have hlength : ((lint oneKind (fun _ => 0) onePool.request (oneLinter .error) oneFile oneProgram
      [] none).toOption.map List.length) = some 1 := by decide +kernel
  cases hresult : lint oneKind (fun _ => 0) onePool.request (oneLinter .error) oneFile oneProgram []
      none with
  | error error =>
    rw [hresult] at hlength
    cases hlength
  | ok issues =>
    rw [hresult] at hlength
    obtain ⟨issue, rfl⟩ := List.length_eq_one_iff.mp (Option.some.inj hlength)
    exact ⟨issue, rfl⟩

theorem lint_sound_one_rule : ∃ issue,
    lint oneKind (fun _ => 0) onePool.request (oneLinter .error) oneFile oneProgram [] none =
        .ok [issue] ∧
      ∃ backend ∈ (oneLinter .warning).backends,
        Reports (fun _ => 0) (fun _ => none) [[(['c'], ⟨none, some .error, []⟩)]] none oneFile
          backend.registration issue := by
  have hconfigured : [[(['c'], ⟨none, some .error, []⟩)]].foldlM
      (configure oneKind fun _ => none) (oneLinter .warning) = .ok (oneLinter .error) := rfl
  obtain ⟨issue, hissue⟩ := oneIssue_reported
  exact ⟨issue, hissue, (lint_sound (fun _ => 0) initializeTransports_onePool hconfigured _ _ _ _
    _).2 [issue] hissue issue List.mem_cons_self⟩

end Lint

end Mago.Linter
