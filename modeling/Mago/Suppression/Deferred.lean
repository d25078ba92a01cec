import Mago.Suppression.Collector

/-!
# Deferred pragmas

The pragmas of a file outlive its collector while issues may still arrive: later batches are
reconciled with a new collector each. The issues that are kept already play no part in a report
and only move to the front, so the batches can be put together again.
-/
namespace Mago.Suppression
open Library Storage
open Reporting (Span)

/-- A pragma that owns its texts. -/
structure OwnedPragma where
  kind : PragmaKind
  span : Span
  triviaSpan : Span
  scopeSpan : Option Span
  startLine : ℕ
  endLine : ℕ
  ownLine : Bool
  category : Text
  code : Text
  codeSpan : Span
  countSpan : Option Span
  expectedMatches : UInt16
  matched : UInt16
  description : Text
  deriving DecidableEq, Repr

namespace OwnedPragma

def ofPragma (p : Pragma) : OwnedPragma where
  kind := p.kind
  span := p.span
  triviaSpan := p.triviaSpan
  scopeSpan := p.scopeSpan
  startLine := p.startLine
  endLine := p.endLine
  ownLine := p.ownLine
  category := p.category
  code := p.code
  codeSpan := p.codeSpan
  countSpan := p.countSpan
  expectedMatches := p.expectedMatches
  matched := p.matched
  description := p.description

def allocate (p : OwnedPragma) : Pragma where
  kind := p.kind
  span := p.span
  triviaSpan := p.triviaSpan
  scopeSpan := p.scopeSpan
  startLine := p.startLine
  endLine := p.endLine
  ownLine := p.ownLine
  category := p.category
  code := p.code
  codeSpan := p.codeSpan
  countSpan := p.countSpan
  expectedMatches := p.expectedMatches
  matched := p.matched
  description := p.description

@[simp] theorem allocate_ofPragma (p : Pragma) : (ofPragma p).allocate = p := rfl

end OwnedPragma

structure DeferredPragmas where
  fileId : FileId
  pragmas : List OwnedPragma
  disabledCodes : List Text
  activeCodes : Option (List Text)
  aliases : Text → Option Text
  linkTemplate : Option Text
  skipUnfulfilledExpect : Bool

variable {π : Type*} (debugAssertions : Bool) (hash : Storage.Bytes → FileId)

/-- Hands the issues over, with the state of the pragmas when there are any. -/
def Collector.defer (c : Collector π) : IssueCollection × Option DeferredPragmas :=
  if c.pragmas.isEmpty then (c.issues, none)
  else (c.issues, some {
    fileId := c.file.id hash
    pragmas := c.pragmas.map OwnedPragma.ofPragma
    disabledCodes := c.disabledCodes
    activeCodes := c.activeCodes
    aliases := c.aliases
    linkTemplate := c.linkTemplate
    skipUnfulfilledExpect := c.skipUnfulfilledExpect })

namespace DeferredPragmas

def intoCollector (s : DeferredPragmas) (file : File π) : Collector π where
  file := file
  pragmas := s.pragmas.map OwnedPragma.allocate
  issues := []
  recordings := []
  disabledCodes := s.disabledCodes
  activeCodes := s.activeCodes
  aliases := s.aliases
  linkTemplate := s.linkTemplate
  skipUnfulfilledExpect := s.skipUnfulfilledExpect

/-- Another file fails where debug assertions are on. -/
def reconcile (s : DeferredPragmas) (file : File π) (issues : IssueCollection) :
    Option ( IssueCollection × DeferredPragmas) :=
  if debugAssertions ∧ file.id hash ≠ s.fileId then none
  else
    let (issues, state) := ((s.intoCollector file).extend debugAssertions issues).defer hash
    some (issues, state.getD s)

def finish (s : DeferredPragmas) (file : File π) : Option IssueCollection :=
  if debugAssertions ∧ file.id hash ≠ s.fileId then none
  else (s.intoCollector file).finish hash

/-- The issues of the batches that are reconciled one after another, then those of the end. -/
def reconcileAll (file : File π) : DeferredPragmas → List IssueCollection → Option IssueCollection
  | s, [] => s.finish debugAssertions hash file
  | s, batch :: batches =>
    (s.reconcile debugAssertions hash file batch).bind fun reconciled =>
      (reconcileAll file reconciled.2 batches).map fun later => reconciled.1 ++ later

end DeferredPragmas

namespace Collector

/-- A collector for the pragmas of a file before any report. -/
def ofPragmas (file : File π) (pragmas : List Pragma) (disabledCodes : List Text)
    (activeCodes : Option (List Text)) (aliases : Text → Option Text)
    (linkTemplate : Option Text) (skipUnfulfilledExpect : Bool) : Collector π where
  file := file
  pragmas := pragmas
  issues := []
  recordings := []
  disabledCodes := disabledCodes
  activeCodes := activeCodes
  aliases := aliases
  linkTemplate := linkTemplate
  skipUnfulfilledExpect := skipUnfulfilledExpect

/-- The issues of a run that reports a first part directly, defers the pragmas and reconciles
the later batches. Without pragmas there is no state and nothing to reconcile with. -/
def runDeferred (c : Collector π) (first : List Issue) (batches : List (List Issue)) :
    Option IssueCollection :=
  let deferred := (c.extend debugAssertions first).defer hash
  deferred.2.bind fun s =>
    (s.reconcileAll debugAssertions hash c.file batches).map fun later => deferred.1 ++ later

/-! ## Issues that are kept already -/

/-- The collector with more issues in front of its own. -/
def prepend (before : List Issue) (c : Collector π) : Collector π :=
  { c with issues := before ++ c.issues }

variable {debugAssertions hash}

theorem forceReport_prepend (before : List Issue) (c : Collector π) (issue : Issue) :
    (c.prepend before).forceReport issue = (c.forceReport issue).prepend before := by
  unfold forceReport prepend
  cases c.recordings with
  | nil => simp [prepare]
  | cons recording outer => rfl

theorem absorb_prepend (before : List Issue) (c : Collector π) (kind : PragmaKind) (span : Span)
    (code : Text) : (c.prepend before).absorb kind span code =
      ((c.absorb kind span code).1, (c.absorb kind span code).2.prepend before) := by
  have hbest : (c.prepend before).findBestApplicablePragma span kind code =
      c.findBestApplicablePragma span kind code := rfl
  unfold absorb
  rw [hbest]
  cases c.findBestApplicablePragma span kind code with
  | none => rfl
  | some i => rfl

theorem suppress_prepend (before : List Issue) (c : Collector π) (span : Span) (code : Text) :
    (c.prepend before).suppress span code =
      ((c.suppress span code).1, (c.suppress span code).2.prepend before) := by
  unfold suppress isIgnored isExpected
  rw [absorb_prepend]
  cases c.absorb .ignore span code with
  | mk ignored c' =>
    cases ignored with
    | true => rfl
    | false => exact absorb_prepend before c' .expect span code

/-- A report does the same whichever issues were kept before. -/
theorem report_prepend (before : List Issue) (c : Collector π) (issue : Issue) :
    (c.prepend before).report debugAssertions issue =
      ((c.report debugAssertions issue).1,
        (c.report debugAssertions issue).2.prepend before) := by
  have hdisabled : (c.prepend before).disabledCodes = c.disabledCodes := rfl
  have hrecording : (c.prepend before).isRecording = c.isRecording := rfl
  unfold report
  cases issue.code with
  | none =>
    cases debugAssertions with
    | false => simp [forceReport_prepend]
    | true => simp [forceReport_prepend]
  | some code =>
    simp only [hdisabled, hrecording]
    cases c.disabledCodes.contains code with
    | true => rfl
    | false =>
      cases (issue.annotations.find? Annotation.isPrimary).map Annotation.span with
      | none => simp [forceReport_prepend]
      | some span =>
        cases c.isRecording with
        | true => simp [forceReport_prepend]
        | false =>
          simp only [suppress_prepend, Bool.false_eq_true, if_false]
          cases c.suppress span code with
          | mk suppressed c' =>
            cases suppressed with
            | true => rfl
            | false => simp only [forceReport_prepend]

theorem extend_prepend (before : List Issue) (c : Collector π) (issues : List Issue) :
    (c.prepend before).extend debugAssertions issues =
      (c.extend debugAssertions issues).prepend before := by
  induction issues generalizing c with
  | nil => rfl
  | cons issue issues ih =>
    simp only [extend, List.foldl_cons] at ih ⊢
    rw [report_prepend]
    exact ih _

theorem extend_append (c : Collector π) (issues later : List Issue) :
    c.extend debugAssertions (issues ++ later) =
      (c.extend debugAssertions issues).extend debugAssertions later := by
  simp only [extend, List.foldl_append]

/-- The issues of the pragmas are decided by the file and the pragmas. -/
theorem unfulfilled_prepend (before : List Issue) (c : Collector π) (pragmas : List Pragma)
    (handled : Handled) :
    (c.prepend before).unfulfilled hash pragmas handled = c.unfulfilled hash pragmas handled := by
  have hskipped (p : Pragma) : (c.prepend before).isPragmaSkipped p = c.isPragmaSkipped p := rfl
  have hremoval (p : Pragma) (h : Handled) :
      (c.prepend before).removal p h = c.removal p h := rfl
  have hid : (c.prepend before).file = c.file := rfl
  induction pragmas generalizing handled with
  | nil => rfl
  | cons p rest ih => simp only [unfulfilled, hskipped, hremoval, hid, ih]

theorem finish_prepend (before : List Issue) (c : Collector π) :
    (c.prepend before).finish hash = (c.finish hash).map fun issues => before ++ issues := by
  have hskip : (c.prepend before).skipUnfulfilledExpect = c.skipUnfulfilledExpect := rfl
  have hpragmas : (c.prepend before).pragmas = c.pragmas := rfl
  have hissues : (c.prepend before).issues = before ++ c.issues := rfl
  unfold finish
  rw [hskip, hpragmas, hissues, unfulfilled_prepend]
  cases c.skipUnfulfilledExpect with
  | true => rfl
  | false => cases c.unfulfilled hash c.pragmas ⟨[], []⟩ <;> simp

/-! ## Saving and restoring -/

/-- What a collector of a file needs for a round trip through its saved state. -/
structure Restorable (file : File π) (c : Collector π) : Prop where
  file_eq : c.file = file
  pragmas_ne : c.pragmas ≠ []
  recordings_eq : c.recordings = []

variable {file : File π}

theorem Restorable.forceReport {c : Collector π} (h : c.Restorable file) (issue : Issue) :
    (c.forceReport issue).Restorable file := by
  unfold Collector.forceReport
  rw [h.recordings_eq]
  exact ⟨h.file_eq, h.pragmas_ne, rfl⟩

theorem Restorable.absorb {c : Collector π} (h : c.Restorable file) (kind : PragmaKind) (span : Span)
    (code : Text) : (c.absorb kind span code).2.Restorable file := by
  unfold Collector.absorb
  cases c.findBestApplicablePragma span kind code with
  | none => exact h
  | some i =>
    refine ⟨h.file_eq, ?_, h.recordings_eq⟩
    have hlength : (c.pragmas.modify i Pragma.countMatch).length = c.pragmas.length :=
      List.length_modify ..
    exact List.ne_nil_of_length_pos (by rw [hlength]; exact List.length_pos_iff.mpr h.pragmas_ne)

theorem Restorable.suppress {c : Collector π} (h : c.Restorable file) (span : Span) (code : Text) :
    (c.suppress span code).2.Restorable file := by
  have hignored : (c.isIgnored span code).2.Restorable file := h.absorb .ignore span code
  unfold Collector.suppress
  cases hcase : c.isIgnored span code with
  | mk ignored c' =>
    rw [hcase] at hignored
    cases ignored with
    | true => exact hignored
    | false => exact hignored.absorb .expect span code

theorem Restorable.report {c : Collector π} (h : c.Restorable file) (issue : Issue) :
    (c.report debugAssertions issue).2.Restorable file := by
  unfold Collector.report
  cases issue.code with
  | none =>
    cases debugAssertions with
    | false => exact h.forceReport _
    | true => exact h.forceReport _
  | some code =>
    cases hdisabled : c.disabledCodes.contains code with
    | true => simpa only [hdisabled, if_true] using h
    | false =>
      simp only [hdisabled, Bool.false_eq_true, if_false]
      cases (issue.annotations.find? Annotation.isPrimary).map Annotation.span with
      | none => exact h.forceReport _
      | some span =>
        have hsuppress := h.suppress span code
        cases hcase : c.suppress span code with
        | mk suppressed c' =>
          rw [hcase] at hsuppress
          cases hrecording : c.isRecording with
          | true => simpa only [hrecording, if_true] using h.forceReport _
          | false =>
            simp only [hcase, Bool.false_eq_true, if_false]
            cases suppressed with
            | true => exact hsuppress
            | false => exact hsuppress.forceReport _

theorem Restorable.extend {c : Collector π} (h : c.Restorable file) (debugAssertions : Bool)
    (issues : List Issue) :
    (c.extend debugAssertions issues).Restorable file := by
  induction issues generalizing c with
  | nil => exact h
  | cons issue issues ih => exact ih (h.report issue)

/-- A deferred collector is restored from its state, without the issues it handed over. -/
theorem Restorable.defer {c : Collector π} (h : c.Restorable file)
    (hash : Storage.Bytes → FileId) :
    ∃ s, c.defer hash = (c.issues, some s) ∧ s.fileId = file.id hash ∧
      (s.intoCollector file).Restorable file ∧ (s.intoCollector file).prepend c.issues = c := by
  obtain ⟨hfile, hpragmas, hrecordings⟩ := h
  have hempty : c.pragmas.isEmpty = false := by simpa using hpragmas
  have hallocate : (c.pragmas.map OwnedPragma.ofPragma).map OwnedPragma.allocate = c.pragmas := by
    simp [Function.comp_def]
  subst hfile
  unfold Collector.defer
  rw [hempty]
  refine ⟨_, rfl, rfl, ⟨rfl, ?_, rfl⟩, ?_⟩
  · simpa [DeferredPragmas.intoCollector] using hpragmas
  · cases c
    simp only at hrecordings
    subst hrecordings
    simpa [DeferredPragmas.intoCollector, prepend] using hallocate

/-- Batches that are reconciled one after another give what one collector gives for all. -/
theorem reconcileAll_eq (debugAssertions : Bool) {s : DeferredPragmas} (hid : s.fileId = file.id hash)
    (h : (s.intoCollector file).Restorable file) (batches : List (List Issue)) :
    s.reconcileAll debugAssertions hash file batches =
      ((s.intoCollector file).extend debugAssertions batches.flatten).finish hash := by
  induction batches generalizing s with
  | nil => simp [DeferredPragmas.reconcileAll, DeferredPragmas.finish, hid, extend]
  | cons batch batches ih =>
    obtain ⟨s', hdefer, hid', h', hrestored⟩ :=
      (h.extend debugAssertions batch).defer hash
    have hreconcile : s.reconcile debugAssertions hash file batch =
        some (((s.intoCollector file).extend debugAssertions batch).issues, s') := by
      simp [DeferredPragmas.reconcile, hid, hdefer]
    rw [DeferredPragmas.reconcileAll, hreconcile, List.flatten_cons, extend_append, ← hrestored,
      extend_prepend, finish_prepend, ← ih hid' h', hrestored]
    rfl

/-- Deferring the pragmas changes no diagnostics: for any split into a first part and later
batches the run gives the issues of one collector that reports them all. -/
theorem runDeferred_eq_single (debugAssertions : Bool) (hash : Storage.Bytes → FileId)
    (file : File π) (pragmas : List Pragma) (hpragmas : pragmas ≠ [])
    (disabledCodes : List Text) (activeCodes : Option (List Text)) (aliases : Text → Option Text)
    (linkTemplate : Option Text) (skipUnfulfilledExpect : Bool) (first : List Issue)
    (batches : List (List Issue)) :
    let c := ofPragmas file pragmas disabledCodes activeCodes aliases linkTemplate
      skipUnfulfilledExpect
    c.runDeferred debugAssertions hash first batches =
      (c.extend debugAssertions (first ++ batches.flatten)).finish hash := by
  intro c
  have h : c.Restorable file := ⟨rfl, hpragmas, rfl⟩
  obtain ⟨s, hdefer, hid, hs, hrestored⟩ :=
    (h.extend debugAssertions first).defer hash
  have hlater := reconcileAll_eq debugAssertions hid hs batches
  have hfile : c.file = file := rfl
  unfold runDeferred
  rw [extend_append, ← hrestored, extend_prepend, finish_prepend, ← hlater, hrestored, hdefer,
    hfile]
  rfl

/-- The pragma of the first line of the file below. -/
def linePragma : Pragma where
  kind := .ignore
  span := ⟨1, 2, 21⟩
  triviaSpan := ⟨1, 0, 21⟩
  scopeSpan := none
  startLine := 0
  endLine := 0
  ownLine := true
  category := text "lint"
  code := text "a"
  codeSpan := ⟨1, 15, 21⟩
  countSpan := none
  expectedMatches := 1
  matched := 0
  description := []

/-- An issue in the second line. -/
def lineIssue : Issue :=
  ((Issue.new .error (text "b")).withCode (text "a")).annotate
    ( Annotation.primary ⟨1, 22, 24⟩)

/-- The pragma absorbs the issue of the first part and no longer that of the last batch. -/
theorem runDeferred_two_batches :
    let file : File ℕ := ⟨[], .host, none, Syntax.byteString "//@mago-ignore lint:a\n$a"⟩
    let c := ofPragmas file [linePragma] [] none (fun _ => none) none false
    (c.runDeferred false (fun _ => 1) [lineIssue] [[], [lineIssue]]).map List.length = some 1 ∧
      c.runDeferred false (fun _ => 1) [lineIssue] [[], [lineIssue]] =
        (c.extend false ([lineIssue] ++ [[], [lineIssue]].flatten)).finish fun _ => 1 :=
  ⟨by decide +kernel,
    runDeferred_eq_single false (fun _ => 1) _ [linePragma] (List.cons_ne_nil _ _) [] none _ none
      false [lineIssue] [[], [lineIssue]]⟩

end Collector

end Mago.Suppression
