import Mago.Printing.Trace

/-!
# Flat groups fit

For documents of strings, hard spaces, lines and groups, a look ahead that answers yes bounds
what is printed up to the next newline. A state keeps its promise when the look ahead over the
commands that are left answers yes; a turn that prints no newline keeps it.
-/
namespace Mago.Printing
open Library

namespace Document

mutual

/-- Built from newline free strings, hard spaces, lines, break parents, groups without
expanded states and their enclosing documents. -/
def isPlain : Document → Bool
  | string s => s.all fun c => !isLineTerminator c
  | space s => !s.soft
  | line _ => true
  | breakParent => true
  | array docs => allPlain docs
  | indent docs => allPlain docs
  | align _ contents => allPlain contents
  | group contents _ _ _ => allPlain contents
  | _ => false

def allPlain : List Document → Bool
  | [] => true
  | doc :: docs => isPlain doc && allPlain docs

end

mutual

theorem isPlain_propagateBreaks :
    ∀ doc : Document, doc.isPlain → doc.propagateBreaks.2.isPlain
  | string s, h => by simpa [propagateBreaks] using h
  | space s, h => by simpa [propagateBreaks] using h
  | line l, _ => by simp [propagateBreaks, isPlain]
  | breakParent, _ => by simp [propagateBreaks, isPlain]
  | array docs, h => by
    have hdocs := allPlain_propagateSliceBreaks docs (by simpa [isPlain] using h)
    simpa [propagateBreaks, isPlain] using hdocs
  | indent docs, h => by
    have hdocs := allPlain_propagateSliceBreaks docs (by simpa [isPlain] using h)
    simpa [propagateBreaks, isPlain] using hdocs
  | align _ docs, h => by
    have hdocs := allPlain_propagateSliceBreaks docs (by simpa [isPlain] using h)
    simpa [propagateBreaks, isPlain] using hdocs
  | group docs mode id propagated, h => by
    have hold : allPlain docs = true := by simpa [isPlain] using h
    have hdocs := allPlain_propagateSliceBreaks docs hold
    unfold propagateBreaks
    split
    · simpa [isPlain] using hold
    · split
      · simpa [isPlain] using hold
      · simpa [isPlain] using hdocs

theorem allPlain_propagateSliceBreaks :
    ∀ docs : List Document, allPlain docs → allPlain (propagateSliceBreaks docs).2
  | [], _ => by simp [propagateSliceBreaks, allPlain]
  | doc :: docs, h => by
    have hplain : doc.isPlain = true ∧ allPlain docs = true := by simpa [allPlain] using h
    have hdoc := isPlain_propagateBreaks doc hplain.1
    have hdocs := allPlain_propagateSliceBreaks docs hplain.2
    simp only [propagateSliceBreaks]
    split
    · simp [allPlain, hplain.1, hdocs]
    · simp [allPlain, hdoc, hdocs]

end

end Document

def Command.isPlain (c : Command) : Bool :=
  match c.document with
  | .document doc => doc.isPlain
  | .array docs => Document.allPlain docs

theorem docCommands_isPlain (indentation : Indentation) (mode : Mode) :
    ∀ docs : List Document, Document.allPlain docs = true →
      ∀ c ∈ docCommands indentation mode docs, c.isPlain = true
  | [], _, _, hc => by simp [docCommands] at hc
  | doc :: docs, h, c, hc => by
    have hplain : doc.isPlain = true ∧ Document.allPlain docs = true := by
      simpa [Document.allPlain] using h
    have hcases : c = ⟨indentation, mode, .document doc⟩ ∨
        c ∈ docCommands indentation mode docs := by simpa [docCommands] using hc
    rcases hcases with rfl | hmem
    · exact hplain.1
    · exact docCommands_isPlain indentation mode docs hplain.2 c hmem

/-! ## Look ahead answers -/

/-- What a look ahead answers when it goes on after a result. -/
def answer (result : Except Bool FitsState) (next : FitsState → Bool) : Bool :=
  match result with
  | .error answer => answer
  | .ok st => next st

/-- The second result says yes wherever the first one does. -/
def Admits (result result' : Except Bool FitsState) : Prop :=
  result = .error false ∨ result' = .error true ∨ result = result'

theorem Admits.refl (result : Except Bool FitsState) : Admits result result := .inr (.inr rfl)

theorem Admits.trans {first second third : Except Bool FitsState} (h : Admits first second)
    (h' : Admits second third) : Admits first third := by
  rcases h with h | h | rfl
  · exact .inl h
  · subst h
    rcases h' with h' | h' | rfl
    · cases h'
    · exact .inr (.inl h')
    · exact .inr (.inl rfl)
  · exact h'

theorem Admits.bind {result result' : Except Bool FitsState}
    {next next' : FitsState → Except Bool FitsState} (h : Admits result result')
    (hnext : ∀ st, Admits (next st) (next' st)) :
    Admits (result >>= next) (result' >>= next') := by
  rcases h with rfl | rfl | rfl
  · exact .inl rfl
  · exact .inr (.inl rfl)
  · cases result with
    | error _ => exact .refl _
    | ok st => exact hnext st

theorem Admits.answer {result result' : Except Bool FitsState} {next : FitsState → Bool}
    (h : Admits result result') (hyes : Printing.answer result next = true) :
    Printing.answer result' next = true := by
  rcases h with rfl | rfl | rfl
  · cases hyes
  · rfl
  · exact hyes

theorem FitsState.check_ok {st st' : FitsState} (h : st.check = .ok st') :
    st' = st ∧ 0 ≤ st.remainingWidth := by
  unfold FitsState.check at h
  split at h
  · cases h
  · cases h
    exact ⟨rfl, by omega⟩

namespace Printer

variable {unicodeWidth : Text → ℕ} {settings : FormatSettings}

mutual

/-- The look ahead over plain documents does not depend on the state. -/
theorem fitsDocument_congr (p q : Printer) (mode : Mode) :
    ∀ (doc : Document) (st : FitsState), doc.isPlain = true →
      p.fitsDocument unicodeWidth mode doc st = q.fitsDocument unicodeWidth mode doc st
  | .string _, _, _ => rfl
  | .space s, st, h => by
    have hs : s.soft = false := by simpa [Document.isPlain] using h
    simp [fitsDocument, hs]
  | .line _, _, _ => rfl
  | .breakParent, _, _ => rfl
  | .array docs, st, h | .indent docs, st, h | .align _ docs, st, h => by
    have hdocs : Document.allPlain docs = true := by simpa [Document.isPlain] using h
    simp only [fitsDocument, fitsDocuments_congr p q mode docs _ hdocs]
  | .group docs breakMode _ _, st, h => by
    have hdocs : Document.allPlain docs = true := by simpa [Document.isPlain] using h
    simp only [fitsDocument, fitsDocuments_congr p q _ docs _ hdocs]

theorem fitsDocuments_congr (p q : Printer) (mode : Mode) :
    ∀ (docs : List Document) (st : FitsState), Document.allPlain docs = true →
      p.fitsDocuments unicodeWidth mode docs st = q.fitsDocuments unicodeWidth mode docs st
  | [], _, _ => rfl
  | doc :: docs, st, h => by
    have hplain : doc.isPlain = true ∧ Document.allPlain docs = true := by
      simpa [Document.allPlain] using h
    simp only [fitsDocuments, fitsDocument_congr p q mode doc _ hplain.1,
      fitsDocuments_congr p q mode docs _ hplain.2]

end

mutual

theorem hasLineSuffix_of_fitsDocument (p : Printer) (mode : Mode) :
    ∀ (doc : Document) (st st' : FitsState), doc.isPlain = true →
      p.fitsDocument unicodeWidth mode doc st = .ok st' → st'.hasLineSuffix = st.hasLineSuffix
  | .string s, st, st', _, h => by
    have hst := (FitsState.check_ok h).1
    rw [hst, FitsState.spend]
  | .space s, st, st', _, h => by
    simp only [fitsDocument] at h
    split at h
    · rw [(FitsState.check_ok h).1, FitsState.spend]
    · rw [(FitsState.check_ok h).1]
  | .line l, st, st', _, h => by
    simp only [fitsDocument] at h
    split at h
    · cases h
    · split at h
      · rw [(FitsState.check_ok h).1]
      · rw [(FitsState.check_ok h).1, FitsState.spend]
  | .breakParent, st, st', _, h => by
    rw [(FitsState.check_ok h).1]
  | .array docs, st, st', hplain, h | .indent docs, st, st', hplain, h
  | .align _ docs, st, st', hplain, h => by
    have hdocs : Document.allPlain docs = true := by simpa [Document.isPlain] using hplain
    simp only [fitsDocument] at h
    cases hcheck : st.check with
    | error _ => simp [hcheck, bind, Except.bind] at h
    | ok next =>
      rw [hcheck] at h
      rw [hasLineSuffix_of_fitsDocuments p mode docs next st' hdocs h,
        (FitsState.check_ok hcheck).1]
  | .group docs breakMode _ _, st, st', hplain, h => by
    have hdocs : Document.allPlain docs = true := by simpa [Document.isPlain] using hplain
    simp only [fitsDocument] at h
    split at h
    · cases h
    · cases hcheck : st.check with
      | error _ => simp [hcheck, bind, Except.bind] at h
      | ok next =>
        rw [hcheck] at h
        rw [hasLineSuffix_of_fitsDocuments p _ docs next st' hdocs h,
          (FitsState.check_ok hcheck).1]

theorem hasLineSuffix_of_fitsDocuments (p : Printer) (mode : Mode) :
    ∀ (docs : List Document) (st st' : FitsState), Document.allPlain docs = true →
      p.fitsDocuments unicodeWidth mode docs st = .ok st' →
        st'.hasLineSuffix = st.hasLineSuffix
  | [], st, st', _, h => by
    cases h
    rfl
  | doc :: docs, st, st', hplain, h => by
    have hparts : doc.isPlain = true ∧ Document.allPlain docs = true := by
      simpa [Document.allPlain] using hplain
    simp only [fitsDocuments] at h
    cases hdoc : p.fitsDocument unicodeWidth mode doc st with
    | error _ => simp [hdoc, bind, Except.bind] at h
    | ok next =>
      rw [hdoc] at h
      rw [hasLineSuffix_of_fitsDocuments p mode docs next st' hparts.2 h,
        hasLineSuffix_of_fitsDocument p mode doc st next hparts.1 hdoc]

end

mutual

/-- A document that fits when it is laid out flat fits when it is broken. -/
theorem admits_of_break (p : Printer) :
    ∀ (doc : Document) (st : FitsState), doc.isPlain = true →
      Admits (p.fitsDocument unicodeWidth .flat doc st) (p.fitsDocument unicodeWidth .Break doc st)
  | .string _, _, _ => .refl _
  | .space _, _, _ => .refl _
  | .line _, _, _ => .inr (.inl (by simp [fitsDocument]))
  | .breakParent, _, _ => .refl _
  | .array docs, st, h | .indent docs, st, h | .align _ docs, st, h => by
    have hdocs : Document.allPlain docs = true := by simpa [Document.isPlain] using h
    simp only [fitsDocument]
    exact (Admits.refl _).bind fun next => admits_of_breaks p docs next hdocs
  | .group docs breakMode _ _, st, h => by
    have hdocs : Document.allPlain docs = true := by simpa [Document.isPlain] using h
    simp only [fitsDocument]
    cases breakMode with
    | auto =>
      exact (Admits.refl _).bind fun next => admits_of_breaks p docs next hdocs
    | force => exact .refl _
    | preserve => exact .inl (by simp)

theorem admits_of_breaks (p : Printer) :
    ∀ (docs : List Document) (st : FitsState), Document.allPlain docs = true →
      Admits (p.fitsDocuments unicodeWidth .flat docs st)
        (p.fitsDocuments unicodeWidth .Break docs st)
  | [], _, _ => .refl _
  | doc :: docs, st, h => by
    have hplain : doc.isPlain = true ∧ Document.allPlain docs = true := by
      simpa [Document.allPlain] using h
    simp only [fitsDocuments]
    exact (admits_of_break p doc st hplain.1).bind fun next =>
      admits_of_breaks p docs next hplain.2

end

mutual

/-- A document that fits still does when its breaks are propagated. -/
theorem admits_of_propagateBreaks (p : Printer) (mode : Mode) :
    ∀ (doc : Document) (st : FitsState), doc.isPlain = true →
      Admits (p.fitsDocument unicodeWidth mode doc st)
        (p.fitsDocument unicodeWidth mode doc.propagateBreaks.2 st)
  | .string _, _, _ => .refl _
  | .space _, _, _ => .refl _
  | .line _, _, _ => .refl _
  | .breakParent, _, _ => .refl _
  | .array docs, st, h | .indent docs, st, h | .align _ docs, st, h => by
    have hdocs : Document.allPlain docs = true := by simpa [Document.isPlain] using h
    simp only [Document.propagateBreaks, fitsDocument]
    exact (Admits.refl _).bind fun next => admits_of_propagateSliceBreaks p mode docs next hdocs
  | .group docs breakMode id propagated, st, h => by
    have hdocs : Document.allPlain docs = true := by simpa [Document.isPlain] using h
    have hslice (mode : Mode) (st : FitsState) :=
      admits_of_propagateSliceBreaks p mode docs st hdocs
    have hbroken (st : FitsState) : Admits
        (p.fitsDocuments unicodeWidth .flat (Document.propagateSliceBreaks docs).2 st)
        (p.fitsDocuments unicodeWidth .Break (Document.propagateSliceBreaks docs).2 st) :=
      admits_of_breaks p _ st (Document.allPlain_propagateSliceBreaks docs hdocs)
    unfold Document.propagateBreaks
    split
    · exact .refl _
    split
    · exact .refl _
    -- the contents may now be laid out broken in a group that was measured flat
    by_cases hforced : (Document.propagateSliceBreaks docs).1 = true ∧ breakMode ≠ .preserve
    · have hauto : breakMode = .auto := by cases breakMode <;> simp_all
      subst hauto
      simp only [fitsDocument, hforced]
      refine (Admits.refl _).bind fun next => (hslice mode next).trans ?_
      cases mode with
      | flat => exact hbroken next
      | Break => exact .refl _
    · simp only [fitsDocument, hforced, if_false]
      by_cases hnever : breakMode = .preserve ∧ mode = .flat
      · simp only [hnever, and_self, if_true]
        exact .refl _
      · simp only [hnever, if_false]
        exact (Admits.refl _).bind fun next => hslice _ next

theorem admits_of_propagateSliceBreaks (p : Printer) (mode : Mode) :
    ∀ (docs : List Document) (st : FitsState), Document.allPlain docs = true →
      Admits (p.fitsDocuments unicodeWidth mode docs st)
        (p.fitsDocuments unicodeWidth mode (Document.propagateSliceBreaks docs).2 st)
  | [], _, _ => .refl _
  | doc :: docs, st, h => by
    have hplain : doc.isPlain = true ∧ Document.allPlain docs = true := by
      simpa [Document.allPlain] using h
    simp only [Document.propagateSliceBreaks]
    split
    · simp only [fitsDocuments]
      exact (Admits.refl _).bind fun next =>
        admits_of_propagateSliceBreaks p mode docs next hplain.2
    · simp only [fitsDocuments]
      exact (admits_of_propagateBreaks p mode doc st hplain.1).bind fun next =>
        admits_of_propagateSliceBreaks p mode docs next hplain.2

end

/-! ## Promises -/

theorem answer_bind (result : Except Bool FitsState) (f : FitsState → Except Bool FitsState)
    (next : FitsState → Bool) :
    answer (result >>= f) next = answer result fun st => answer (f st) next := by
  cases result <;> rfl

theorem answer_check {st : FitsState} {next : FitsState → Bool} :
    answer st.check next = (decide (0 ≤ st.remainingWidth) && next st) := by
  unfold FitsState.check
  by_cases h : st.remainingWidth < 0
  · have hnot : ¬ 0 ≤ st.remainingWidth := by omega
    simp [h, hnot, answer]
  · have hle : 0 ≤ st.remainingWidth := by omega
    simp [h, hle, answer]

theorem hasLineSuffix_of_fitsCommand (p : Printer) {c : Command} {st st' : FitsState}
    (hplain : c.isPlain = true) (h : p.fitsCommand unicodeWidth c st = .ok st') :
    st'.hasLineSuffix = st.hasLineSuffix := by
  obtain ⟨indentation, mode, document⟩ := c
  cases document with
  | document doc => exact hasLineSuffix_of_fitsDocument p mode doc st st' hplain h
  | array docs =>
    simp only [fitsCommand] at h
    cases hcheck : st.check with
    | error _ => simp [hcheck, bind, Except.bind] at h
    | ok next =>
      rw [hcheck] at h
      rw [hasLineSuffix_of_fitsDocuments p mode docs next st' hplain h,
        (FitsState.check_ok hcheck).1]

theorem fitsCommand_congr (p q : Printer) {c : Command} (st : FitsState)
    (hplain : c.isPlain = true) :
    p.fitsCommand unicodeWidth c st = q.fitsCommand unicodeWidth c st := by
  obtain ⟨indentation, mode, document⟩ := c
  cases document with
  | document doc => exact fitsDocument_congr p q mode doc st hplain
  | array docs => simp only [fitsCommand, fitsDocuments_congr p q mode docs _ hplain]

theorem fitsPending_cons (p : Printer) (c : Command) (commands : List Command) {st : FitsState}
    (h : st.hasLineSuffix = false) :
    p.fitsPending unicodeWidth (c :: commands) st =
      answer (p.fitsCommand unicodeWidth c st) (p.fitsPending unicodeWidth commands) := by
  simp only [fitsPending, h, answer]
  rfl

theorem fitsPending_congr (p q : Printer) :
    ∀ (commands : List Command) (st : FitsState), (∀ c ∈ commands, c.isPlain = true) →
      st.hasLineSuffix = false →
      p.fitsPending unicodeWidth commands st = q.fitsPending unicodeWidth commands st
  | [], _, _, _ => rfl
  | c :: commands, st, hplain, hst => by
    have htop := hplain c List.mem_cons_self
    rw [fitsPending_cons p c commands hst, fitsPending_cons q c commands hst,
      fitsCommand_congr p q st htop]
    cases hc : q.fitsCommand unicodeWidth c st with
    | error _ => rfl
    | ok next =>
      have hnext := (hasLineSuffix_of_fitsCommand q htop hc).trans hst
      exact fitsPending_congr p q commands next
        (fun c hc => hplain c (List.mem_cons_of_mem _ hc)) hnext

/-- Documents that are pushed are looked at in their order. -/
theorem fitsPending_docCommands (p : Printer) (indentation : Indentation) (mode : Mode)
    (rest : List Command) :
    ∀ (docs : List Document) (st : FitsState), Document.allPlain docs = true →
      st.hasLineSuffix = false →
      p.fitsPending unicodeWidth (docCommands indentation mode docs ++ rest) st =
        answer (p.fitsDocuments unicodeWidth mode docs st) (p.fitsPending unicodeWidth rest)
  | [], _, _, _ => rfl
  | doc :: docs, st, h, hst => by
    have hplain : doc.isPlain = true ∧ Document.allPlain docs = true := by
      simpa [Document.allPlain] using h
    have hpush : docCommands indentation mode (doc :: docs) ++ rest =
        ⟨indentation, mode, .document doc⟩ :: (docCommands indentation mode docs ++ rest) := rfl
    rw [hpush, fitsPending_cons p _ _ hst, fitsDocuments, answer_bind]
    simp only [fitsCommand]
    cases hdoc : p.fitsDocument unicodeWidth mode doc st with
    | error _ => rfl
    | ok next =>
      have hnext := (hasLineSuffix_of_fitsDocument p mode doc st next hplain.1 hdoc).trans hst
      exact fitsPending_docCommands p indentation mode rest docs next hplain.2 hnext

/-- A state of a run over a plain document. -/
structure PlainState (p : Printer) : Prop where
  commands_plain : ∀ c ∈ p.commands, c.isPlain = true
  lineSuffix_nil : p.lineSuffix = []

variable (unicodeWidth settings)

/-- The look ahead over what is left answers yes. -/
structure Keeps (p : Printer) : Prop extends PlainState p where
  remeasured : p.shouldRemeasure = false
  width_nonneg : 0 ≤ p.remainingWidth settings
  fits_pending :
    p.fitsPending unicodeWidth p.commands ⟨p.remainingWidth settings, false⟩ = true

variable {unicodeWidth settings} {p q : Printer}

theorem remainingWidth_congr (h : q.position = p.position) :
    q.remainingWidth settings = p.remainingWidth settings := by
  unfold remainingWidth
  rw [h]

/-- Commands with a yes for an answer are pushed on the ones that follow them. -/
theorem keeps_of_push {commands : List Command} (hp : PlainState p)
    (hplain : ∀ c ∈ commands, c.isPlain = true)
    (hcommands : q.commands = commands ++ p.commands) (hsuffix : q.lineSuffix = p.lineSuffix)
    (hposition : q.position = p.position) (hremeasure : q.shouldRemeasure = false)
    (hwidth : 0 ≤ p.remainingWidth settings)
    (hfits : p.fitsPending unicodeWidth (commands ++ p.commands)
      ⟨p.remainingWidth settings, false⟩ = true) :
    Keeps unicodeWidth settings q := by
  have hwidths : q.remainingWidth settings = p.remainingWidth settings :=
    remainingWidth_congr hposition
  have hall : ∀ c ∈ commands ++ p.commands, c.isPlain = true := by
    intro c hc
    rcases List.mem_append.mp hc with hc | hc
    · exact hplain c hc
    · exact hp.commands_plain c hc
  rw [← hcommands] at hall hfits
  refine ⟨⟨hall, hsuffix.trans hp.lineSuffix_nil⟩, hremeasure, hwidths ▸ hwidth, ?_⟩
  rw [hwidths, fitsPending_congr q p q.commands _ hall rfl]
  exact hfits

theorem keeps_of_docs {indentation : Indentation} {mode : Mode} {docs : List Document}
    (hp : PlainState p) (hdocs : Document.allPlain docs = true)
    (hcommands : q.commands = docCommands indentation mode docs ++ p.commands)
    (hsuffix : q.lineSuffix = p.lineSuffix) (hposition : q.position = p.position)
    (hremeasure : q.shouldRemeasure = false) (hwidth : 0 ≤ p.remainingWidth settings)
    (hfits : answer (p.fitsDocuments unicodeWidth mode docs ⟨p.remainingWidth settings, false⟩)
      (p.fitsPending unicodeWidth p.commands) = true) :
    Keeps unicodeWidth settings q := by
  refine keeps_of_push hp (docCommands_isPlain indentation mode docs hdocs) hcommands hsuffix
    hposition hremeasure hwidth ?_
  rw [fitsPending_docCommands p indentation mode p.commands docs _ hdocs rfl]
  exact hfits

theorem keeps_of_command {c : Command} (hp : PlainState p) (hplain : c.isPlain = true)
    (hcommands : q.commands = c :: p.commands) (hsuffix : q.lineSuffix = p.lineSuffix)
    (hposition : q.position = p.position) (hremeasure : q.shouldRemeasure = false)
    (hwidth : 0 ≤ p.remainingWidth settings)
    (hfits : p.fits unicodeWidth c (p.remainingWidth settings) = true) :
    Keeps unicodeWidth settings q := by
  have hall : ∀ d ∈ [c], d.isPlain = true := by simpa using hplain
  refine keeps_of_push hp hall hcommands hsuffix hposition hremeasure hwidth ?_
  rw [List.singleton_append, fitsPending_cons p c p.commands rfl]
  exact hfits

/-- A group that fits is pushed again, whatever was promised before. -/
theorem keeps_of_fits (hp : PlainState p) {indentation : Indentation} {docs : List Document}
    {id : Option GroupIdentifier} {propagated : Bool} (hdocs : Document.allPlain docs = true)
    (hfits : p.fits unicodeWidth
      ⟨indentation, .flat, .document (.group docs .auto id propagated)⟩
      (p.remainingWidth settings) = true) :
    Keeps unicodeWidth settings
      (({ p with shouldRemeasure := false }.push
        [⟨indentation, .flat, .document (.group docs .auto id propagated)⟩]).setGroupModeFromLastCmd
          id) := by
  have hwidth : 0 ≤ p.remainingWidth settings := by
    by_contra hneg
    have hcheck : (⟨p.remainingWidth settings, false⟩ : FitsState).check = .error false := by
      unfold FitsState.check
      rw [if_pos (by simpa using hneg)]
    simp [fits, fitsCommand, fitsDocument, hcheck, bind, Except.bind] at hfits
  have hplain : (⟨indentation, .flat, .document (.group docs .auto id propagated)⟩ :
      Command).isPlain = true := by
    simpa [Command.isPlain, Document.isPlain] using hdocs
  exact keeps_of_command hp hplain (by simp [push_commands]) (by simp [push]) (by simp [push])
    (by simp [push]) hwidth hfits

theorem plainState_of_push {commands : List Command} (hp : PlainState p)
    (hplain : ∀ c ∈ commands, c.isPlain = true)
    (hcommands : q.commands = commands ++ p.commands) (hsuffix : q.lineSuffix = p.lineSuffix) :
    PlainState q := by
  refine ⟨?_, hsuffix.trans hp.lineSuffix_nil⟩
  intro c hc
  rw [hcommands, List.mem_append] at hc
  rcases hc with hc | hc
  · exact hplain c hc
  · exact hp.commands_plain c hc

theorem plainState_of_docs {indentation : Indentation} {mode : Mode} {docs : List Document}
    (hp : PlainState p) (hdocs : Document.allPlain docs = true)
    (hcommands : q.commands = docCommands indentation mode docs ++ p.commands)
    (hsuffix : q.lineSuffix = p.lineSuffix) : PlainState q :=
  plainState_of_push hp (docCommands_isPlain indentation mode docs hdocs) hcommands hsuffix

theorem plainState_of_command {c : Command} (hp : PlainState p) (hplain : c.isPlain = true)
    (hcommands : q.commands = c :: p.commands) (hsuffix : q.lineSuffix = p.lineSuffix) :
    PlainState q := by
  have hall : ∀ d ∈ [c], d.isPlain = true := by simpa using hplain
  exact plainState_of_push hp hall hcommands hsuffix

theorem plainState_of_rest (hp : PlainState p) (hcommands : q.commands = p.commands)
    (hsuffix : q.lineSuffix = p.lineSuffix) : PlainState q :=
  ⟨by rw [hcommands]; exact hp.commands_plain, hsuffix.trans hp.lineSuffix_nil⟩

theorem plainState_handleGroup (hp : PlainState p) {indentation : Indentation} {mode : Mode}
    {docs : List Document} {breakMode : BreakMode} {id : Option GroupIdentifier}
    {propagated : Bool} (hdocs : Document.allPlain docs = true) :
    PlainState
      (p.handleGroup unicodeWidth settings indentation mode docs breakMode id propagated) := by
  unfold handleGroup
  split
  · exact plainState_of_docs hp hdocs (by simp; rfl) (by simp [pushDocs, push])
  · dsimp only
    split
    · have hplain : (⟨indentation, .flat, .document (.group docs breakMode id propagated)⟩ :
          Command).isPlain = true := by
        simpa [Command.isPlain, Document.isPlain] using hdocs
      exact plainState_of_command hp hplain (by simp [push_commands]) (by simp [push])
    · exact plainState_of_command (c := ⟨indentation, .Break, .array docs⟩) hp hdocs
        (by simp [push_commands]) (by simp [push])

theorem PlainState.handleDocument (hp : PlainState p) (indentation : Indentation) (mode : Mode) :
    ∀ doc : Document, doc.isPlain = true →
      PlainState (p.handleDocument unicodeWidth settings indentation mode doc)
  | .string _, _ => plainState_of_rest hp rfl rfl
  | .space s, h => by
    simp only [Printer.handleDocument, handleSpace]
    split
    · exact hp
    · exact plainState_of_rest hp rfl rfl
  | .line l, _ => by
    obtain ⟨hcommands, hsuffix⟩ := handleLine_commands hp.lineSuffix_nil l indentation mode
    exact plainState_of_rest hp hcommands (hsuffix.trans hp.lineSuffix_nil.symm)
  | .breakParent, _ => hp
  | .array _, h | .indent _, h | .align _ _, h => plainState_of_docs hp h rfl rfl
  | .group _ _ _ _, h => plainState_handleGroup hp h

theorem PlainState.step (hp : PlainState p) (hstep : p.step unicodeWidth settings = some q) :
    PlainState q := by
  cases hcommands : p.commands with
  | nil => simp [step_nil hcommands] at hstep
  | cons c rest =>
    rw [step_cons hcommands, Option.some.injEq] at hstep
    have hrest : PlainState { p with commands := rest } :=
      ⟨fun d hd => hp.commands_plain d (by simp [hcommands, hd]), hp.lineSuffix_nil⟩
    have htop : c.isPlain = true := hp.commands_plain c (by simp [hcommands])
    have hnext : PlainState
        ({ p with commands := rest }.handleCommand unicodeWidth settings c) := by
      obtain ⟨indentation, mode, document⟩ := c
      cases document with
      | array docs =>
        exact plainState_of_docs hrest (Document.allPlain_propagateSliceBreaks docs htop) rfl rfl
      | document doc =>
        exact hrest.handleDocument indentation mode _ (Document.isPlain_propagateBreaks doc htop)
    rw [← hstep, flushAtEnd_of_lineSuffix hnext.lineSuffix_nil]
    exact hnext

/-- A group keeps the promise of its look ahead, in the mode it is given. -/
theorem keeps_handleGroup (hp : PlainState p) {indentation : Indentation} {mode : Mode}
    {docs : List Document} {breakMode : BreakMode} {id : Option GroupIdentifier}
    {propagated : Bool} (hdocs : Document.allPlain docs = true)
    (hremeasure : p.shouldRemeasure = false) (hwidth : 0 ≤ p.remainingWidth settings)
    (hfits : answer (p.fitsDocument unicodeWidth mode (.group docs breakMode id propagated)
      ⟨p.remainingWidth settings, false⟩) (p.fitsPending unicodeWidth p.commands) = true) :
    Keeps unicodeWidth settings
      (p.handleGroup unicodeWidth settings indentation mode docs breakMode id propagated) := by
  have hnever : ¬ (breakMode = .preserve ∧ mode = .flat) := by
    intro hnever
    simp [fitsDocument, hnever, answer] at hfits
  have hinside : answer
      (p.fitsDocuments unicodeWidth (if breakMode = .force then .Break else mode) docs
        ⟨p.remainingWidth settings, false⟩) (p.fitsPending unicodeWidth p.commands) = true := by
    rw [fitsDocument, if_neg hnever, answer_bind, answer_check] at hfits
    simpa [hwidth] using hfits
  unfold handleGroup
  cases mode with
  | flat =>
    rw [if_pos ⟨rfl, hremeasure⟩]
    have hmodes : (if breakMode ≠ .auto then Mode.Break else .flat) =
        if breakMode = .force then .Break else .flat := by
      cases breakMode <;> simp_all
    rw [hmodes]
    exact keeps_of_docs hp hdocs (by simp; rfl) (by simp [pushDocs, push])
      (by simp [pushDocs, push]) (by simp [pushDocs, push, hremeasure]) hwidth hinside
  | Break =>
    rw [if_neg (by simp)]
    by_cases hflat : breakMode = .auto ∧ p.fits unicodeWidth
        ⟨indentation, .flat, .document (.group docs breakMode id propagated)⟩
        (p.remainingWidth settings) = true
    · obtain ⟨rfl, hauto⟩ := hflat
      rw [if_pos ⟨rfl, hauto⟩]
      exact keeps_of_fits hp hdocs hauto
    · rw [if_neg hflat]
      have hmodes : (if breakMode = .force then Mode.Break else .Break) = .Break := by simp
      rw [hmodes] at hinside
      refine keeps_of_command (c := ⟨indentation, .Break, .array docs⟩) hp hdocs
        (by simp [push_commands]) (by simp [push]) (by simp [push]) (by simp [push]) hwidth ?_
      change answer (fitsCommand unicodeWidth p ⟨indentation, .Break, .array docs⟩ _) _ = true
      rw [fitsCommand, answer_bind, answer_check]
      simpa [hwidth] using hinside

/-! ## A turn keeps the promise -/

theorem keeps_of_rest (hp : PlainState p) (hcommands : q.commands = p.commands)
    (hsuffix : q.lineSuffix = p.lineSuffix) (hremeasure : q.shouldRemeasure = false)
    (hwidth : 0 ≤ q.remainingWidth settings)
    (hfits : p.fitsPending unicodeWidth p.commands ⟨q.remainingWidth settings, false⟩ = true) :
    Keeps unicodeWidth settings q := by
  have hq : PlainState q := plainState_of_rest hp hcommands hsuffix
  refine ⟨hq, hremeasure, hwidth, ?_⟩
  rw [fitsPending_congr q p q.commands _ hq.commands_plain rfl, hcommands]
  exact hfits

variable (unicodeWidth settings) in
/-- A turn that prints no newline: its width is taken from what remains. -/
structure Continues (events : List Event) (p q : Printer) : Prop where
  keeps : Keeps unicodeWidth settings q
  width_eq : p.remainingWidth settings = q.remainingWidth settings + lineWidth unicodeWidth events
  no_newline : ∀ alignment, .newline alignment ∉ events

/-- A turn that only pushes commands. -/
theorem continues_of_keeps (hq : Keeps unicodeWidth settings q) (hposition : q.position = p.position) :
    Continues unicodeWidth settings [] p q := by
  have hwidths : q.remainingWidth settings = p.remainingWidth settings :=
    remainingWidth_congr hposition
  exact ⟨hq, by simp [lineWidth, hwidths], by simp⟩

/-- A turn that prints one text or space that the look ahead has seen. -/
theorem continues_of_spent (hp : PlainState p) (hremeasure : p.shouldRemeasure = false)
    {event : Event} (hevent : ∀ alignment, event ≠ .newline alignment)
    (hcommands : q.commands = p.commands) (hsuffix : q.lineSuffix = p.lineSuffix)
    (hsame : q.shouldRemeasure = p.shouldRemeasure)
    (hposition : q.position = p.position + event.width unicodeWidth)
    (hfits : answer
      ((⟨p.remainingWidth settings, false⟩ : FitsState).spend (event.width unicodeWidth)).check
      (p.fitsPending unicodeWidth p.commands) = true) :
    Continues unicodeWidth settings [event] p q := by
  have hspent : q.remainingWidth settings =
      p.remainingWidth settings - event.width unicodeWidth := by
    simp only [remainingWidth, hposition]
    omega
  rw [answer_check, Bool.and_eq_true, decide_eq_true_eq, FitsState.spend, ← hspent] at hfits
  have hline : lineWidth unicodeWidth [event] = event.width unicodeWidth := by
    cases event with
    | newline alignment => exact absurd rfl (hevent alignment)
    | text s => simp [lineWidth]
    | space => simp [lineWidth]
  refine ⟨keeps_of_rest hp hcommands hsuffix (hsame.trans hremeasure) hfits.1 hfits.2, ?_, ?_⟩
  · rw [hspent, hline]
    omega
  · intro alignment hmem
    exact hevent alignment (List.mem_singleton.mp hmem).symm

theorem handleDocument_continues (hp : PlainState p) (hremeasure : p.shouldRemeasure = false)
    (hwidth : 0 ≤ p.remainingWidth settings) (indentation : Indentation) (mode : Mode) :
    ∀ doc : Document, doc.isPlain = true →
      answer (p.fitsDocument unicodeWidth mode doc ⟨p.remainingWidth settings, false⟩)
        (p.fitsPending unicodeWidth p.commands) = true →
      (∃ alignment, p.emitsDocument indentation mode doc = [.newline alignment]) ∨
        Continues unicodeWidth settings (p.emitsDocument indentation mode doc) p
          (p.handleDocument unicodeWidth settings indentation mode doc)
  | .string s, _, hfits => by
    refine .inr (continues_of_spent hp hremeasure ?_ rfl rfl rfl rfl hfits)
    intro alignment h
    cases h
  | .space s, h, hfits => by
    have hs : s.soft = false := by simpa [Document.isPlain] using h
    have hemits : p.emitsDocument indentation mode (.space s) = [.space] := by
      simp [emitsDocument, hs]
    simp only [fitsDocument, hs, Bool.not_false, Bool.true_or, if_true] at hfits
    have hhandle : p.handleSpace s = { p with out := p.out ++ [32], position := p.position + 1 } := by
      simp [handleSpace, hs]
    rw [hemits]
    refine .inr (continues_of_spent hp hremeasure ?_ ?_ ?_ ?_ ?_ hfits)
    · intro alignment h
      cases h
    all_goals simp [Printer.handleDocument, hhandle, Event.width]
  | .line l, _, hfits => by
    by_cases hflat : mode = .flat ∧ l.hard = false
    · have hmode : ¬ (mode = .Break ∨ l.hard = true) := by simp [hflat.1, hflat.2]
      simp only [fitsDocument, hmode, if_false] at hfits
      simp only [emitsDocument, Printer.handleDocument, handleLine, hflat, and_self, if_true]
      cases hsoft : l.soft with
      | true =>
        simp only [hsoft, if_true, answer_check, Bool.and_eq_true] at hfits
        exact .inr (continues_of_keeps
          ⟨hp, hremeasure, hwidth, hfits.2⟩ rfl)
      | false =>
        simp only [hsoft, Bool.false_eq_true, if_false] at hfits
        refine .inr (continues_of_spent hp hremeasure ?_ rfl rfl rfl rfl hfits)
        intro alignment h
        cases h
    · refine .inl ⟨if l.literal then [] else indentation.alignment.getD [], ?_⟩
      simp [emitsDocument, hflat, hp.lineSuffix_nil]
  | .breakParent, _, hfits => by
    simp only [fitsDocument, answer_check, Bool.and_eq_true] at hfits
    exact .inr (continues_of_keeps ⟨hp, hremeasure, hwidth, hfits.2⟩ rfl)
  | .array docs, h, hfits | .indent docs, h, hfits | .align _ docs, h, hfits => by
    simp only [fitsDocument, answer_bind, answer_check, Bool.and_eq_true] at hfits
    exact .inr (continues_of_keeps
      (keeps_of_docs hp h rfl rfl rfl hremeasure hwidth hfits.2) rfl)
  | .group docs breakMode id propagated, h, hfits => by
    refine .inr (continues_of_keeps (keeps_handleGroup hp h hremeasure hwidth hfits) ?_)
    simp only [Printer.handleDocument, handleGroup]
    split
    · simp [pushDocs, push]
    · split <;> simp [push]

/-- A turn keeps the promise or ends the line. -/
theorem Keeps.step (h : Keeps unicodeWidth settings p)
    (hstep : p.step unicodeWidth settings = some q) :
    (∃ alignment, p.emits = [.newline alignment]) ∨
      Continues unicodeWidth settings p.emits p q := by
  cases hcommands : p.commands with
  | nil => simp [step_nil hcommands] at hstep
  | cons c rest =>
    rw [step_cons hcommands, Option.some.injEq] at hstep
    obtain ⟨indentation, mode, document⟩ := c
    have hrest : PlainState { p with commands := rest } :=
      ⟨fun d hd => h.commands_plain d (by simp [hcommands, hd]), h.lineSuffix_nil⟩
    have htop : Command.isPlain ⟨indentation, mode, document⟩ = true :=
      h.commands_plain _ (by simp [hcommands])
    have hfits := h.fits_pending
    rw [fitsPending_congr p { p with commands := rest } _ _ h.commands_plain rfl, hcommands,
      fitsPending_cons _ _ rest rfl] at hfits
    cases document with
    | array docs =>
      rw [fitsCommand, answer_bind, answer_check, Bool.and_eq_true] at hfits
      have hbroken := (admits_of_propagateSliceBreaks _ mode docs _ htop).answer hfits.2
      have hkeeps : Keeps unicodeWidth settings
          (({ p with commands := rest } : Printer).handleCommand unicodeWidth settings
            ⟨indentation, mode, .array docs⟩) :=
        keeps_of_docs hrest (Document.allPlain_propagateSliceBreaks docs htop) rfl rfl rfl
          h.remeasured h.width_nonneg hbroken
      rw [flushAtEnd_of_lineSuffix hkeeps.lineSuffix_nil] at hstep
      rw [emits_of_array hcommands, ← hstep]
      exact .inr (continues_of_keeps hkeeps rfl)
    | document doc =>
      have hbroken := (admits_of_propagateBreaks _ mode doc _ htop).answer hfits
      have hturn := handleDocument_continues hrest h.remeasured h.width_nonneg indentation mode
        doc.propagateBreaks.2 (Document.isPlain_propagateBreaks doc htop) hbroken
      rw [emitsDocument_propagateBreaks] at hturn
      rw [emits_of_document hcommands]
      refine hturn.imp id fun hnext => ?_
      rw [← hstep, flushAtEnd_of_lineSuffix (by exact hnext.keeps.lineSuffix_nil)]
      exact ⟨hnext.keeps, hnext.width_eq, hnext.no_newline⟩

/-! ## The line of a flat group -/

theorem lineWidth_append {events : List Event} (h : ∀ alignment, .newline alignment ∉ events)
    (later : List Event) :
    lineWidth unicodeWidth (events ++ later) =
      lineWidth unicodeWidth events + lineWidth unicodeWidth later := by
  induction events with
  | nil => simp [lineWidth]
  | cons event events ih =>
    have hrest := ih fun alignment hmem => h alignment (List.mem_cons_of_mem _ hmem)
    cases event with
    | newline alignment => exact absurd List.mem_cons_self (h alignment)
    | text s =>
      simp only [List.cons_append, lineWidth, hrest]
      omega
    | space =>
      simp only [List.cons_append, lineWidth, hrest]
      omega

/-- What a promise bounds, over a whole run. -/
theorem Keeps.lineWidth_trace_le (turns : ℕ) :
    ∀ {p : Printer}, Keeps unicodeWidth settings p →
      (lineWidth unicodeWidth (p.trace unicodeWidth settings turns) : ℤ) ≤
        p.remainingWidth settings := by
  induction turns with
  | zero =>
    intro p h
    simpa [trace, lineWidth] using h.width_nonneg
  | succ turns ih =>
    intro p h
    cases hstep : p.step unicodeWidth settings with
    | none =>
      rw [trace_of_none hstep]
      simpa [trace, lineWidth] using h.width_nonneg
    | some q =>
      rw [trace_of_some hstep]
      rcases h.step hstep with ⟨alignment, hemits⟩ | hturn
      · rw [hemits]
        simpa [trace, lineWidth] using h.width_nonneg
      · rw [lineWidth_append hturn.no_newline, hturn.width_eq]
        have hlater := ih hturn.keeps
        push_cast
        omega

theorem PlainState.reaches (hp : PlainState p) (h : Reaches unicodeWidth settings p q) :
    PlainState q := by
  induction h with
  | refl => exact hp
  | tail _ hstep ih => exact ih.step hstep

theorem plainState_new {doc : Document} (h : doc.isPlain = true) : PlainState (new doc) := by
  refine ⟨?_, rfl⟩
  intro c hc
  have hc' : c = ⟨.root, .Break, .document doc⟩ := by simpa [new] using hc
  rw [hc']
  exact h

theorem handleDocument_out (indentation : Indentation) (mode : Mode) :
    ∀ doc : Document, doc.isPlain = true →
      (∀ alignment, .newline alignment ∉ p.emitsDocument indentation mode doc) →
      p.lineSuffix = [] →
      (p.handleDocument unicodeWidth settings indentation mode doc).out =
        p.out ++ (p.emitsDocument indentation mode doc).flatMap Event.bytes
  | .string _, _, _, _ => by simp [Printer.handleDocument, handleBytes, emitsDocument, Event.bytes]
  | .space s, h, _, _ => by
    have hs : s.soft = false := by simpa [Document.isPlain] using h
    simp [Printer.handleDocument, handleSpace, emitsDocument, Event.bytes, hs]
  | .line l, _, hno, hsuffix => by
    by_cases hflat : mode = .flat ∧ l.hard = false
    · simp only [emitsDocument, Printer.handleDocument, handleLine, hflat, and_self, if_true]
      split <;> simp [Event.bytes]
    · exact absurd (by simp [emitsDocument, hflat, hsuffix])
        (hno (if l.literal then [] else indentation.alignment.getD []))
  | .breakParent, _, _, _ | .array _, _, _, _ | .indent _, _, _, _ | .align _ _, _, _, _ => by
    simp [Printer.handleDocument, emitsDocument, pushDocs, push]
  | .group _ _ _ _, _, _, _ => by simp [Printer.handleDocument, emitsDocument]

/-- On a line the trace is what is printed. -/
theorem PlainState.step_out (hp : PlainState p)
    (hstep : p.step unicodeWidth settings = some q)
    (hno : ∀ alignment, .newline alignment ∉ p.emits) :
    q.out = p.out ++ p.emits.flatMap Event.bytes := by
  have hq := hp.step hstep
  cases hcommands : p.commands with
  | nil => simp [step_nil hcommands] at hstep
  | cons c rest =>
    rw [step_cons hcommands, Option.some.injEq] at hstep
    obtain ⟨indentation, mode, document⟩ := c
    rw [← hstep, flushAtEnd_out]
    cases document with
    | array docs =>
      rw [emits_of_array hcommands]
      simp [handleCommand, pushDocs, push]
    | document doc =>
      have hplain : doc.isPlain = true :=
        hp.commands_plain ⟨indentation, mode, .document doc⟩ (by simp [hcommands])
      rw [emits_of_document hcommands] at hno ⊢
      rw [← emitsDocument_propagateBreaks] at hno ⊢
      exact handleDocument_out indentation mode _ (Document.isPlain_propagateBreaks doc hplain)
        hno hp.lineSuffix_nil

variable (unicodeWidth settings) in
/-- The group on top is laid out flat because a look ahead says that it fits. -/
def choosesFlat (p : Printer) : Bool :=
  match p.commands with
  | ⟨indentation, mode, .document doc⟩ :: rest =>
    match doc.propagateBreaks.2 with
    | .group contents breakMode id propagated =>
      !(decide (mode = .flat) && !p.shouldRemeasure) && decide (breakMode = .auto) &&
        { p with commands := rest }.fits unicodeWidth
          ⟨indentation, .flat, .document (.group contents breakMode id propagated)⟩
          (p.remainingWidth settings)
    | _ => false
  | _ => false

/-- A group that is laid out flat is on top again, with a promise. -/
theorem PlainState.keeps_of_choosesFlat (hp : PlainState p)
    (hflat : p.choosesFlat unicodeWidth settings = true) :
    ∃ q, p.step unicodeWidth settings = some q ∧ p.emits = [] ∧
      Keeps unicodeWidth settings q ∧ q.position = p.position := by
  unfold choosesFlat at hflat
  split at hflat
  case h_2 => cases hflat
  case h_1 indentation mode doc rest hcommands =>
    split at hflat
    case h_2 => cases hflat
    case h_1 contents breakMode id propagated hdoc =>
      simp only [Bool.and_eq_true, decide_eq_true_eq] at hflat
      obtain ⟨⟨hmeasured, rfl⟩, hfits⟩ := hflat
      have hmode : ¬ (mode = .flat ∧ p.shouldRemeasure = false) := by
        intro hkept
        simp [hkept.1, hkept.2] at hmeasured
      have hplain : doc.isPlain = true :=
        hp.commands_plain ⟨indentation, mode, .document doc⟩ (by simp [hcommands])
      have hcontents : Document.allPlain contents = true := by
        have hgroup := Document.isPlain_propagateBreaks doc hplain
        rwa [hdoc] at hgroup
      have hrest : PlainState { p with commands := rest } :=
        ⟨fun d hd => hp.commands_plain d (by simp [hcommands, hd]), hp.lineSuffix_nil⟩
      have hkeeps := keeps_of_fits hrest hcontents hfits
      have hturn : ({ p with commands := rest } : Printer).handleCommand unicodeWidth settings
          ⟨indentation, mode, .document doc⟩ =
          (({ p with commands := rest, shouldRemeasure := false } : Printer).push
            [⟨indentation, .flat, .document (.group contents .auto id propagated)⟩]).setGroupModeFromLastCmd
              id := by
        simp only [handleCommand, hdoc, Printer.handleDocument, handleGroup]
        rw [if_neg hmode, if_pos ⟨trivial, hfits⟩]
      refine ⟨_, step_cons hcommands, ?_, ?_, ?_⟩
      · rw [emits_of_document hcommands, ← emitsDocument_propagateBreaks, hdoc]
        rfl
      · rw [hturn, flushAtEnd_of_lineSuffix hkeeps.lineSuffix_nil]
        exact hkeeps
      · rw [hturn, flushAtEnd_of_lineSuffix hkeeps.lineSuffix_nil]
        simp [push]

/-- What is printed up to the next newline is no wider than the width that remained when the
look ahead answered. -/
theorem lineWidth_of_choosesFlat {doc : Document} (hdoc : doc.isPlain = true)
    (hreach : Reaches unicodeWidth settings (new doc) p)
    (hflat : p.choosesFlat unicodeWidth settings = true) (turns : ℕ) :
    (lineWidth unicodeWidth (p.trace unicodeWidth settings turns) : ℤ) ≤
      p.remainingWidth settings := by
  have hp : PlainState p := (plainState_new hdoc).reaches hreach
  obtain ⟨q, hstep, hemits, hkeeps, hposition⟩ := hp.keeps_of_choosesFlat hflat
  have hwidths : q.remainingWidth settings = p.remainingWidth settings :=
    remainingWidth_congr hposition
  cases turns with
  | zero =>
    have hnonneg := hkeeps.width_nonneg
    simpa [trace, lineWidth, ← hwidths] using hnonneg
  | succ turns =>
    have hlater := hkeeps.lineWidth_trace_le turns
    rw [trace_of_some hstep, hemits, List.nil_append, ← hwidths]
    exact hlater

/-- The group of one text, a line and another text, with a line of three columns. -/
theorem lineWidth_of_choosesFlat_one_line :
    (new (.group [.string [97], .line ⟨false, false, false⟩, .string [98]] .auto none false)).choosesFlat
        List.length ⟨3, 4, false, .lf⟩ = true ∧
      ∀ turns, (lineWidth List.length
        ((new (.group [.string [97], .line ⟨false, false, false⟩, .string [98]] .auto none
          false)).trace List.length ⟨3, 4, false, .lf⟩ turns) : ℤ) ≤ 3 :=
  ⟨by decide, lineWidth_of_choosesFlat (by decide) .refl (by decide)⟩

end Printer

end Mago.Printing
