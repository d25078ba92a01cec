import Mathlib.Data.Multiset.AddSub
import Mago.Printing.Trace

/-!
# Linearisations

What a printed tree says, without widths and modes. Parts are printed in their order, one
option of a choice is printed, and a deferred part waits until it is printed at a later place.
Newlines and boundaries stand where nothing waits. `depth` counts the deferred parts that are
being printed. A newline that comes from a deferred part holds back nothing, and a boundary
lets parts wait that were deferred by deferred parts; a strict linearisation allows neither.
-/
namespace Mago.Printing

inductive Layout
  | text (s : Bytes)
  | blank
  | sequence (parts : List Layout)
  | aligned (alignment : Bytes) (parts : List Layout)
  | choice (options : List Layout)
  | line (hard literal : Bool)
  | deferred (parts : List Layout)
  | boundary

/-- A deferred part that waits. -/
structure Pending where
  nested : Bool
  alignment : Bytes
  parts : List Layout

/-- A blank place is empty or one space. -/
def Gap (events : List Event) : Prop := events = [] ∨ events = [.space]

/-- `Prints strict depth alignment waiting layouts waiting' events`: the layouts are printed as
the events, with other parts waiting before and after. -/
inductive Prints (strict : Bool) :
    ℕ → Bytes → Multiset Pending → List Layout → Multiset Pending → List Event → Prop
  | done {depth alignment waiting} : Prints strict depth alignment waiting [] waiting []
  | flush {depth alignment e waiting middle waiting' layouts before events} :
    Prints strict (depth + 1) e.alignment waiting e.parts middle before →
    Prints strict depth alignment middle layouts waiting' events →
    Prints strict depth alignment (e ::ₘ waiting) layouts waiting' (before ++ events)
  | text {depth alignment waiting s layouts waiting' events} :
    Prints strict depth alignment waiting layouts waiting' events →
    Prints strict depth alignment waiting (.text s :: layouts) waiting' (.text s :: events)
  | blank {depth alignment waiting gap layouts waiting' events} : Gap gap →
    Prints strict depth alignment waiting layouts waiting' events →
    Prints strict depth alignment waiting (.blank :: layouts) waiting' (gap ++ events)
  | sequence {depth alignment waiting parts middle layouts waiting' before events} :
    Prints strict depth alignment waiting parts middle before →
    Prints strict depth alignment middle layouts waiting' events →
    Prints strict depth alignment waiting (.sequence parts :: layouts) waiting' (before ++ events)
  | aligned {depth alignment inner waiting parts middle layouts waiting' before events} :
    Prints strict depth inner waiting parts middle before →
    Prints strict depth alignment middle layouts waiting' events →
    Prints strict depth alignment waiting (.aligned inner parts :: layouts) waiting'
      (before ++ events)
  | choice {depth alignment waiting option options middle layouts waiting' before events} :
    option ∈ options →
    Prints strict depth alignment waiting [option] middle before →
    Prints strict depth alignment middle layouts waiting' events →
    Prints strict depth alignment waiting (.choice options :: layouts) waiting' (before ++ events)
  | flat {depth alignment waiting literal gap layouts waiting' events} : Gap gap →
    Prints strict depth alignment waiting layouts waiting' events →
    Prints strict depth alignment waiting (.line false literal :: layouts) waiting' (gap ++ events)
  | newline {depth alignment waiting hard literal layouts waiting' events} :
    (waiting = 0 ∧ depth ≤ 1 ∨ strict = false ∧ 0 < depth) →
    Prints strict depth alignment waiting layouts waiting' events →
    Prints strict depth alignment waiting (.line hard literal :: layouts) waiting'
      (.newline (if literal then [] else alignment) :: events)
  | deferred {depth alignment waiting parts layouts waiting' events} :
    Prints strict depth alignment (⟨decide (0 < depth), alignment, parts⟩ ::ₘ waiting) layouts
      waiting' events →
    Prints strict depth alignment waiting (.deferred parts :: layouts) waiting' events
  | boundary {depth alignment waiting gap layouts waiting' events} :
    (waiting = 0 ∨ strict = false ∧ (0 < depth ∨ ∀ e ∈ waiting, e.nested = true)) → Gap gap →
    Prints strict depth alignment waiting layouts waiting' events →
    Prints strict depth alignment waiting (.boundary :: layouts) waiting' (gap ++ events)

namespace Prints

variable {strict : Bool} {depth : ℕ} {alignment : Bytes} {waiting middle waiting' : Multiset Pending}
  {layouts later : List Layout} {events before : List Event}

theorem append (h : Prints strict depth alignment waiting layouts middle before)
    (hlater : Prints strict depth alignment middle later waiting' events) :
    Prints strict depth alignment waiting (layouts ++ later) waiting' (before ++ events) := by
  induction h with
  | done => exact hlater
  | flush hpart _ _ ih =>
    rw [List.append_assoc]
    exact .flush hpart (ih hlater)
  | text _ ih => exact .text (ih hlater)
  | blank hgap _ ih =>
    rw [List.append_assoc]
    exact .blank hgap (ih hlater)
  | sequence hparts _ _ ih =>
    rw [List.append_assoc]
    exact .sequence hparts (ih hlater)
  | aligned hparts _ _ ih =>
    rw [List.append_assoc]
    exact .aligned hparts (ih hlater)
  | choice hmem hparts _ _ ih =>
    rw [List.append_assoc]
    exact .choice hmem hparts (ih hlater)
  | flat hgap _ ih =>
    rw [List.append_assoc]
    exact .flat hgap (ih hlater)
  | newline hnone _ ih => exact .newline hnone (ih hlater)
  | deferred _ ih => exact .deferred (ih hlater)
  | boundary hnone hgap _ ih =>
    rw [List.append_assoc]
    exact .boundary hnone hgap (ih hlater)

theorem blank_one {gap : List Event} (h : Gap gap) :
    Prints strict depth alignment waiting [.blank] waiting gap := by
  simpa using Prints.blank h .done

theorem flat_one {gap : List Event} {literal : Bool} (h : Gap gap) :
    Prints strict depth alignment waiting [.line false literal] waiting gap := by
  simpa using Prints.flat h .done

theorem sequence_one (h : Prints strict depth alignment waiting layouts waiting' events) :
    Prints strict depth alignment waiting [.sequence layouts] waiting' events := by
  simpa using h.sequence .done

theorem aligned_one {inner : Bytes} (h : Prints strict depth inner waiting layouts waiting' events) :
    Prints strict depth alignment waiting [.aligned inner layouts] waiting' events := by
  simpa using h.aligned .done

theorem choice_one {option : Layout} {options : List Layout} (hmem : option ∈ options)
    (h : Prints strict depth alignment waiting [option] waiting' events) :
    Prints strict depth alignment waiting [.choice options] waiting' events := by
  simpa using Prints.choice hmem h .done

/-- How deep a deferred part stands does not matter, and other parts may wait for longer. -/
theorem frame (h : Prints false depth alignment waiting layouts waiting' events)
    (hdepth : 0 < depth) (deeper : ℕ) (others : Multiset Pending) :
    Prints false (deeper + 1) alignment (waiting + others) layouts (waiting' + others) events := by
  induction h generalizing deeper with
  | done => exact .done
  | flush _ _ ihpart ih =>
    rw [Multiset.cons_add]
    exact .flush (ihpart (by omega) _) (ih hdepth deeper)
  | text _ ih => exact .text (ih hdepth deeper)
  | blank hgap _ ih => exact .blank hgap (ih hdepth deeper)
  | sequence _ _ ihparts ih => exact .sequence (ihparts hdepth deeper) (ih hdepth deeper)
  | aligned _ _ ihparts ih => exact .aligned (ihparts hdepth deeper) (ih hdepth deeper)
  | choice hmem _ _ ihparts ih => exact .choice hmem (ihparts hdepth deeper) (ih hdepth deeper)
  | flat hgap _ ih => exact .flat hgap (ih hdepth deeper)
  | newline _ _ ih => exact .newline (.inr ⟨rfl, by omega⟩) (ih hdepth deeper)
  | deferred _ ih =>
    refine .deferred ?_
    have hrest := ih hdepth deeper
    have hnested (n : ℕ) (hn : 0 < n) : decide (0 < n) = true := by simp [hn]
    rw [hnested _ hdepth, Multiset.cons_add] at hrest
    rw [hnested _ (by omega)]
    exact hrest
  | boundary _ hgap _ ih => exact .boundary (.inr ⟨rfl, .inl (by omega)⟩) hgap (ih hdepth deeper)

/-- Deferred parts leave only parts waiting that they deferred. -/
theorem nested (h : Prints strict depth alignment waiting layouts waiting' events)
    (hdepth : 0 < depth) (hwaiting : ∀ e ∈ waiting, e.nested = true) :
    ∀ e ∈ waiting', e.nested = true := by
  induction h with
  | done => exact hwaiting
  | flush _ _ ihpart ih =>
    exact ih hdepth (ihpart (by omega) fun e he => hwaiting e (Multiset.mem_cons_of_mem he))
  | text _ ih => exact ih hdepth hwaiting
  | blank _ _ ih => exact ih hdepth hwaiting
  | sequence _ _ ihparts ih => exact ih hdepth (ihparts hdepth hwaiting)
  | aligned _ _ ihparts ih => exact ih hdepth (ihparts hdepth hwaiting)
  | choice _ _ _ ihparts ih => exact ih hdepth (ihparts hdepth hwaiting)
  | flat _ _ ih => exact ih hdepth hwaiting
  | newline _ _ ih => exact ih hdepth hwaiting
  | deferred _ ih =>
    refine ih hdepth fun e he => ?_
    rcases Multiset.mem_cons.mp he with rfl | he
    · simpa using hdepth
    · exact hwaiting e he
  | boundary _ _ _ ih => exact ih hdepth hwaiting

/-- Waiting parts may be printed in front, when nothing else is. -/
theorem absorb (h : Prints false depth alignment waiting layouts middle before)
    (hnil : layouts = []) {outer : ℕ} {outerAlignment : Bytes}
    (hlater : Prints false outer outerAlignment middle later waiting' events) :
    Prints false outer outerAlignment waiting later waiting' (before ++ events) := by
  induction h with
  | done => exact hlater
  | flush hpart _ _ ih =>
    rw [List.append_assoc]
    refine .flush ?_ (ih hnil hlater)
    simpa using hpart.frame (by omega) outer 0
  | _ => cases hnil

/-- The empty sequence prints what nothing prints. -/
theorem of_sequence_nil (h : Prints strict depth alignment waiting layouts waiting' events)
    (hlayouts : layouts = [.sequence []]) :
    Prints strict depth alignment waiting [] waiting' events := by
  induction h with
  | flush hpart _ _ ih => exact .flush hpart (ih hlayouts)
  | sequence hparts hrest =>
    cases hlayouts
    exact hparts.append hrest
  | _ => cases hlayouts

/-- A boundary stands where a blank does, when the parts that wait were deferred by deferred
parts. -/
theorem boundary_of_blank (h : Prints false depth alignment waiting layouts waiting' events)
    (hblank : layouts = .blank :: later)
    (hnested : 0 < depth ∨ ∀ e ∈ waiting, e.nested = true) :
    Prints false depth alignment waiting (.boundary :: later) waiting' events := by
  induction h with
  | flush hpart _ _ ih =>
    refine .flush hpart (ih hblank ?_)
    refine hnested.imp id fun hall => ?_
    exact hpart.nested (by omega) fun e he => hall e (Multiset.mem_cons_of_mem he)
  | blank hgap hrest =>
    cases hblank
    exact .boundary (.inr ⟨rfl, hnested⟩) hgap hrest
  | _ => cases hblank

/-! ## Inversion -/

/-- What is printed before a layout: nothing, or a waiting part comes first. -/
theorem text_cases {s : Bytes}
    (h : Prints strict depth alignment waiting (.text s :: later) waiting' events) :
    (∃ more, events = .text s :: more ∧
      Prints strict depth alignment waiting later waiting' more) ∨
    ∃ e others middle before more, waiting = e ::ₘ others ∧ events = before ++ more ∧
      Prints strict (depth + 1) e.alignment others e.parts middle before ∧
      Prints strict depth alignment middle (.text s :: later) waiting' more := by
  cases h with
  | text hrest => exact .inl ⟨_, rfl, hrest⟩
  | flush hpart hrest => exact .inr ⟨_, _, _, _, _, rfl, rfl, hpart, hrest⟩

theorem hardline_cases {literal : Bool}
    (h : Prints true depth alignment waiting (.line true literal :: later) waiting' events) :
    waiting = 0 ∧ depth ≤ 1 ∨
    ∃ e others middle before more, waiting = e ::ₘ others ∧ events = before ++ more ∧
      Prints true (depth + 1) e.alignment others e.parts middle before := by
  cases h with
  | newline hnone _ => exact .inl (by simpa using hnone)
  | flush hpart hrest => exact .inr ⟨_, _, _, _, _, rfl, rfl, hpart⟩

theorem deferred_cases {parts : List Layout}
    (h : Prints strict depth alignment waiting (.deferred parts :: later) waiting' events) :
    Prints strict depth alignment (⟨decide (0 < depth), alignment, parts⟩ ::ₘ waiting) later
      waiting' events ∨
    ∃ e others middle before more, waiting = e ::ₘ others ∧ events = before ++ more ∧
      Prints strict (depth + 1) e.alignment others e.parts middle before := by
  cases h with
  | deferred hrest => exact .inl hrest
  | flush hpart hrest => exact .inr ⟨_, _, _, _, _, rfl, rfl, hpart⟩

theorem sequence_cases {parts : List Layout}
    (h : Prints strict depth alignment waiting (.sequence parts :: later) waiting' events) :
    (∃ middle before more, events = before ++ more ∧
      Prints strict depth alignment waiting parts middle before) ∨
    ∃ e others, waiting = e ::ₘ others := by
  cases h with
  | sequence hparts hrest => exact .inl ⟨_, _, _, rfl, hparts⟩
  | flush hpart hrest => exact .inr ⟨_, _, rfl⟩

/-- When every part starts with a text, one of these texts is printed first. -/
theorem starts (h : Prints strict depth alignment waiting layouts waiting' events)
    {texts : List Bytes} (hwaiting : ∀ e ∈ waiting, ∃ s ∈ texts, ∃ rest, e.parts = .text s :: rest)
    (hlayouts : ∃ s ∈ texts, ∃ rest, layouts = .text s :: rest) :
    ∃ s ∈ texts, ∃ more, events = .text s :: more := by
  induction h with
  | text _ _ =>
    obtain ⟨s, hs, rest, heq⟩ := hlayouts
    cases heq
    exact ⟨_, hs, _, rfl⟩
  | flush _ _ ihpart _ =>
    obtain ⟨s, hs, more, rfl⟩ :=
      ihpart (fun e he => hwaiting e (Multiset.mem_cons_of_mem he))
        (hwaiting _ (Multiset.mem_cons_self _ _))
    exact ⟨s, hs, _, rfl⟩
  | _ =>
    obtain ⟨s, hs, rest, heq⟩ := hlayouts
    cases heq

end Prints

end Mago.Printing
