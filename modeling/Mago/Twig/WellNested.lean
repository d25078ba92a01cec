import Mago.Twig.Nesting

/-!
# Error-free Twig tokens are nested

The stacks of the lexer are bounded and drop what is pushed on a full one. While no bracket is
dropped, the brackets and the open tag are what the tokens leave open. A dropped mode shows as
one text mode less than there are texts open, which no step makes up for.
-/
namespace Mago.Twig
open Mago.Library Mago.Syntax

def Opener.tagMode : Opener → LexerMode
  | .variable => .variable
  | _ => .block

def IsTextMode (mode : LexerMode) : Prop := mode = .doubleQuoted ∨ mode = .interpolation

/-- How many strings and interpolations are open. -/
def openTexts (brackets : List Bracket) : ℕ := brackets.countP fun b => b.kind.isText

/-- The state inside a tag: over the tag's mode lie the modes of open texts, at most as many as
there are texts open. -/
structure InsideTag (s : LexerState) (tag : Opener) (texts : List LexerMode) : Prop where
  isTag : tag = .block ∨ tag = .variable
  modes : s.mode :: s.modeStack.items = texts ++ [tag.tagMode, .data]
  areTexts : ∀ mode ∈ texts, IsTextMode mode
  length_le : texts.length ≤ openTexts s.brackets.items

/-- The state is that of a lexer whose tokens leave the list open. -/
inductive Nests : LexerState → List Opener → Prop
  | data {s} (hmode : s.mode = .data) (hstack : s.modeStack.items = [])
      (hbrackets : s.brackets.items = []) : Nests s []
  | verbatimTag {s} {kind : VerbatimKind} {stage : VerbatimStage}
      (hmode : s.mode = .verbatim kind stage)
      (hstage : stage = .entering ∨ stage = .emitted ∨ stage = .endOpened ∨ stage = .ended)
      (hstack : s.modeStack.items = [.data]) (hbrackets : s.brackets.items = []) :
      Nests s [.block]
  | verbatimBody {s} {kind : VerbatimKind} {stage : VerbatimStage}
      (hmode : s.mode = .verbatim kind stage) (hstage : stage = .body ∨ stage = .endingOpened)
      (hstack : s.modeStack.items = [.data]) (hbrackets : s.brackets.items = []) : Nests s []
  | tag {s} {tag : Opener} {texts : List LexerMode} (h : InsideTag s tag texts) :
      Nests s (s.brackets.items.map Bracket.kind ++ [tag])

section Inversion

variable {s : LexerState} {pending : List Opener} {tag : Opener} {texts : List LexerMode}

/-- The mode is the tag's, or a text's on top of it. -/
theorem InsideTag.mode_cases (h : InsideTag s tag texts) :
    (texts = [] ∧ s.mode = tag.tagMode ∧ s.modeStack.items = [.data]) ∨
      ∃ rest, texts = s.mode :: rest ∧ IsTextMode s.mode ∧
        s.modeStack.items = rest ++ [tag.tagMode, .data] := by
  have hmodes := h.modes
  cases texts with
  | nil =>
    obtain ⟨hmode, hstack⟩ := List.cons.inj hmodes
    exact .inl ⟨rfl, hmode, hstack⟩
  | cons mode rest =>
    obtain ⟨hmode, hstack⟩ := List.cons.inj hmodes
    refine .inr ⟨rest, by rw [hmode], ?_, hstack⟩
    rw [hmode]
    exact h.areTexts mode List.mem_cons_self

theorem InsideTag.mode_ne (h : InsideTag s tag texts) :
    s.mode ≠ .data ∧ ∀ kind stage, s.mode ≠ .verbatim kind stage := by
  obtain ⟨-, hmode, -⟩ | ⟨-, -, hmode, -⟩ := h.mode_cases
  · obtain rfl | rfl := h.isTag <;> simp [hmode, Opener.tagMode]
  · obtain hmode | hmode := hmode <;> simp [hmode]

theorem Nests.of_data (h : Nests s pending) (hmode : s.mode = .data) :
    pending = [] ∧ s.modeStack.items = [] ∧ s.brackets.items = [] := by
  cases h with
  | data _ hstack hbrackets => exact ⟨rfl, hstack, hbrackets⟩
  | verbatimTag hverbatim => simp [hmode] at hverbatim
  | verbatimBody hverbatim => simp [hmode] at hverbatim
  | tag hinside => exact absurd hmode hinside.mode_ne.1

theorem Nests.of_verbatim (h : Nests s pending) {kind : VerbatimKind} {stage : VerbatimStage}
    (hmode : s.mode = .verbatim kind stage) :
    s.modeStack.items = [.data] ∧ s.brackets.items = [] ∧
      (pending = [.block] ∧
          (stage = .entering ∨ stage = .emitted ∨ stage = .endOpened ∨ stage = .ended) ∨
        pending = [] ∧ (stage = .body ∨ stage = .endingOpened)) := by
  cases h with
  | data hdata => simp [hmode] at hdata
  | verbatimTag hverbatim hstage hstack hbrackets =>
    rw [hmode] at hverbatim
    obtain ⟨-, rfl⟩ := LexerMode.verbatim.inj hverbatim
    exact ⟨hstack, hbrackets, .inl ⟨rfl, hstage⟩⟩
  | verbatimBody hverbatim hstage hstack hbrackets =>
    rw [hmode] at hverbatim
    obtain ⟨-, rfl⟩ := LexerMode.verbatim.inj hverbatim
    exact ⟨hstack, hbrackets, .inr ⟨rfl, hstage⟩⟩
  | tag hinside => exact absurd hmode (hinside.mode_ne.2 kind stage)

theorem Nests.insideTag (h : Nests s pending) (hdata : s.mode ≠ .data)
    (hverbatim : ∀ kind stage, s.mode ≠ .verbatim kind stage) :
    ∃ tag texts, InsideTag s tag texts ∧
      pending = s.brackets.items.map Bracket.kind ++ [tag] := by
  cases h with
  | data hmode => exact absurd hmode hdata
  | verbatimTag hmode => exact absurd hmode (hverbatim _ _)
  | verbatimBody hmode => exact absurd hmode (hverbatim _ _)
  | tag hinside => exact ⟨_, _, hinside, rfl⟩

theorem Nests.of_expression (h : Nests s pending) (hmode : s.ReadsExpression) :
    ∃ tag texts, InsideTag s tag texts ∧
      pending = s.brackets.items.map Bracket.kind ++ [tag] := by
  apply h.insideTag
  · obtain hmode | hmode | hmode := hmode <;> simp [hmode]
  · obtain hmode | hmode | hmode := hmode <;> simp [hmode]

theorem Nests.of_text (h : Nests s pending) (hmode : IsTextMode s.mode) :
    ∃ tag texts, InsideTag s tag texts ∧
      pending = s.brackets.items.map Bracket.kind ++ [tag] := by
  apply h.insideTag
  · obtain hmode | hmode := hmode <;> simp [hmode]
  · obtain hmode | hmode := hmode <;> simp [hmode]

end Inversion

/-! ## A turn -/

section Turns

variable {s next : LexerState} {pending : List Opener} {tag : Opener} {texts : List LexerMode}

/-- What opens a bracket, a string or an interpolation. -/
def opensBracket : Nesting Opener → Bool
  | .opens k => !k.isTag
  | _ => false

theorem BoundedStack.items_push {α : Type} {bound : ℕ} {stack : BoundedStack α bound} {x : α}
    (h : stack.items.length < bound) : (stack.push x).items = x :: stack.items := by
  simp [BoundedStack.push, h]

theorem BoundedStack.items_push_cases {α : Type} {bound : ℕ} (stack : BoundedStack α bound)
    (x : α) : (stack.push x).items = x :: stack.items ∨
      stack.items.length = bound ∧ (stack.push x).items = stack.items := by
  by_cases h : stack.items.length < bound
  · exact .inl (items_push h)
  · exact .inr ⟨by have := stack.le; omega, by simp [BoundedStack.push, h]⟩

theorem BoundedStack.items_of_last {α : Type} {bound : ℕ} {stack : BoundedStack α bound} {x : α}
    (h : stack.last = some x) : stack.items = x :: stack.pop.items := by
  obtain ⟨rest, hrest⟩ := List.head?_eq_some_iff.mp h
  show stack.items = x :: stack.items.tail
  rw [hrest]
  rfl

theorem openTexts_cons (b : Bracket) (brackets : List Bracket) :
    openTexts (b :: brackets) = openTexts brackets + if b.kind.isText then 1 else 0 := by
  rw [openTexts, List.countP_cons]
  rfl

/-- A text mode on top: the mode below is saved, or dropped from a full stack. -/
theorem InsideTag.enter (h : InsideTag s tag texts) {mode : LexerMode} (hmode : IsTextMode mode)
    {b : Bracket} (hb : b.kind.isText = true)
    (hroom : s.brackets.items.length < maxBracketDepth) :
    ∃ texts', InsideTag ((s.pushBracket b).enter s.mode mode) tag texts' := by
  have hbrackets : ((s.pushBracket b).enter s.mode mode).brackets.items =
      b :: s.brackets.items := BoundedStack.items_push hroom
  have hlength := h.length_le
  obtain hpush | ⟨hfull, hpush⟩ := s.modeStack.items_push_cases s.mode
  · refine ⟨mode :: texts, h.isTag, ?_, ?_, ?_⟩
    · show mode :: (s.modeStack.push s.mode).items = _
      rw [hpush, h.modes]
      rfl
    · intro m hm
      obtain rfl | hm := List.mem_cons.mp hm
      · exact hmode
      · exact h.areTexts m hm
    · rw [hbrackets, openTexts_cons, if_pos hb, List.length_cons]
      omega
  · obtain ⟨-, -, hstack⟩ | ⟨rest, htexts, -, hstack⟩ := h.mode_cases
    · rw [hstack] at hfull
      exact absurd hfull (by decide)
    · refine ⟨mode :: rest, h.isTag, ?_, ?_, ?_⟩
      · show mode :: (s.modeStack.push s.mode).items = _
        rw [hpush, hstack]
        rfl
      · intro m hm
        obtain rfl | hm := List.mem_cons.mp hm
        · exact hmode
        · exact h.areTexts m (htexts ▸ List.mem_cons_of_mem _ hm)
      · rw [htexts, List.length_cons] at hlength
        rw [hbrackets, openTexts_cons, if_pos hb, List.length_cons]
        omega

/-- A text that closes takes its mode and its bracket away. -/
theorem InsideTag.leave (h : InsideTag s tag texts) (hmode : IsTextMode s.mode) {b : Bracket}
    (hlast : s.brackets.last = some b) (hb : b.kind.isText = true) :
    ∃ texts', InsideTag s.popBracket.leave tag texts' := by
  have hitems := BoundedStack.items_of_last hlast
  have hlength := h.length_le
  obtain ⟨-, htag, -⟩ | ⟨rest, htexts, -, hstack⟩ := h.mode_cases
  · rw [htag] at hmode
    obtain rfl | rfl := h.isTag <;> simp [Opener.tagMode, IsTextMode] at hmode
  · refine ⟨rest, h.isTag, ?_, ?_, ?_⟩
    · show s.modeStack.last.getD .data :: s.modeStack.pop.items = _
      rw [← hstack]
      cases hcons : s.modeStack.items with
      | nil => simp [hcons] at hstack
      | cons mode modes => simp [BoundedStack.last, BoundedStack.pop, hcons]
    · intro m hm
      exact h.areTexts m (htexts ▸ List.mem_cons_of_mem _ hm)
    · rw [hitems, openTexts_cons, if_pos hb, htexts, List.length_cons] at hlength
      show rest.length ≤ openTexts s.brackets.pop.items
      omega

theorem InsideTag.pushBracket (h : InsideTag s tag texts) {b : Bracket}
    (hb : b.kind.isText = false) (hroom : s.brackets.items.length < maxBracketDepth) :
    InsideTag (s.pushBracket b) tag texts := by
  refine ⟨h.isTag, h.modes, h.areTexts, ?_⟩
  show texts.length ≤ openTexts (s.brackets.push b).items
  rw [BoundedStack.items_push hroom, openTexts_cons, hb]
  exact h.length_le

theorem InsideTag.popBracket (h : InsideTag s tag texts) {b : Bracket}
    (hlast : s.brackets.last = some b) (hb : b.kind.isText = false) :
    InsideTag s.popBracket tag texts := by
  refine ⟨h.isTag, h.modes, h.areTexts, ?_⟩
  have hlength := h.length_le
  rw [BoundedStack.items_of_last hlast, openTexts_cons, hb] at hlength
  exact hlength

theorem step_closes (k : Opener) (rest : List Opener) :
    Nesting.step (k :: rest) (.closes k) = some rest := by
  simp [Nesting.step]

/-- A tag closes when nothing is open in it. -/
theorem InsideTag.close (h : InsideTag s tag texts) (hbrackets : s.brackets.items = []) :
    s.mode = tag.tagMode ∧ Nests s.leave [] := by
  have hlength := h.length_le
  rw [hbrackets] at hlength
  have htexts : texts = [] := List.length_eq_zero_iff.mp (Nat.le_zero.mp hlength)
  obtain ⟨-, hmode, hstack⟩ | ⟨rest, hcons, -, -⟩ := h.mode_cases
  · refine ⟨hmode, .data ?_ ?_ hbrackets⟩
    · simp [LexerState.leave, BoundedStack.last, hstack]
    · simp [LexerState.leave, BoundedStack.pop, hstack]
  · simp [htexts] at hcons

theorem Nests.enter_tag (h : Nests s pending) (hmode : s.mode = .data) (htag : tag = .block ∨
    tag = .variable) : pending = [] ∧ Nests (s.enter .data tag.tagMode) [tag] := by
  obtain ⟨hpending, hstack, hbrackets⟩ := h.of_data hmode
  have hpush : (s.modeStack.push .data).items = [.data] := by
    rw [BoundedStack.items_push (by rw [hstack]; decide), hstack]
  have hinside : InsideTag (s.enter .data tag.tagMode) tag [] :=
    ⟨htag, by simp [LexerState.enter, hpush], by simp, by simp⟩
  have hnests := Nests.tag hinside
  refine ⟨hpending, ?_⟩
  simpa [LexerState.enter, hbrackets] using hnests

/-- While no bracket is dropped, a turn opens and closes what its token does. -/
theorem Turn.nests {letter : Nesting Opener} (h : Turn s letter next) (hnests : Nests s pending)
    (hroom : opensBracket letter = true → s.brackets.items.length < maxBracketDepth) :
    ∃ after, Nesting.step pending letter = some after ∧ Nests next after := by
  cases h with
  | within => exact ⟨pending, rfl, hnests⟩
  | openBlock hmode hentered =>
    obtain rfl | ⟨kind, rfl⟩ := hentered
    · have henter := hnests.enter_tag hmode (.inl (Eq.refl Opener.block))
      obtain ⟨rfl, hafter⟩ := henter
      exact ⟨[.block], rfl, hafter⟩
    · obtain ⟨rfl, hstack, hbrackets⟩ := hnests.of_data hmode
      refine ⟨[.block], rfl, .verbatimTag rfl (.inl rfl) ?_ hbrackets⟩
      show (s.modeStack.push .data).items = _
      rw [BoundedStack.items_push (by rw [hstack]; decide), hstack]
  | openVariable hmode =>
    have henter := hnests.enter_tag hmode (.inr (Eq.refl Opener.variable))
    obtain ⟨rfl, hafter⟩ := henter
    exact ⟨[.variable], rfl, hafter⟩
  | closeBlock hmode hbrackets =>
    obtain ⟨tag, texts, hinside, rfl⟩ := hnests.of_expression (.inl hmode)
    obtain ⟨htag, hafter⟩ := hinside.close hbrackets
    have hblock : tag = .block := by
      obtain rfl | rfl := hinside.isTag
      · rfl
      · simp [hmode, Opener.tagMode] at htag
    rw [hbrackets, hblock]
    exact ⟨[], step_closes _ _, hafter⟩
  | closeVariable hmode hbrackets =>
    obtain ⟨tag, texts, hinside, rfl⟩ := hnests.of_expression (.inr (.inl hmode))
    obtain ⟨htag, hafter⟩ := hinside.close hbrackets
    have hvariable : tag = .variable := by
      obtain rfl | rfl := hinside.isTag
      · simp [hmode, Opener.tagMode] at htag
      · rfl
    rw [hbrackets, hvariable]
    exact ⟨[], step_closes _ _, hafter⟩
  | @openBracket b hmode hb =>
    obtain ⟨tag, texts, hinside, rfl⟩ := hnests.of_expression hmode
    have hless := hroom (by simp [opensBracket, b.kind_not_isTag])
    refine ⟨_, rfl, ?_⟩
    have hafter := Nests.tag (hinside.pushBracket hb hless)
    rwa [show (s.pushBracket b).brackets.items = b :: s.brackets.items from
      BoundedStack.items_push hless] at hafter
  | @closeBracket b hmode hlast hb =>
    obtain ⟨tag, texts, hinside, rfl⟩ := hnests.of_expression hmode
    rw [BoundedStack.items_of_last hlast]
    exact ⟨_, step_closes _ _, .tag (hinside.popBracket hlast hb)⟩
  | @openString b hmode hb =>
    obtain ⟨tag, texts, hinside, rfl⟩ := hnests.of_expression hmode
    have hless := hroom rfl
    obtain ⟨texts', hentered⟩ := hinside.enter (.inl rfl) (by rw [hb]; rfl) hless
    refine ⟨_, rfl, ?_⟩
    have hafter := Nests.tag hentered
    rw [show ((s.pushBracket b).enter s.mode .doubleQuoted).brackets.items =
      b :: s.brackets.items from BoundedStack.items_push hless, List.map_cons, hb] at hafter
    exact hafter
  | @closeString b hmode hlast hb =>
    obtain ⟨tag, texts, hinside, rfl⟩ := hnests.of_text (.inl hmode)
    obtain ⟨texts', hleft⟩ := hinside.leave (.inl hmode) hlast (by rw [hb]; rfl)
    rw [BoundedStack.items_of_last hlast, List.map_cons, hb]
    exact ⟨_, step_closes _ _, .tag hleft⟩
  | @openInterpolation b hmode hb =>
    obtain ⟨tag, texts, hinside, rfl⟩ := hnests.of_text (.inl hmode)
    have hless := hroom rfl
    obtain ⟨texts', hentered⟩ := hinside.enter (.inr rfl) (by rw [hb]; rfl) hless
    refine ⟨_, rfl, ?_⟩
    have hafter := Nests.tag hentered
    rw [show ((s.pushBracket b).enter s.mode .interpolation).brackets.items =
      b :: s.brackets.items from BoundedStack.items_push hless, List.map_cons, hb] at hafter
    exact hafter
  | @closeInterpolation b hmode hlast hb =>
    obtain ⟨tag, texts, hinside, rfl⟩ := hnests.of_text (.inr hmode)
    obtain ⟨texts', hleft⟩ := hinside.leave (.inr hmode) hlast (by rw [hb]; rfl)
    rw [BoundedStack.items_of_last hlast, List.map_cons, hb]
    exact ⟨_, step_closes _ _, .tag hleft⟩
  | verbatim hmode hstage =>
    obtain ⟨hstack, hbrackets, ⟨rfl, hstages⟩ | ⟨rfl, hstages⟩⟩ := hnests.of_verbatim hmode
    · refine ⟨[.block], rfl, .verbatimTag rfl ?_ hstack hbrackets⟩
      obtain rfl | rfl | rfl := hstage <;> simp [VerbatimStage.after] at hstages ⊢
    · refine ⟨[], rfl, .verbatimBody rfl ?_ hstack hbrackets⟩
      obtain rfl | rfl | rfl := hstage <;> simp [VerbatimStage.after] at hstages ⊢
  | closeVerbatimStart hmode =>
    obtain ⟨hstack, hbrackets, ⟨rfl, -⟩ | ⟨rfl, hstages⟩⟩ := hnests.of_verbatim hmode
    · exact ⟨[], step_closes _ _, .verbatimBody rfl (.inl rfl) hstack hbrackets⟩
    · simp at hstages
  | openVerbatimEnd hmode hstage =>
    obtain ⟨hstack, hbrackets, ⟨rfl, hstages⟩ | ⟨rfl, -⟩⟩ := hnests.of_verbatim hmode
    · obtain rfl | rfl := hstage <;> simp at hstages
    · exact ⟨[.block], rfl, .verbatimTag rfl (by simp) hstack hbrackets⟩
  | closeVerbatimEnd hmode =>
    obtain ⟨hstack, hbrackets, ⟨rfl, -⟩ | ⟨rfl, hstages⟩⟩ := hnests.of_verbatim hmode
    · refine ⟨[], step_closes _ _, .data ?_ ?_ hbrackets⟩
      · simp [LexerState.leave, BoundedStack.last, hstack]
      · simp [LexerState.leave, BoundedStack.pop, hstack]
    · simp at hstages

/-- Every bracket that is popped is closed, and what is pushed is opened, as is what a full stack
drops. -/
theorem Turn.count_brackets {letter : Nesting Opener} (h : Turn s letter next) :
    Nesting.closed (fun k => !k.isTag) [letter] + next.brackets.items.length ≤
        Nesting.opened (fun k => !k.isTag) [letter] + s.brackets.items.length ∧
      (opensBracket letter = true → s.brackets.items.length = maxBracketDepth →
        Nesting.closed (fun k => !k.isTag) [letter] + next.brackets.items.length <
          Nesting.opened (fun k => !k.isTag) [letter] + s.brackets.items.length) := by
  have hpush (b : Bracket) : (s.brackets.push b).items.length ≤ s.brackets.items.length + 1 ∧
      (s.brackets.items.length = maxBracketDepth →
        (s.brackets.push b).items.length < s.brackets.items.length + 1) := by
    have hle := (s.brackets.push b).le
    obtain hitems | ⟨-, hitems⟩ := s.brackets.items_push_cases b
    · rw [hitems, List.length_cons] at hle ⊢
      omega
    · rw [hitems]
      omega
  have hpop {b : Bracket} (hlast : s.brackets.last = some b) :
      s.brackets.items.length = s.brackets.pop.items.length + 1 := by
    rw [BoundedStack.items_of_last hlast, List.length_cons]
  cases h with
  | @openBracket b =>
    have := hpush b
    simp [Nesting.closed, Nesting.opened, b.kind_not_isTag, LexerState.pushBracket_brackets]
    omega
  | @closeBracket b _ hlast =>
    have := hpop hlast
    simp [Nesting.closed, Nesting.opened, opensBracket, b.kind_not_isTag,
      LexerState.popBracket_brackets]
    omega
  | @openString b =>
    have := hpush b
    simp [Nesting.closed, Nesting.opened, Opener.isTag, LexerState.enter_brackets,
      LexerState.pushBracket_brackets]
    omega
  | closeString _ hlast =>
    have := hpop hlast
    simp [Nesting.closed, Nesting.opened, opensBracket, Opener.isTag, LexerState.leave_brackets,
      LexerState.popBracket_brackets]
    omega
  | @openInterpolation b =>
    have := hpush b
    simp [Nesting.closed, Nesting.opened, Opener.isTag, LexerState.enter_brackets,
      LexerState.pushBracket_brackets]
    omega
  | closeInterpolation _ hlast =>
    have := hpop hlast
    simp [Nesting.closed, Nesting.opened, opensBracket, Opener.isTag, LexerState.leave_brackets,
      LexerState.popBracket_brackets]
    omega
  | _ =>
    simp [Nesting.closed, Nesting.opened, opensBracket, Opener.isTag, LexerState.enter_brackets,
      LexerState.leave_brackets, LexerState.setMode_brackets]

end Turns

/-! ## Runs -/

namespace TwigLexer

variable {source : List UInt8} {lexer next : TwigLexer} {pending : List Opener}

/-- The word that the tokens make. -/
def nestingWord (tokens : List TwigToken) : List (Nesting Opener) :=
  tokens.map fun token => token.kind.nesting

/-- A run from the lexer opens a bracket, a string or an interpolation while as many are open as
the stack holds. -/
inductive Overflows : TwigLexer → Prop
  | here {lexer next token} (h : lexer.advance = (some (.ok token), next))
      (hopen : opensBracket token.kind.nesting = true)
      (hfull : lexer.brackets.items.length = maxBracketDepth) : Overflows lexer
  | later {lexer next token} (h : lexer.advance = (some (.ok token), next))
      (hnext : Overflows next) : Overflows lexer

/-- At the end of the input nothing is open. -/
theorem ended_of_advance (hlive : lexer.eofEmitted = false)
    (h : lexer.advance = (none, next)) :
    lexer.mode = .data ∧ lexer.modeStack.items = [] ∧ lexer.brackets.items = [] := by
  unfold advance at h
  rw [if_neg (by simp [hlive])] at h
  split at h
  case h_1 =>
    have hend : lexer.endOfInput = none := by
      simpa using (Prod.mk.inj h).1
    unfold endOfInput at hend
    split at hend
    · cases hend
    · rename_i hlast
      split_ifs at hend with hdata
      exact ⟨hdata.2, List.isEmpty_iff.mp hdata.1, List.head?_eq_none_iff.mp hlast⟩
  case h_2 => split at h <;> cases h

/-- The tokens of a run without an error and without an overflow close what is open. -/
theorem run_of_not_overflows {calls : ℕ} {result : TokenRun TwigLexer TwigToken SyntaxError}
    (hreads : Reads source 0 lexer.input) (hlive : lexer.eofEmitted = false)
    (hrun : runTokens advance calls lexer = some result) (herror : result.error = none)
    (hnests : Nests lexer.state pending) (hfits : ¬ Overflows lexer) :
    Nesting.run pending (nestingWord result.tokens) = some [] := by
  induction calls generalizing lexer result pending with
  | zero => cases hrun
  | succ calls ih =>
    unfold runTokens at hrun
    cases hadvance : lexer.advance with
    | mk item after =>
      cases item with
      | none =>
        rw [hadvance] at hrun
        cases hrun
        obtain ⟨hmode, -, -⟩ := ended_of_advance hlive hadvance
        obtain ⟨rfl, -, -⟩ := hnests.of_data hmode
        rfl
      | some read =>
        cases read with
        | error error =>
          rw [hadvance] at hrun
          cases hrun
          cases herror
        | ok token =>
          rw [hadvance] at hrun
          obtain ⟨tail, htail, rfl⟩ := Option.map_eq_some_iff.mp hrun
          obtain ⟨hrunning, -, -, -, hafter⟩ := advance_ok hreads hadvance
          have hroom : opensBracket token.kind.nesting = true →
              lexer.brackets.items.length < maxBracketDepth := by
            intro hopen
            have hle := lexer.brackets.le
            have hne : lexer.brackets.items.length ≠ maxBracketDepth := fun hfull =>
              hfits (.here hadvance hopen hfull)
            omega
          obtain ⟨open', hstep, hnext⟩ := (turn_of_advance hadvance).nests hnests hroom
          have hrest := ih hrunning.reads hafter htail herror hnext fun hover =>
            hfits (.later hadvance hover)
          show (Nesting.step pending token.kind.nesting).bind _ = _
          rw [hstep]
          exact hrest

/-- A run without an error opens at least as many brackets as it closes, and more of them when
it overflows. -/
theorem count_of_run {calls : ℕ} {result : TokenRun TwigLexer TwigToken SyntaxError}
    (hreads : Reads source 0 lexer.input) (hlive : lexer.eofEmitted = false)
    (hrun : runTokens advance calls lexer = some result) (herror : result.error = none) :
    result.stopped.mode = .data ∧
      Nesting.closed (fun k => !k.isTag) (nestingWord result.tokens) ≤
        Nesting.opened (fun k => !k.isTag) (nestingWord result.tokens) +
          lexer.brackets.items.length ∧
      (Overflows lexer → Nesting.closed (fun k => !k.isTag) (nestingWord result.tokens) <
        Nesting.opened (fun k => !k.isTag) (nestingWord result.tokens) +
          lexer.brackets.items.length) := by
  induction calls generalizing lexer result with
  | zero => cases hrun
  | succ calls ih =>
    unfold runTokens at hrun
    cases hadvance : lexer.advance with
    | mk item after =>
      cases item with
      | none =>
        rw [hadvance] at hrun
        cases hrun
        obtain ⟨hmode, -, -⟩ := ended_of_advance hlive hadvance
        refine ⟨hmode, by simp [nestingWord, Nesting.closed], ?_⟩
        intro hover
        cases hover with
        | here h => simp [hadvance] at h
        | later h => simp [hadvance] at h
      | some read =>
        cases read with
        | error error =>
          rw [hadvance] at hrun
          cases hrun
          cases herror
        | ok token =>
          rw [hadvance] at hrun
          obtain ⟨tail, htail, rfl⟩ := Option.map_eq_some_iff.mp hrun
          obtain ⟨hrunning, -, -, -, hafter⟩ := advance_ok hreads hadvance
          obtain ⟨hmode, hle, hlt⟩ := ih hrunning.reads hafter htail herror
          obtain ⟨hturn, hfull⟩ := (turn_of_advance hadvance).count_brackets
          have hcons : nestingWord (token :: tail.tokens) =
              token.kind.nesting :: nestingWord tail.tokens := rfl
          have hbefore : lexer.state.brackets = lexer.brackets := rfl
          have hbehind : after.state.brackets = after.brackets := rfl
          rw [hbefore, hbehind] at hturn hfull
          refine ⟨hmode, ?_, ?_⟩
          · rw [hcons, Nesting.closed_cons, Nesting.opened_cons]
            omega
          · intro hover
            rw [hcons, Nesting.closed_cons, Nesting.opened_cons]
            cases hover with
            | here h hopen hlength =>
              obtain ⟨htoken, -⟩ := Prod.mk.inj (hadvance.symm.trans h)
              cases htoken
              have := hfull hopen hlength
              omega
            | later h hnext =>
              obtain ⟨htoken, hsame⟩ := Prod.mk.inj (hadvance.symm.trans h)
              cases hsame
              have := hlt hnext
              omega

/-- The tokens of a run without an error are nested and the run ends in data, iff no bracket
opens while the stack is full. -/
theorem wellNested_iff {calls : ℕ} {result : TokenRun TwigLexer TwigToken SyntaxError}
    (hrun : runTokens advance calls (new (.new source)) = some result)
    (herror : result.error = none) :
    (Nesting.WellNested (nestingWord result.tokens) ∧ result.stopped.mode = .data) ↔
      ¬ Overflows (new (.new source)) := by
  have hreads : Reads source 0 (new (.new source)).input := ⟨rfl, rfl⟩
  obtain ⟨hmode, -, hlt⟩ := count_of_run hreads rfl hrun herror
  constructor
  · intro hnested hover
    have hcount := hnested.1.count (p := fun k => !k.isTag)
    have hlt' := hlt hover
    rw [hcount] at hlt'
    exact absurd hlt' (by simp [new, BoundedStack.empty])
  · intro hfits
    exact ⟨run_of_not_overflows hreads rfl hrun herror (.data rfl rfl rfl) hfits, hmode⟩

/-- Two braces, one bracket more than the stack holds, as many closers as it holds, two braces. -/
def overfull : List UInt8 :=
  byteString "\x7b\x7b" ++ List.replicate 129 (byte '(') ++ List.replicate 128 (byte ')') ++
    byteString "\x7d\x7d"

/-- The bracket that the full stack drops is never closed, and no error tells. -/
theorem dropped_bracket_not_nested :
    ¬ ∀ (source : List UInt8) (calls : ℕ) (result : TokenRun TwigLexer TwigToken SyntaxError),
      runTokens advance calls (new (.new source)) = some result → result.error = none →
        Nesting.WellNested (nestingWord result.tokens) ∧ result.stopped.mode = .data := by
  intro h
  have hrun : ((runTokens advance 262 (new (.new overfull))).any fun result =>
      result.error.isNone && !decide (Nesting.WellNested (nestingWord result.tokens))) = true := by
    decide +kernel
  obtain ⟨result, hresult, hbad⟩ := (Option.any_eq_true _ _).mp hrun
  obtain ⟨herror, hnot⟩ := Bool.and_eq_true_iff.mp hbad
  have hnested := (h overfull 262 result hresult (Option.isNone_iff_eq_none.mp herror)).1
  simp [hnested] at hnot

/-- A string with an interpolation, in a tag. -/
theorem wellNested_iff_interpolation :
    ∃ result, runTokens advance 20
        (new (.new (byteString "\x7b\x7b \"a#\x7b(b)\x7d\" \x7d\x7d"))) = some result ∧
      result.error = none ∧
      ((Nesting.WellNested (nestingWord result.tokens) ∧ result.stopped.mode = .data) ↔
        ¬ Overflows (new (.new (byteString "\x7b\x7b \"a#\x7b(b)\x7d\" \x7d\x7d")))) := by
  have hrun : ((runTokens advance 20
      (new (.new (byteString "\x7b\x7b \"a#\x7b(b)\x7d\" \x7d\x7d")))).any fun result =>
        result.error.isNone) = true := by
    decide +kernel
  obtain ⟨result, hresult, herror⟩ := (Option.any_eq_true _ _).mp hrun
  have herror' := Option.isNone_iff_eq_none.mp herror
  exact ⟨result, hresult, herror', wellNested_iff hresult herror'⟩

end TwigLexer

end Mago.Twig
