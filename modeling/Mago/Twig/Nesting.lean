import Mago.Library.Nesting
import Mago.Twig.Tiling

/-!
# Nested Twig tokens

What a token opens and closes, and what a step of the lexer does to its modes and brackets.
-/
namespace Mago.Twig
open Mago.Library Mago.Syntax

inductive Opener
  | block | variable | paren | bracket | brace | string | interpolation
  deriving DecidableEq, Repr

def Opener.isTag : Opener → Bool
  | .block | .variable => true
  | _ => false

/-- Strings and interpolations have modes of their own. -/
def Opener.isText : Opener → Bool
  | string | interpolation => true
  | _ => false

def TwigTokenKind.nesting : TwigTokenKind → Nesting Opener
  | openBlock | openBlockDash | openBlockTilde => .opens .block
  | closeBlock | closeBlockDash | closeBlockTilde => .closes .block
  | openVariable | openVariableDash | openVariableTilde => .opens .variable
  | closeVariable | closeVariableDash | closeVariableTilde => .closes .variable
  | doubleQuoteStart => .opens .string
  | doubleQuoteEnd => .closes .string
  | interpolationStart => .opens .interpolation
  | interpolationEnd => .closes .interpolation
  | leftParen => .opens .paren
  | rightParen => .closes .paren
  | leftBracket => .opens .bracket
  | rightBracket => .closes .bracket
  | leftBrace => .opens .brace
  | rightBrace => .closes .brace
  | _ => .within

def Bracket.kind (b : Bracket) : Opener :=
  match char b.opener with
  | '(' => .paren
  | '[' => .bracket
  | '\x7b' => .brace
  | '"' => .string
  | _ => .interpolation

theorem Bracket.kind_not_isTag (b : Bracket) : b.kind.isTag = false := by
  unfold kind
  split <;> rfl

/-! ## The tables -/

section Tables

theorem mem_of_lookup {α β : Type} [BEq α] [LawfulBEq α] {entries : List (α × β)} {a : α} {b : β}
    (h : entries.lookup a = some b) : (a, b) ∈ entries := by
  obtain ⟨before, after, rfl, -⟩ := List.lookup_eq_some_iff.mp h
  exact List.mem_append_right before List.mem_cons_self

variable {kind : TwigTokenKind} {length : ℕ}

theorem nesting_threeByteOperator {b0 : UInt8} {b1 b2 : Option UInt8}
    (h : threeByteOperator b0 b1 b2 = some (kind, length)) : kind.nesting = .within := by
  unfold threeByteOperator at h
  split at h <;> cases h <;> rfl

theorem nesting_twoByteOperator {b0 : UInt8} {b1 : Option UInt8}
    (h : twoByteOperator b0 b1 = some (kind, length)) : kind.nesting = .within := by
  unfold twoByteOperator at h
  split at h <;> cases h <;> rfl

theorem nesting_singleByteSymbol {b : UInt8} (h : singleByteSymbol b = some kind) :
    kind.nesting = .within := by
  unfold singleByteSymbol at h
  split at h <;> cases h <;> rfl

theorem nesting_openerKind {b : UInt8} (h : openerKind b = some kind) (position : ℕ) :
    kind.nesting = .opens (Bracket.kind ⟨b, position⟩) ∧
      (Bracket.kind ⟨b, position⟩).isText = false := by
  unfold openerKind at h
  unfold Bracket.kind
  split at h
  case h_1 hchar =>
    cases h
    simp [hchar, TwigTokenKind.nesting, Opener.isText]
  case h_2 hchar =>
    cases h
    simp [hchar, TwigTokenKind.nesting, Opener.isText]
  case h_3 hchar =>
    cases h
    simp [hchar, TwigTokenKind.nesting, Opener.isText]
  case h_4 => cases h

/-- A closing bracket closes what its opener opens. -/
theorem nesting_closerKind {b : Bracket} {b0 : UInt8} (h : closerKind b0 = some kind)
    (hb : matchingCloser b.opener = b0) :
    kind.nesting = .closes b.kind ∧ b.kind.isText = false := by
  unfold matchingCloser at hb
  unfold Bracket.kind
  split at hb
  case h_1 hchar =>
    subst hb
    cases h
    simp [hchar, TwigTokenKind.nesting, Opener.isText]
  case h_2 hchar =>
    subst hb
    cases h
    simp [hchar, TwigTokenKind.nesting, Opener.isText]
  case h_3 hchar =>
    subst hb
    cases h
    simp [hchar, TwigTokenKind.nesting, Opener.isText]
  case h_4 =>
    subst hb
    cases h

theorem nesting_trimmedKind {dashKind tildeKind plainKind : TwigTokenKind}
    {nesting : Nesting Opener} (trimByte : Option UInt8) (hdash : dashKind.nesting = nesting)
    (htilde : tildeKind.nesting = nesting) (hplain : plainKind.nesting = nesting) :
    (TwigLexer.trimmedKind trimByte dashKind tildeKind plainKind).nesting = nesting := by
  unfold TwigLexer.trimmedKind
  split_ifs
  · exact hdash
  · exact htilde
  · exact hplain

theorem nesting_continuationWordsFor {first : List UInt8}
    {continuations : List (List UInt8 × TwigTokenKind)}
    (h : continuationWordsFor first = some continuations) :
    ∀ word ∈ continuations, word.2.nesting = .within := by
  have hall : ∀ entry ∈ multiWordOpeners, ∀ word ∈ entry.2, word.2.nesting = .within := by
    decide
  exact hall (first, continuations) (mem_of_lookup h)

theorem nesting_singleWordOperatorKind {name : List UInt8}
    (h : singleWordOperatorKind name = some kind) : kind.nesting = .within := by
  have hall : ∀ entry ∈ [(byteString "and", TwigTokenKind.and), (byteString "or", .or),
      (byteString "xor", .xor), (byteString "not", .not), (byteString "in", .in),
      (byteString "is", .is), (byteString "matches", .matches)],
      entry.2.nesting = Nesting.within := by
    decide
  exact hall (name, kind) (mem_of_lookup h)

end Tables

/-! ## Turns -/

/-- What the lexer knows of open tags, strings and brackets. -/
structure LexerState where
  mode : LexerMode
  modeStack : BoundedStack LexerMode maxModeDepth
  brackets : BoundedStack Bracket maxBracketDepth

namespace LexerState

def enter (s : LexerState) (saved mode : LexerMode) : LexerState :=
  ⟨mode, s.modeStack.push saved, s.brackets⟩

def leave (s : LexerState) : LexerState :=
  ⟨s.modeStack.last.getD .data, s.modeStack.pop, s.brackets⟩

def setMode (s : LexerState) (mode : LexerMode) : LexerState := ⟨mode, s.modeStack, s.brackets⟩

def pushBracket (s : LexerState) (b : Bracket) : LexerState :=
  ⟨s.mode, s.modeStack, s.brackets.push b⟩

def popBracket (s : LexerState) : LexerState := ⟨s.mode, s.modeStack, s.brackets.pop⟩

@[simp] theorem enter_brackets (s : LexerState) (saved mode : LexerMode) :
    (s.enter saved mode).brackets = s.brackets := rfl

@[simp] theorem leave_brackets (s : LexerState) : s.leave.brackets = s.brackets := rfl

@[simp] theorem setMode_brackets (s : LexerState) (mode : LexerMode) :
    (s.setMode mode).brackets = s.brackets := rfl

@[simp] theorem pushBracket_brackets (s : LexerState) (b : Bracket) :
    (s.pushBracket b).brackets = s.brackets.push b := rfl

@[simp] theorem popBracket_brackets (s : LexerState) :
    s.popBracket.brackets = s.brackets.pop := rfl

/-- The modes in which expressions are read. -/
def ReadsExpression (s : LexerState) : Prop :=
  s.mode = .block ∨ s.mode = .variable ∨ s.mode = .interpolation

end LexerState

open LexerState

/-- The stages of a verbatim region that follow each other without a tag. -/
def VerbatimStage.after : VerbatimStage → VerbatimStage
  | .entering => .emitted
  | .body => .endingOpened
  | .endOpened => .ended
  | stage => stage

/-- What a step that returns a token does, by what the token opens or closes. -/
inductive Turn : LexerState → Nesting Opener → LexerState → Prop
  | within {s} : Turn s .within s
  | openBlock {s} {mode : LexerMode} (h : s.mode = .data)
      (hmode : mode = .block ∨ ∃ kind, mode = .verbatim kind .entering) :
      Turn s (.opens .block) (s.enter .data mode)
  | openVariable {s} (h : s.mode = .data) : Turn s (.opens .variable) (s.enter .data .variable)
  | closeBlock {s} (h : s.mode = .block) (hb : s.brackets.items = []) :
      Turn s (.closes .block) s.leave
  | closeVariable {s} (h : s.mode = .variable) (hb : s.brackets.items = []) :
      Turn s (.closes .variable) s.leave
  | openBracket {s} {b : Bracket} (h : s.ReadsExpression) (hb : b.kind.isText = false) :
      Turn s (.opens b.kind) (s.pushBracket b)
  | closeBracket {s} {b : Bracket} (h : s.ReadsExpression) (hlast : s.brackets.last = some b)
      (hb : b.kind.isText = false) : Turn s (.closes b.kind) s.popBracket
  | openString {s} {b : Bracket} (h : s.ReadsExpression) (hb : b.kind = .string) :
      Turn s (.opens .string) ((s.pushBracket b).enter s.mode .doubleQuoted)
  | closeString {s} {b : Bracket} (h : s.mode = .doubleQuoted)
      (hlast : s.brackets.last = some b) (hb : b.kind = .string) :
      Turn s (.closes .string) s.popBracket.leave
  | openInterpolation {s} {b : Bracket} (h : s.mode = .doubleQuoted)
      (hb : b.kind = .interpolation) :
      Turn s (.opens .interpolation) ((s.pushBracket b).enter s.mode .interpolation)
  | closeInterpolation {s} {b : Bracket} (h : s.mode = .interpolation)
      (hlast : s.brackets.last = some b) (hb : b.kind = .interpolation) :
      Turn s (.closes .interpolation) s.popBracket.leave
  | verbatim {s} {kind : VerbatimKind} {stage : VerbatimStage} (h : s.mode = .verbatim kind stage)
      (hstage : stage = .entering ∨ stage = .body ∨ stage = .endOpened) :
      Turn s .within (s.setMode (.verbatim kind stage.after))
  | closeVerbatimStart {s} {kind : VerbatimKind} (h : s.mode = .verbatim kind .emitted) :
      Turn s (.closes .block) (s.setMode (.verbatim kind .body))
  | openVerbatimEnd {s} {kind : VerbatimKind} {stage : VerbatimStage}
      (h : s.mode = .verbatim kind stage) (hstage : stage = .body ∨ stage = .endingOpened) :
      Turn s (.opens .block) (s.setMode (.verbatim kind .endOpened))
  | closeVerbatimEnd {s} {kind : VerbatimKind} (h : s.mode = .verbatim kind .ended) :
      Turn s (.closes .block) s.leave

namespace TwigLexer

variable {lexer next : TwigLexer} {token : TwigToken}

def state (lexer : TwigLexer) : LexerState := ⟨lexer.mode, lexer.modeStack, lexer.brackets⟩

/-- A token of the step comes with a turn. -/
def Turns (lexer : TwigLexer) (result : Step) : Prop :=
  ∀ token, result.1 = .ok token → Turn lexer.state token.kind.nesting result.2.state

theorem Turns.fail (lexer next : TwigLexer) (error : SyntaxError) :
    Turns lexer (next.fail error) := by
  intro token h
  cases h

theorem Turns.emit {kind : TwigTokenKind} (h : kind.nesting = .within) (stop : ℕ) :
    Turns lexer (lexer.emit kind stop) := by
  intro token htoken
  cases htoken
  dsimp only
  rw [h]
  exact .within

theorem turns_emitWhitespace : Turns lexer lexer.emitWhitespace := by
  intro token htoken
  cases htoken
  exact .within

/-- A token emitted with a change of the state. -/
theorem Turns.emit_then {kind : TwigTokenKind} {stop : ℕ} {nesting : Nesting Opener}
    {next : TwigLexer} (h : kind.nesting = nesting) (hturn : Turn lexer.state nesting next.state) :
    Turns lexer ((lexer.emit kind stop).1, next) := by
  intro token htoken
  cases htoken
  dsimp only
  rw [h]
  exact hturn

theorem turns_lexCommentBody (introducerStart searchFrom : ℕ) :
    Turns lexer (lexer.lexCommentBody introducerStart searchFrom) := by
  unfold lexCommentBody
  split
  · exact .fail _ _ _
  · exact .emit rfl _

theorem turns_lexData (h : lexer.mode = .data) : Turns lexer lexer.lexData := by
  unfold lexData
  split
  · exact .emit rfl _
  · dsimp only
    split_ifs
    · split
      · exact .emit_then (nesting_trimmedKind _ rfl rfl rfl)
          (.openBlock h (.inr ⟨_, rfl⟩))
      · exact .emit_then (nesting_trimmedKind _ rfl rfl rfl) (.openBlock h (.inl rfl))
    · exact .emit_then (nesting_trimmedKind _ rfl rfl rfl) (.openVariable h)
    · exact turns_lexCommentBody _ _
  · exact .emit rfl _

theorem turns_lexVerbatimKeyword {kind : VerbatimKind} {stage : VerbatimStage}
    (h : lexer.mode = .verbatim kind stage) (hstage : stage = .entering ∨ stage = .endOpened)
    (expected : List UInt8) : Turns lexer (lexer.lexVerbatimKeyword kind expected stage.after) := by
  unfold lexVerbatimKeyword
  dsimp only
  split_ifs
  · exact turns_emitWhitespace
  · refine .emit_then rfl (.verbatim h ?_)
    tauto
  · exact .fail _ _ _

theorem nesting_closeMarker {closer : TwigTokenKind × ℕ} (h : lexer.closeMarker = some closer) :
    closer.1.nesting = .closes .block := by
  unfold closeMarker at h
  dsimp only at h
  split_ifs at h <;> cases h <;> rfl

theorem turns_lexVerbatimClose {after : TwigLexer → TwigLexer}
    (h : ∀ emitted : TwigLexer, emitted.state = lexer.state →
      Turn lexer.state (.closes .block) (after emitted).state) :
    Turns lexer (lexer.lexVerbatimClose after) := by
  unfold lexVerbatimClose
  split_ifs
  · exact turns_emitWhitespace
  · split
    case h_1 kind length hclose =>
      exact .emit_then (nesting_closeMarker hclose) (h _ rfl)
    case h_2 => exact .fail _ _ _

theorem turns_lexVerbatimOpenMarker {kind : VerbatimKind} {stage : VerbatimStage}
    (h : lexer.mode = .verbatim kind stage) (hstage : stage = .body ∨ stage = .endingOpened) :
    Turns lexer (lexer.lexVerbatimOpenMarker kind .endOpened) := by
  unfold lexVerbatimOpenMarker
  dsimp only
  split_ifs
  · exact .emit_then (nesting_trimmedKind _ rfl rfl rfl) (.openVerbatimEnd h hstage)
  · exact .fail _ _ _

theorem turns_lexVerbatim {kind : VerbatimKind} {stage : VerbatimStage}
    (h : lexer.mode = .verbatim kind stage) : Turns lexer (lexer.lexVerbatim kind stage) := by
  cases stage with
  | entering => exact turns_lexVerbatimKeyword h (.inl rfl) _
  | emitted =>
    apply turns_lexVerbatimClose
    intro emitted hstate
    have hturn := Turn.closeVerbatimStart (s := lexer.state) h
    rw [← hstate] at hturn ⊢
    exact hturn
  | body =>
    change Turns lexer (lexer.lexVerbatimBody kind)
    unfold lexVerbatimBody
    split
    · exact .fail _ _ _
    · exact turns_lexVerbatimOpenMarker h (.inl rfl)
    · exact .emit_then rfl (.verbatim h (.inr (.inl rfl)))
  | endingOpened => exact turns_lexVerbatimOpenMarker h (.inr rfl)
  | endOpened => exact turns_lexVerbatimKeyword h (.inr rfl) _
  | ended =>
    apply turns_lexVerbatimClose
    intro emitted hstate
    have hturn := Turn.closeVerbatimEnd (s := lexer.state) h
    rw [← hstate] at hturn ⊢
    exact hturn

/-! ## Expressions -/

theorem nesting_tagCloser {closerByte : UInt8} {closer : TwigTokenKind × ℕ}
    (h : lexer.tagCloser closerByte = some closer) :
    closer.1.nesting = if closerByte = byte '%' then .closes .block else .closes .variable := by
  unfold tagCloser at h
  dsimp only at h
  by_cases hblock : closerByte = byte '%'
  · simp only [hblock, decide_true, if_true] at h ⊢
    split_ifs at h <;> cases h <;> rfl
  · simp only [hblock, decide_false, Bool.false_eq_true, if_false] at h ⊢
    split_ifs at h <;> cases h <;> rfl

theorem turns_readSingleQuotedString : Turns lexer lexer.readSingleQuotedString := by
  unfold readSingleQuotedString
  split
  · exact .emit rfl _
  · exact .fail _ _ _

theorem turns_readDoubleQuotedStringStart (h : lexer.state.ReadsExpression) :
    Turns lexer lexer.readDoubleQuotedStringStart := by
  unfold readDoubleQuotedStringStart
  split
  · exact .emit rfl _
  · exact .fail _ _ _
  · exact .emit_then rfl (.openString (b := ⟨byte '"', lexer.cursor⟩) h rfl)

/-- The bracket on top, when it is the one looked for. -/
theorem last_of_any {p : Bracket → Bool} (h : lexer.brackets.last.any p = true) :
    ∃ b, lexer.state.brackets.last = some b ∧ p b = true :=
  (Option.any_eq_true _ _).mp h

theorem turns_lexInsideDqString (h : lexer.mode = .doubleQuoted) :
    Turns lexer lexer.lexInsideDqString := by
  unfold lexInsideDqString
  dsimp only
  split_ifs with hopen hquote hlast
  · exact .emit_then rfl (.openInterpolation (b := ⟨byte '#', lexer.cursor⟩) h rfl)
  · obtain ⟨b, hb, hopener⟩ := last_of_any hlast
    have hkind : b.kind = .string := by
      unfold Bracket.kind
      rw [of_decide_eq_true hopener]
      rfl
    exact .emit_then rfl (.closeString h hb hkind)
  · exact .fail _ _ _
  · split
    · exact .fail _ _ _
    · exact .fail _ _ _
    · exact .emit rfl _

theorem nesting_tryExtendWordMulti {afterFirst : ℕ}
    {continuations : List (List UInt8 × TwigTokenKind)} {found : ℕ × TwigTokenKind}
    (hall : ∀ word ∈ continuations, word.2.nesting = .within)
    (hfound : lexer.tryExtendWordMulti afterFirst continuations = some found) :
    found.2.nesting = .within := by
  induction continuations with
  | nil => cases hfound
  | cons continuation continuations ih =>
    unfold tryExtendWordMulti at hfound
    split at hfound
    case h_1 stop hword =>
      cases hfound
      exact hall continuation List.mem_cons_self
    case h_2 => exact ih (fun word hword => hall word (List.mem_cons_of_mem _ hword)) hfound

theorem nesting_bitwiseWord {stop : ℕ} {found : ℕ × TwigTokenKind}
    (hfound : lexer.bitwiseWord stop = some found) : found.2.nesting = .within := by
  obtain ⟨suffix, hmem, hsuffix⟩ := List.exists_of_findSome?_eq_some hfound
  have hall : ∀ entry ∈ [(byteString "-and", TwigTokenKind.bAnd), (byteString "-or", .bOr),
      (byteString "-xor", .bXor)], entry.2.nesting = Nesting.within := by
    decide
  dsimp only at hsuffix
  split_ifs at hsuffix
  cases hsuffix
  exact hall suffix hmem

theorem turns_readNameOrWordOperator : Turns lexer lexer.readNameOrWordOperator := by
  unfold readNameOrWordOperator
  dsimp only
  split
  case h_1 after kind hbitwise =>
    split_ifs at hbitwise
    exact .emit (nesting_bitwiseWord hbitwise) _
  case h_2 =>
    split
    case h_1 newEnd kind hmulti =>
      split_ifs at hmulti
      obtain ⟨continuations, hfirst, hmulti⟩ := Option.bind_eq_some_iff.mp hmulti
      exact .emit (nesting_tryExtendWordMulti (nesting_continuationWordsFor hfirst) hmulti) _
    case h_2 =>
      split
      case h_1 kind hsingle =>
        split_ifs at hsingle
        exact .emit (nesting_singleWordOperatorKind hsingle) _
      case h_2 => exact .emit rfl _

theorem turns_readOperatorOrPunctuation (h : lexer.state.ReadsExpression) (b : UInt8) :
    Turns lexer (lexer.readOperatorOrPunctuation b) := by
  unfold readOperatorOrPunctuation
  dsimp only
  split
  case h_1 kind length hthree => exact .emit (nesting_threeByteOperator hthree) _
  split
  case h_1 kind length htwo => exact .emit (nesting_twoByteOperator htwo) _
  split
  case h_1 kind hopener =>
    obtain ⟨hnesting, htext⟩ := nesting_openerKind hopener lexer.cursor
    exact .emit_then hnesting (.openBracket h htext)
  split
  case h_1 kind hcloser =>
    split_ifs with hlast
    · obtain ⟨bracket, hbracket, hmatch⟩ := last_of_any hlast
      obtain ⟨hnesting, htext⟩ := nesting_closerKind hcloser (of_decide_eq_true hmatch)
      exact .emit_then hnesting (.closeBracket h hbracket htext)
    · exact .fail _ _ _
  split
  case h_1 kind hsymbol => exact .emit (nesting_singleByteSymbol hsymbol) _
  case h_2 => exact .fail _ _ _

theorem turns_lexExpression (h : lexer.state.ReadsExpression) (b : UInt8) :
    Turns lexer (lexer.lexExpression b) := by
  unfold lexExpression
  split
  · exact turns_emitWhitespace
  · exact .emit rfl _
  · exact turns_readSingleQuotedString
  · exact turns_readDoubleQuotedStringStart h
  · exact .emit rfl _
  · exact turns_readNameOrWordOperator
  · exact turns_readOperatorOrPunctuation h b

/-- A tag closes when no bracket is open, and expressions are read inside it. -/
theorem turns_lexInsideTag {closerByte : UInt8} (h : lexer.state.ReadsExpression) (b : UInt8)
    (hclose : lexer.brackets.items = [] → Turn lexer.state
      (if closerByte = byte '%' then .closes .block else .closes .variable)
      lexer.state.leave) :
    Turns lexer (lexer.lexInsideTag closerByte b) := by
  unfold lexInsideTag
  split
  case h_1 closed hclosed =>
    split_ifs at hclosed with hempty
    obtain ⟨closer, hcloser, rfl⟩ := Option.map_eq_some_iff.mp hclosed
    exact .emit_then (nesting_tagCloser hcloser) (hclose (List.isEmpty_iff.mp hempty))
  case h_2 => exact turns_lexExpression h b

theorem turns_lexInsideInterpolation (h : lexer.mode = .interpolation) (b : UInt8) :
    Turns lexer (lexer.lexInsideInterpolation b) := by
  unfold lexInsideInterpolation
  dsimp only
  split_ifs with hclose
  · obtain ⟨bracket, hbracket, hopener⟩ := last_of_any hclose.1
    have hkind : bracket.kind = .interpolation := by
      unfold Bracket.kind
      rw [of_decide_eq_true hopener]
      rfl
    exact .emit_then rfl (.closeInterpolation h hbracket hkind)
  · exact turns_lexExpression (.inr (.inr h)) b

/-- In every mode a token comes with a turn. -/
theorem turns_lexMode (b : UInt8) : Turns lexer (lexer.lexMode b) := by
  unfold lexMode
  split
  case h_1 h => exact turns_lexData h
  case h_2 h => exact turns_lexInsideTag (.inl h) b fun hb => .closeBlock h hb
  case h_3 h =>
    exact turns_lexInsideTag (.inr (.inl h)) b fun hb => .closeVariable h hb
  case h_4 h => exact turns_lexInsideDqString h
  case h_5 h => exact turns_lexInsideInterpolation h b
  case h_6 kind stage h => exact turns_lexVerbatim h

theorem state_significant (lexer : TwigLexer) (token : TwigToken) :
    (lexer.significant token).state = lexer.state := by
  unfold significant
  split_ifs <;> rfl

theorem turn_of_advance (h : lexer.advance = (some (.ok token), next)) :
    Turn lexer.state token.kind.nesting next.state := by
  unfold advance at h
  split_ifs at h
  · cases h
  · split at h
    case h_1 =>
      obtain ⟨herror, -⟩ := Prod.mk.inj h
      obtain ⟨error, -, herror⟩ := Option.map_eq_some_iff.mp herror
      cases herror
    case h_2 b rest hremaining =>
      have hturns : Turns lexer (lexer.lexMode b) := turns_lexMode b
      split at h
      case h_1 after hmode =>
        cases h
        have hturn := hturns token (by rw [hmode])
        rw [hmode] at hturn
        rw [state_significant]
        exact hturn
      case h_2 => cases h

end TwigLexer

end Mago.Twig
