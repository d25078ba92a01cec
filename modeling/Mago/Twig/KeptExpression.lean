import Mago.Twig.Kept

/-!
# The tokens that the parts of the Twig parser keep

One lemma for each function of the parser, and the theorem for a whole expression. A function that
extends an expression starts after the tokens of that expression.
-/
namespace Mago.Twig
open Mago.Library.Parser

variable {parseWithPrecedence : ExpressionParser} {s : State}

theorem isHeld_of_isKeywordUsableAsName {kind : TwigTokenKind}
    (h : isKeywordUsableAsName kind = true) : kind.isHeld = true := by
  unfold isKeywordUsableAsName at h
  split at h <;> first | rfl | cases h

theorem isHeld_of_flexible {kind : TwigTokenKind}
    (h : (kind == .name || isKeywordUsableAsName kind) = true) : kind.isHeld = true := by
  rcases Bool.or_eq_true_iff.mp h with hname | hkeyword
  · rw [eq_of_beq hname]
    rfl
  · exact isHeld_of_isKeywordUsableAsName hkeyword

theorem isHeld_of_isNotKeyword (token : TwigToken) (h : isNotKeyword token = true) :
    token.kind.isHeld = true := by
  rcases Bool.or_eq_true_iff.mp (Bool.and_eq_true_iff.mp h).1 with hkind | hkind <;>
    rw [eq_of_beq hkind] <;> rfl

theorem isHeld_of_isSecondWord (token : TwigToken) (h : isSecondWord token = true) :
    token.kind.isHeld = true := by
  unfold isSecondWord at h
  rw [Bool.and_eq_true, Bool.and_eq_true, Bool.and_eq_true] at h
  rw [eq_of_beq h.1.1.1]
  rfl

theorem isHeld_of_unaryOperator {kind : TwigTokenKind} {operator : UnaryOperatorKind × ℕ}
    (h : unaryOperator kind = some operator) : kind.isHeld = true := by
  unfold unaryOperator at h
  split at h <;> first | rfl | cases h

/-- A binary operator is held, and no string is one. -/
theorem held_of_classifyBinaryOperator {token : TwigToken} (kind : BinaryOperatorKind)
    {operator : BinaryOperatorKind × ℕ × Bool}
    (h : classifyBinaryOperator token.kind = some operator) :
    token.kind.isHeld = true ∧ BinaryOperator.held ⟨kind, token⟩ = [token] := by
  unfold classifyBinaryOperator at h
  unfold BinaryOperator.held
  dsimp only
  split at h <;> first
    | next hkind => rw [hkind]; exact ⟨rfl, rfl⟩
    | cases h

theorem held_nameExpression (token : TwigToken) : (nameExpression token).held = [token] := by
  unfold nameExpression
  split_ifs <;> rfl

section Parts

variable (hparse : ∀ n, Keeps (parseWithPrecedence n) Expression.held) (fuel : ℕ)
include hparse

/-! ## Arguments and postfix forms -/

theorem parseArgument_keeps : Keeps (parseArgument parseWithPrecedence) Argument.held := by
  intro s
  refine keepsFrom_peekKind fun first hfirst => keepsFrom_peekKind fun second hsecond => ?_
  refine keepsFrom_ite (fun hnamed => ?_) fun _ => ?_
  · obtain ⟨name, rfl, hname⟩ := Option.map_eq_some_iff.mp hnamed.1
    obtain ⟨separator, rfl, hseparator⟩ : ∃ separator, second = some separator ∧
        separator.kind.isHeld = true := by
      rcases hnamed.2 with hkind | hkind <;>
        obtain ⟨separator, hsome, hkind⟩ := Option.map_eq_some_iff.mp hkind <;>
        exact ⟨separator, hsome, by rw [hkind]; rfl⟩
    refine keepsFrom_consume hfirst fun s' htokens => ?_
    have hhead : s'.tokens[0]? = some separator := by
      rw [htokens] at hsecond
      exact hsecond
    refine keepsFrom_consume_held hhead hseparator fun s' => ?_
    refine (hparse 0).bind fun value s' => keepsFrom_pure ?_
    rw [heldOf_held (by rw [hname]; rfl)]
    rfl
  · refine keepsFrom_tryConsume (fun s' => ?_) fun ellipsis s' hkind => ?_
    · exact (hparse 0).bind fun value s' => keepsFrom_pure rfl
    · refine (hparse 0).bind fun value s' => keepsFrom_pure ?_
      rw [heldOf_held (by rw [hkind]; rfl)]
      rfl

theorem parseArgumentList_keeps :
    Keeps (parseArgumentList parseWithPrecedence fuel) ArgumentList.held := by
  intro s
  refine (parseCommaSeparatedSequence_keeps .leftParen rfl rfl (parseArgument_keeps hparse)
    fuel).bind fun sequence s' => keepsFrom_pure ?_
  rw [ArgumentList.held, heldArguments_eq, List.nil_append]

theorem parseOptionalArgumentList_keeps :
    Keeps (parseOptionalArgumentList parseWithPrecedence fuel) heldArgumentList := by
  intro s
  refine keepsFrom_isAt (fun token _ _ => ?_) (keepsFrom_pure rfl)
  exact (parseArgumentList_keeps hparse fuel).bind fun argumentList s' => keepsFrom_pure rfl

theorem parseFilter_keeps (operand : Expression) (pipe : TwigToken) :
    KeepsFrom s (operand.held ++ [pipe]) (parseFilter parseWithPrecedence fuel operand pipe)
      Expression.held := by
  refine takes_expectKind.bind_held rfl fun name s' _ => ?_
  refine (parseOptionalArgumentList_keeps hparse fuel).bind fun argumentList s' => ?_
  refine keepsFrom_pure ?_
  simp only [Expression.held, List.append_assoc, List.cons_append, List.nil_append]

theorem parseAttribute_keeps :
    Keeps (parseAttribute parseWithPrecedence) fun member => member.1.held := by
  intro s
  refine keepsFrom_lookahead fun token htoken => ?_
  cases token with
  | none => exact keepsFrom_failUnexpected none _
  | some token =>
    dsimp only
    refine keepsFrom_ite (fun hparenthesis => ?_) fun _ =>
      keepsFrom_ite (fun hname => ?_) fun _ =>
      keepsFrom_ite (fun hnumber => ?_) fun _ =>
      keepsFrom_ite (fun hkeyword => ?_) fun _ => ?_
    · refine keepsFrom_consume_skipped htoken (by rw [hparenthesis]; rfl) fun s' => ?_
      refine (hparse 0).bind fun inner s' => ?_
      exact takes_expectKind.bind_skipped rfl fun token s' _ => keepsFrom_pure rfl
    · exact keepsFrom_consume_held htoken (by rw [hname]; rfl) fun s' => keepsFrom_pure rfl
    · exact keepsFrom_consume_held htoken (by rw [hnumber]; rfl) fun s' => keepsFrom_pure rfl
    · have hheld := isHeld_of_isKeywordUsableAsName (Bool.and_eq_true_iff.mp hkeyword).1
      exact keepsFrom_consume_held htoken hheld fun s' => keepsFrom_pure rfl
    · exact keepsFrom_fail _

/-- A method is the name after the dot. -/
theorem parseAttribute_method :
    ConsumesAt s (parseAttribute parseWithPrecedence) fun member _ _ =>
      ∀ method ∈ member.2, member.1 = .name method := by
  have hnone (a : Expression) : ∀ method ∈ (a, (none : Option TwigToken)).2,
      (a, (none : Option TwigToken)).1 = .name method := fun method h => nomatch h
  have hsome (token : TwigToken) : ∀ method ∈ (Expression.name token, some token).2,
      (Expression.name token, some token).1 = .name method :=
    fun method h => congrArg Expression.name (Option.some.inj h)
  refine consumesAt_lookahead ?_
  cases htoken : s.tokens[0]? with
  | none => exact consumesAt_failUnexpected none _
  | some token =>
    dsimp only
    split_ifs
    · refine ConsumesAt.bind takes_consume fun _ s' _ _ _ _ => ?_
      refine ConsumesAt.bind (hparse 0 s') fun inner s' _ _ _ _ => ?_
      exact ConsumesAt.bind takes_expectKind fun _ _ _ _ _ _ => consumesAt_pure (hnone inner)
    · exact ConsumesAt.bind takes_consume fun _ _ _ _ _ _ => consumesAt_pure (hsome token)
    · exact ConsumesAt.bind takes_consume fun _ _ _ _ _ _ => consumesAt_pure (hnone _)
    · exact ConsumesAt.bind takes_consume fun _ _ _ _ _ _ => consumesAt_pure (hsome token)
    · exact consumesAt_fail _

theorem parseDotAccess_keeps (object : Expression) (dot : TwigToken) (nullSafe : Bool) :
    KeepsFrom s (object.held ++ heldOf [dot])
      (parseDotAccess parseWithPrecedence fuel object dot nullSafe) Expression.held := by
  have hmember := ((parseAttribute_keeps hparse).from s (object.held ++ heldOf [dot])).and
    (parseAttribute_method hparse)
  refine ConsumesAt.bind hmember fun member s' consumed arrows _ hmember => ?_
  obtain ⟨hkept, hmethod⟩ := hmember
  refine ConsumesAt.weaken ?_ fun b consumed' arrows' hkept' => hkept.append hkept'
  refine keepsFrom_isAt (fun token _ _ => ?_) (keepsFrom_pure ?_)
  · refine (parseArgumentList_keeps hparse fuel).bind fun argumentList s' => ?_
    cases hcall : member.2 with
    | none => exact keepsFrom_pure (by simp only [Expression.held, List.append_assoc])
    | some method =>
      refine keepsFrom_pure ?_
      simp only [Expression.held, hmethod method hcall, List.append_assoc, List.cons_append,
        List.nil_append]
  · simp only [Expression.held, List.append_assoc]

theorem parseOptionalExpressionUntil_keeps (terminator : TwigTokenKind) :
    Keeps (parseOptionalExpressionUntil parseWithPrecedence terminator) heldOption := by
  intro s
  refine keepsFrom_isAt (fun token _ _ => keepsFrom_pure rfl) ?_
  exact (hparse 0).bind fun expression s' => keepsFrom_pure rfl

theorem parseBracketAccess_keeps (object : Expression) {token : TwigToken}
    (h : s.tokens[0]? = some token) (hkind : token.kind = .leftBracket) :
    KeepsFrom s object.held (parseBracketAccess parseWithPrecedence object) Expression.held := by
  refine keepsFrom_consume_skipped h (by rw [hkind]; rfl) fun s' => ?_
  refine keepsFrom_tryConsume (fun s' => ?_) fun colon s' hcolon => ?_
  · refine (hparse 0).bind fun first s' => ?_
    refine keepsFrom_tryConsume (fun s' => ?_) fun colon s' hcolon => ?_
    · refine takes_expectKind.bind_skipped rfl fun rightBracket s' _ => keepsFrom_pure ?_
      rfl
    · rw [heldOf_held (by rw [hcolon]; rfl)]
      refine (parseOptionalExpressionUntil_keeps hparse .rightBracket).bind fun length s' => ?_
      refine takes_expectKind.bind_skipped rfl fun rightBracket s' _ => keepsFrom_pure ?_
      simp only [Expression.held, heldOption, List.append_assoc, List.cons_append, List.nil_append]
  · rw [heldOf_held (by rw [hcolon]; rfl)]
    refine (parseOptionalExpressionUntil_keeps hparse .rightBracket).bind fun length s' => ?_
    refine takes_expectKind.bind_skipped rfl fun rightBracket s' _ => keepsFrom_pure ?_
    simp only [Expression.held, heldOption, List.append_assoc, List.cons_append, List.nil_append]

theorem parseConditional_keeps (condition : Expression) {token : TwigToken}
    (h : s.tokens[0]? = some token) (hkind : token.kind = .question) :
    KeepsFrom s condition.held (parseConditional parseWithPrecedence condition)
      Expression.held := by
  have hmark : token.kind ≠ .questionColon := by
    rw [hkind]
    exact TwigTokenKind.noConfusion
  refine keepsFrom_consume_held h (by rw [hkind]; rfl) fun s' => ?_
  refine keepsFrom_tryConsume (fun s' => ?_) fun colon s' hcolon => ?_
  · refine (hparse 0).bind fun thenBranch s' => ?_
    refine keepsFrom_tryConsume (fun s' => ?_) fun colon s' hcolon => ?_
    · refine keepsFrom_pure ?_
      simp only [Expression.held, heldOption, colonHeld, if_neg hmark, Option.toList_none,
        List.append_assoc, List.cons_append, List.nil_append, List.append_nil]
    · rw [heldOf_held (by rw [hcolon]; rfl)]
      refine (hparse 0).bind fun elseBranch s' => keepsFrom_pure ?_
      simp only [Expression.held, heldOption, colonHeld, if_neg hmark, Option.toList_some,
        List.append_assoc, List.cons_append, List.nil_append]
  · rw [heldOf_held (by rw [hcolon]; rfl)]
    refine (hparse 0).bind fun elseBranch s' => keepsFrom_pure ?_
    simp only [Expression.held, heldOption, colonHeld, if_neg hmark, Option.toList_some,
      List.append_assoc, List.cons_append, List.nil_append]

theorem parseElvis_keeps (condition : Expression) {token : TwigToken}
    (h : s.tokens[0]? = some token) (hkind : token.kind = .questionColon) :
    KeepsFrom s condition.held (parseElvis parseWithPrecedence condition) Expression.held := by
  refine keepsFrom_consume_held h (by rw [hkind]; rfl) fun s' => ?_
  refine (hparse 0).bind fun elseBranch s' => keepsFrom_pure ?_
  simp only [Expression.held, heldOption, colonHeld, if_pos hkind, List.append_assoc,
    List.cons_append, List.nil_append]

theorem parseTestArguments_keeps :
    Keeps (parseTestArguments parseWithPrecedence fuel) TestArguments.held := by
  intro s
  refine (parseOptionalArgumentList_keeps hparse fuel).bind fun argumentList s' => ?_
  cases argumentList with
  | some argumentList => exact keepsFrom_pure rfl
  | none =>
    refine keepsFrom_peekKind fun next hnext => ?_
    refine keepsFrom_ite (fun _ => ?_) fun _ => keepsFrom_pure rfl
    exact (hparse 100).bind fun value s' => keepsFrom_pure rfl

theorem parseTest_keeps (operand : Expression) (isKeyword : TwigToken) :
    KeepsFrom s (operand.held ++ [isKeyword])
      (parseTest parseWithPrecedence fuel operand isKeyword) Expression.held := by
  refine keepsFrom_consumeIf_held isHeld_of_isNotKeyword fun notKeyword s' => ?_
  refine takes_expectThat.bind fun name s' _ hname => ?_
  rw [heldOf_held (isHeld_of_flexible hname)]
  refine keepsFrom_consumeIf_held isHeld_of_isSecondWord fun secondWord s' => ?_
  refine (parseTestArguments_keeps hparse fuel).bind fun arguments s' => keepsFrom_pure ?_
  simp only [Expression.held, List.append_assoc, List.cons_append, List.nil_append]

/-! ## Collections, strings and groups -/

theorem parseArrayElement_keeps :
    Keeps (parseArrayElement parseWithPrecedence) ArrayElement.held := by
  intro s
  refine keepsFrom_lookahead fun next hnext => ?_
  cases next with
  | none => exact (hparse 0).bind fun value s' => keepsFrom_pure rfl
  | some next =>
    dsimp only
    refine keepsFrom_ite (fun hellipsis => ?_) fun _ =>
      keepsFrom_ite (fun hcomma => ?_) fun _ => ?_
    · refine keepsFrom_consume_held hnext (by rw [hellipsis]; rfl) fun s' => ?_
      exact (hparse 0).bind fun value s' => keepsFrom_pure rfl
    · exact keepsFrom_pure rfl
    · exact (hparse 0).bind fun value s' => keepsFrom_pure rfl

theorem parseArray_keeps : Keeps (parseArray parseWithPrecedence fuel) Expression.held := by
  intro s
  refine (parseCommaSeparatedSequence_keeps .leftBracket rfl rfl (parseArrayElement_keeps hparse)
    fuel).bind fun sequence s' => keepsFrom_pure ?_
  rw [Expression.held, heldElements_eq, List.nil_append]

theorem parseHashMapKey_keeps {token : TwigToken} (h : s.tokens[0]? = some token) :
    KeepsFrom s [] (parseHashMapKey parseWithPrecedence token) Expression.held := by
  unfold parseHashMapKey
  refine keepsFrom_ite (fun hstring => ?_) fun _ =>
    keepsFrom_ite (fun hnumber => ?_) fun _ =>
    keepsFrom_ite (fun hparenthesis => ?_) fun _ => ?_
  · refine keepsFrom_consume_held h ?_ fun s' => keepsFrom_pure rfl
    rcases hstring with hkind | hkind | hkind <;> rw [hkind] <;> rfl
  · exact keepsFrom_consume_held h (by rw [hnumber]; rfl) fun s' => keepsFrom_pure rfl
  · refine keepsFrom_consume_skipped h (by rw [hparenthesis]; rfl) fun s' => ?_
    refine (hparse 0).bind fun inner s' => ?_
    exact takes_expectKind.bind_skipped rfl fun token s' _ => keepsFrom_pure rfl
  · exact keepsFrom_fail _

/-- The token of a shorthand is held once. -/
theorem parseHashMapEntry_keeps :
    Keeps (parseHashMapEntry parseWithPrecedence) HashMapEntry.held := by
  intro s
  refine keepsFrom_tryConsume (fun s' => ?_) fun ellipsis s' hellipsis => ?_
  · refine keepsFrom_lookahead fun token htoken => ?_
    cases token with
    | none => exact keepsFrom_failUnexpected none _
    | some token =>
      refine keepsFrom_peekKind fun next hnext => ?_
      refine keepsFrom_ite (fun hshorthand => ?_) fun _ => ?_
      · refine keepsFrom_consume_held htoken (by rw [hshorthand.1]; rfl) fun s' => ?_
        exact keepsFrom_pure rfl
      · refine KeepsFrom.bind (parseHashMapKey_keeps hparse htoken) fun key s' => ?_
        refine takes_expectKind.bind_held rfl fun colon s' _ => ?_
        refine (hparse 0).bind fun value s' => keepsFrom_pure ?_
        simp only [HashMapEntry.held, heldOption, Option.isSome_some, if_true, Option.toList_none,
          Option.toList_some, List.append_assoc, List.cons_append, List.nil_append]
  · rw [heldOf_held (by rw [hellipsis]; rfl)]
    exact (hparse 0).bind fun value s' => keepsFrom_pure rfl

theorem parseHashMap_keeps : Keeps (parseHashMap parseWithPrecedence fuel) Expression.held := by
  intro s
  refine (parseCommaSeparatedSequence_keeps .leftBrace rfl rfl (parseHashMapEntry_keeps hparse)
    fuel).bind fun sequence s' => keepsFrom_pure ?_
  rw [Expression.held, heldEntries_eq, List.nil_append]

theorem interpolatedLoop_keeps (openQuote : TwigToken) (parts : List StringPart) (s : State) :
    KeepsFrom s (openQuote :: heldParts parts)
      (interpolatedLoop parseWithPrecedence openQuote fuel parts) Expression.held := by
  induction fuel generalizing parts s with
  | zero => exact keepsFrom_outOfFuel
  | succ fuel ih =>
    have happend (part : StringPart) : openQuote :: heldParts parts ++ part.held =
        openQuote :: heldParts (parts ++ [part]) := by
      rw [heldParts_eq, heldParts_eq, List.flatMap_append, List.flatMap_singleton, List.cons_append]
    refine keepsFrom_lookahead fun token htoken => ?_
    cases token with
    | none => exact keepsFrom_failUnexpected none _
    | some token =>
      dsimp only
      refine keepsFrom_ite (fun hpart => ?_) fun _ =>
        keepsFrom_ite (fun hstart => ?_) fun _ =>
        keepsFrom_ite (fun hend => ?_) fun _ => ?_
      · refine keepsFrom_consume_held htoken (by rw [hpart]; rfl) fun s' => ?_
        have hnext := ih (parts ++ [.literal token]) s'
        rw [← happend] at hnext
        exact hnext
      · refine keepsFrom_consume_skipped htoken (by rw [hstart]; rfl) fun s' => ?_
        refine (hparse 0).bind fun inner s' => ?_
        refine takes_expectKind.bind_skipped rfl fun closeBrace s' _ => ?_
        have hnext := ih (parts ++ [.interpolation token inner closeBrace]) s'
        rw [← happend] at hnext
        exact hnext
      · refine keepsFrom_consume_held htoken (by rw [hend]; rfl) fun s' => ?_
        exact keepsFrom_pure rfl
      · exact keepsFrom_fail _

theorem parseInterpolatedString_keeps {token : TwigToken} (h : s.tokens[0]? = some token)
    (hkind : token.kind = .doubleQuoteStart) :
    KeepsFrom s [] (parseInterpolatedString parseWithPrecedence fuel) Expression.held := by
  refine keepsFrom_consume_held h (by rw [hkind]; rfl) fun s' => ?_
  exact interpolatedLoop_keeps hparse fuel token [] s'

theorem maybeExtendString_keeps (turns : ℕ) (left : Expression) (s : State) :
    KeepsFrom s left.held (maybeExtendString parseWithPrecedence fuel turns left)
      Expression.held := by
  induction turns generalizing left s with
  | zero => exact keepsFrom_outOfFuel
  | succ turns ih =>
    have hextend (token : TwigToken) (rhs : Expression)
        (hkind : token.kind = .stringSingleQuoted ∨ token.kind = .stringDoubleQuoted ∨
          token.kind = .doubleQuoteStart) :
        left.held ++ rhs.held = (Expression.binary ⟨.stringConcat, token⟩ left rhs).held := by
      rcases hkind with hkind | hkind | hkind <;>
        simp only [Expression.held, BinaryOperator.held, hkind, List.nil_append]
    refine keepsFrom_lookahead fun token htoken => ?_
    cases token with
    | none => exact keepsFrom_pure rfl
    | some token =>
      dsimp only
      refine keepsFrom_ite (fun hstring => ?_) fun _ =>
        keepsFrom_ite (fun hquote => ?_) fun _ => ?_
      · have hheld : token.kind.isHeld = true := by
          rcases hstring with hkind | hkind <;> rw [hkind] <;> rfl
        refine keepsFrom_consume_held htoken hheld fun s' => ?_
        have hnext := ih (.binary ⟨.stringConcat, token⟩ left (.string token)) s'
        rw [← hextend token _ (hstring.imp_right .inl)] at hnext
        exact hnext
      · have hstring := (parseInterpolatedString_keeps hparse fuel htoken hquote).frame left.held
        rw [List.append_nil] at hstring
        refine KeepsFrom.bind hstring fun rhs s' => ?_
        rw [hextend token rhs (.inr (.inr hquote))]
        exact ih _ s'
      · exact keepsFrom_pure rfl

omit hparse in
theorem parametersLoop_keeps (parameters commas : List TwigToken) (s : State) :
    KeepsFrom s parameters (parametersLoop fuel parameters commas) Prod.fst := by
  induction fuel generalizing parameters commas s with
  | zero => exact keepsFrom_outOfFuel
  | succ fuel ih =>
    refine keepsFrom_tryConsume (fun s' => keepsFrom_pure rfl) fun comma s' hcomma => ?_
    rw [heldOf_skipped (by rw [hcomma]; rfl), List.append_nil]
    refine keepsFrom_isAt (fun token _ _ => keepsFrom_pure rfl) ?_
    exact takes_expectKind.bind_held rfl fun name s' _ => ih _ _ s'

theorem finishArrowParameters_keeps (leftParenthesis : TwigToken) (inner : Expression) :
    KeepsFrom s inner.held
      (finishArrowParameters parseWithPrecedence fuel leftParenthesis inner) Expression.held := by
  unfold finishArrowParameters
  split
  · next first =>
    refine KeepsFrom.bind (parametersLoop_keeps fuel [first] [] s) fun parameters s' => ?_
    refine takes_expectKind.bind_skipped rfl fun rightParenthesis s' _ => ?_
    refine keepsFrom_tryConsume (fun s' => ?_) fun fatArrow s' harrow => ?_
    · exact keepsFrom_lookahead fun next _ => keepsFrom_failUnexpected next _
    · rw [heldOf_held (by rw [harrow]; rfl)]
      refine (hparse 0).bind fun body s' => keepsFrom_pure ?_
      simp only [Expression.held, List.append_assoc, List.cons_append, List.nil_append]
  · exact keepsFrom_fail _

/-- A group holds its tokens; but a `=>` after something in parentheses that is no name is
dropped. -/
theorem parseGroup_keeps {token : TwigToken} (h : s.tokens[0]? = some token)
    (hkind : token.kind = .leftParen) :
    KeepsFrom s [] (parseGroup parseWithPrecedence fuel) Expression.held := by
  refine keepsFrom_consume_skipped h (by rw [hkind]; rfl) fun s' => ?_
  refine keepsFrom_isAt (fun closing hclosing hright => ?_) ?_
  · refine keepsFrom_consume_skipped hclosing (by rw [hright]; rfl) fun s' => ?_
    refine keepsFrom_tryConsume (fun s' => ?_) fun fatArrow s' harrow => ?_
    · exact keepsFrom_lookahead fun next _ => keepsFrom_failUnexpected next _
    · rw [heldOf_held (by rw [harrow]; rfl)]
      exact (hparse 0).bind fun body s' => keepsFrom_pure rfl
  · refine (hparse 0).bind fun inner s' => ?_
    refine keepsFrom_isAt (fun comma _ _ => finishArrowParameters_keeps hparse fuel token inner) ?_
    refine takes_expectKind.bind_skipped rfl fun rightParenthesis s' _ => ?_
    refine keepsFrom_tryConsume (fun s' => keepsFrom_pure rfl) fun fatArrow s' harrow => ?_
    rw [heldOf_held (by rw [harrow]; rfl), List.nil_append]
    cases hname : inner.isName with
    | true =>
      have hkeeps : (Arrow.grouped inner).Keeps := hname
      refine keepsFrom_note hkeeps fun s' => ?_
      unfold Expression.isName at hname
      split at hname
      · refine (hparse 0).bind fun body s' => keepsFrom_pure ?_
        simp only [Expression.held, List.cons_append, List.nil_append]
      · cases hname
    | false =>
      have hlost : ¬(Arrow.grouped inner).Keeps := Bool.eq_false_iff.mp hname
      have hless : inner.held.length < (inner.held ++ [fatArrow]).length := by
        rw [List.length_append]
        exact Nat.lt_succ_self _
      refine keepsFrom_note_lost inner.held hlost hless fun s' => ?_
      split
      · cases hname
      · exact keepsFrom_pure rfl

/-! ## Precedence climbing -/

theorem parsePrimary_keeps : Keeps (parsePrimary parseWithPrecedence fuel) Expression.held := by
  intro s
  refine keepsFrom_lookahead fun token htoken => ?_
  cases token with
  | none => exact keepsFrom_failUnexpected none _
  | some token =>
    dsimp only
    refine keepsFrom_ite (fun hnumber => ?_) fun _ =>
      keepsFrom_ite (fun hstring => ?_) fun _ =>
      keepsFrom_ite (fun hquote => ?_) fun _ =>
      keepsFrom_ite (fun hname => ?_) fun _ =>
      keepsFrom_ite (fun hbracket => ?_) fun _ =>
      keepsFrom_ite (fun hgroup => ?_) fun _ =>
      keepsFrom_ite (fun hbrace => ?_) fun _ =>
      keepsFrom_ite (fun hkeyword => ?_) fun _ => ?_
    · exact keepsFrom_consume_held htoken (by rw [hnumber]; rfl) fun s' => keepsFrom_pure rfl
    · have hheld : token.kind.isHeld = true := by
        rcases hstring with hkind | hkind <;> rw [hkind] <;> rfl
      refine keepsFrom_consume_held htoken hheld fun s' => ?_
      exact maybeExtendString_keeps hparse fuel fuel (.string token) s'
    · refine KeepsFrom.bind (parseInterpolatedString_keeps hparse fuel htoken hquote)
        fun expression s' => ?_
      exact maybeExtendString_keeps hparse fuel fuel expression s'
    · refine keepsFrom_consume_held htoken (by rw [hname]; rfl) fun s' => keepsFrom_pure ?_
      rw [held_nameExpression, List.nil_append]
    · exact parseArray_keeps hparse fuel s
    · exact parseGroup_keeps hparse fuel htoken hgroup
    · exact parseHashMap_keeps hparse fuel s
    · have hheld := isHeld_of_isKeywordUsableAsName (Bool.and_eq_true_iff.mp hkeyword).1
      exact keepsFrom_consume_held htoken hheld fun s' => keepsFrom_pure rfl
    · exact keepsFrom_fail _

theorem parsePrefix_keeps : Keeps (parsePrefix parseWithPrecedence fuel) Expression.held := by
  intro s
  refine keepsFrom_lookahead fun token htoken => ?_
  cases token with
  | none => exact keepsFrom_failUnexpected none _
  | some token =>
    dsimp only
    cases hunary : unaryOperator token.kind with
    | none => exact parsePrimary_keeps hparse fuel s
    | some operator =>
      refine keepsFrom_consume_held htoken (isHeld_of_unaryOperator hunary) fun s' => ?_
      exact (hparse operator.2).bind fun operand s' => keepsFrom_pure rfl

/-- One turn of the loop keeps the tokens of the expression so far; but a `=>` loses those that
cannot be its parameter. -/
theorem extend_keeps (minPrecedence : ℕ) (left : Expression) {token : TwigToken}
    (h : s.tokens[0]? = some token) :
    KeepsFrom s left.held (extend parseWithPrecedence fuel minPrecedence left token)
      fun extended => extended.elim left.held Expression.held := by
  refine keepsFrom_ite (fun hassign => ?_) fun _ => ?_
  · refine keepsFrom_consume_held h (by rw [hassign.2]; rfl) fun s' => ?_
    refine (hparse 0).bind fun rhs s' => keepsFrom_pure ?_
    simp only [Option.elim_some, Expression.held, BinaryOperator.held, hassign.2,
      List.append_assoc]
  · cases hoperator : classifyBinaryOperator token.kind with
    | some operator =>
      refine keepsFrom_ite (fun _ => keepsFrom_pure rfl) fun _ => ?_
      obtain ⟨hheld, hholds⟩ := held_of_classifyBinaryOperator operator.1 hoperator
      refine keepsFrom_consume_held h hheld fun s' => ?_
      refine (hparse _).bind fun rhs s' => keepsFrom_pure ?_
      simp only [Option.elim_some, Expression.held, hholds, List.append_assoc]
    | none =>
      dsimp only
      refine keepsFrom_ite (fun hquestion => ?_) fun _ =>
        keepsFrom_ite (fun helvis => ?_) fun _ =>
        keepsFrom_ite (fun hpipe => ?_) fun _ =>
        keepsFrom_ite (fun hdot => ?_) fun _ =>
        keepsFrom_ite (fun hnullDot => ?_) fun _ =>
        keepsFrom_ite (fun hbracket => ?_) fun _ =>
        keepsFrom_ite (fun hcall => ?_) fun _ =>
        keepsFrom_ite (fun his => ?_) fun _ =>
        keepsFrom_ite (fun harrow => ?_) fun _ => ?_
      · refine KeepsFrom.bind (parseConditional_keeps hparse left h hquestion.1) fun _ s' => ?_
        exact keepsFrom_pure rfl
      · refine KeepsFrom.bind (parseElvis_keeps hparse left h helvis.1) fun _ s' => ?_
        exact keepsFrom_pure rfl
      · refine keepsFrom_consume_held h (by rw [hpipe]; rfl) fun s' => ?_
        exact KeepsFrom.bind (parseFilter_keeps hparse fuel left token) fun _ s' =>
          keepsFrom_pure rfl
      · refine keepsFrom_consume h fun s' _ => ?_
        exact KeepsFrom.bind (parseDotAccess_keeps hparse fuel left token false) fun _ s' =>
          keepsFrom_pure rfl
      · refine keepsFrom_consume h fun s' _ => ?_
        exact KeepsFrom.bind (parseDotAccess_keeps hparse fuel left token true) fun _ s' =>
          keepsFrom_pure rfl
      · exact KeepsFrom.bind (parseBracketAccess_keeps hparse left h hbracket) fun _ s' =>
          keepsFrom_pure rfl
      · refine (parseArgumentList_keeps hparse fuel).bind fun argumentList s' => ?_
        exact keepsFrom_pure (held_call left argumentList)
      · refine keepsFrom_consume_held h (by rw [his]; rfl) fun s' => ?_
        exact KeepsFrom.bind (parseTest_keeps hparse fuel left token) fun _ s' =>
          keepsFrom_pure rfl
      · refine keepsFrom_consume_held h (by rw [harrow]; rfl) fun s' => ?_
        by_cases hkeeps : (Arrow.bare left).Keeps
        · refine keepsFrom_note hkeeps fun s' => ?_
          refine (hparse 0).bind fun body s' => keepsFrom_pure ?_
          simp only [Option.elim_some, Expression.held, arrowParametersFrom_of_keeps hkeeps,
            List.append_assoc, List.cons_append, List.nil_append]
        · have hleft : left.held ≠ [] := fun hempty => hkeeps (.inr hempty)
          have hparameters : arrowParametersFrom left = [] := by
            refine arrowParametersFrom_of_not ?_
            exact Bool.eq_false_iff.mpr fun hnames => hkeeps (.inl hnames)
          refine keepsFrom_note_lost [token] hkeeps ?_ fun s' => ?_
          · rw [List.length_append]
            have hpos := List.length_pos_of_ne_nil hleft
            omega
          · refine (hparse 0).bind fun body s' => keepsFrom_pure ?_
            simp only [Option.elim_some, Expression.held, hparameters, List.cons_append,
              List.nil_append]
      · exact keepsFrom_pure rfl

theorem expressionLoop_keeps (minPrecedence turns : ℕ) (left : Expression) (s : State) :
    KeepsFrom s left.held (expressionLoop parseWithPrecedence fuel minPrecedence turns left)
      Expression.held := by
  induction turns generalizing left s with
  | zero => exact keepsFrom_outOfFuel
  | succ turns ih =>
    refine keepsFrom_lookahead fun token htoken => ?_
    cases token with
    | none => exact keepsFrom_pure rfl
    | some token =>
      refine KeepsFrom.bind (extend_keeps hparse fuel minPrecedence left htoken)
        fun extended s' => ?_
      cases extended with
      | none => exact keepsFrom_pure rfl
      | some left => exact ih left s'

end Parts

theorem parseExpressionWithPrecedence_keeps (fuel depth minPrecedence : ℕ) :
    Keeps (parseExpressionWithPrecedence fuel depth minPrecedence) Expression.held := by
  induction fuel generalizing depth minPrecedence with
  | zero => exact fun s => keepsFrom_outOfFuel
  | succ fuel ih =>
    intro s
    unfold parseExpressionWithPrecedence
    refine keepsFrom_ite (fun _ => keepsFrom_position fun position => keepsFrom_fail _) fun _ => ?_
    refine KeepsFrom.bind (parsePrefix_keeps (ih (depth + 1)) fuel s) fun left s' => ?_
    exact expressionLoop_keeps (ih (depth + 1)) fuel minPrecedence fuel left s'

/-- An expression parsed without an error holds exactly the tokens consumed for it if and only if
each `=>` that was taken can keep what stands before it. -/
theorem parseExpression_keeps_iff {fuel depth : ℕ} {s s' : State} {expression : Expression}
    (hrun : (parseExpression fuel depth).run s = some (.ok expression, s'))
    (herrors : s'.errors = s.errors) :
    ∃ consumed arrows, s.tokens = consumed ++ s'.tokens ∧ s'.notes = s.notes ++ arrows ∧
      (expression.held = heldOf consumed ↔ ∀ arrow ∈ arrows, arrow.Keeps) := by
  obtain ⟨consumed, arrows, htokens, hnotes, hkept⟩ :=
    parseExpressionWithPrecedence_keeps fuel depth 0 s expression s' hrun (congrArg _ herrors)
  refine ⟨consumed, arrows, htokens, hnotes, ?_⟩
  rcases hkept with ⟨hkeeps, hheld⟩ | ⟨hlost, hlength⟩
  · exact iff_of_true hheld hkeeps
  · refine iff_of_false (fun hheld => ?_) fun hkeeps => ?_
    · rw [hheld, List.length_nil, Nat.zero_add] at hlength
      exact lt_irrefl _ hlength
    · obtain ⟨arrow, hmem, hloses⟩ := hlost
      exact hloses (hkeeps arrow hmem)

/-- The tokens of a number, an infix and a number. -/
def infixTokens (infixKind : TwigTokenKind) : List TwigToken :=
  [⟨.number, [0x31], 0⟩, ⟨infixKind, [0x2B], 2⟩, ⟨.number, [0x32], 4⟩]

theorem parseExpression_keeps_iff_sum : ∃ (consumed : List TwigToken) (arrows : List Arrow),
    infixTokens .plus = consumed ++ [] ∧ [] = [] ++ arrows ∧
      ((Expression.binary ⟨.addition, ⟨.plus, [0x2B], 2⟩⟩ (.number ⟨.number, [0x31], 0⟩ false)
        (.number ⟨.number, [0x32], 4⟩ false)).held = heldOf consumed ↔
          ∀ arrow ∈ arrows, arrow.Keeps) :=
  @parseExpression_keeps_iff 4 0 ⟨infixTokens .plus, 0, [], []⟩ ⟨[], 5, [], []⟩ _ rfl rfl

/-- A number before `=>` is lost without an error. -/
theorem parseExpression_loses_operand : ∃ expression s', (parseExpression 4 0).run
    ⟨infixTokens .fatArrow, 0, [], []⟩ = some (.ok expression, s') ∧ s'.errors = [] ∧
      s'.tokens = [] ∧ expression.held ≠ heldOf (infixTokens .fatArrow) := by
  refine ⟨_, _, rfl, rfl, rfl, ?_⟩
  decide

end Mago.Twig
