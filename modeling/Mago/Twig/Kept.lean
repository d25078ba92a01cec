import Mago.Twig.Parser

/-!
# The tokens that a Twig expression keeps

An expression that was parsed without an error holds the tokens that were consumed for it, unless
a `=>` was taken after something that cannot become its parameters.
-/
namespace Mago.Twig
open Mago.Library.Parser

/-! ## Arrows -/

/-- A name, also in parentheses. -/
def Expression.namesParameter : Expression → Bool
  | .name _ | .parenthesized _ (.name _) _ => true
  | _ => false

/-- What stands before a `=>` can become its parameter, or holds no token. -/
def Arrow.Keeps : Arrow → Prop
  | .bare left => left.namesParameter = true ∨ left.held = []
  | .grouped inner => inner.isName = true

theorem arrowParametersFrom_of_names {left : Expression} (h : left.namesParameter = true) :
    arrowParametersFrom left = left.held := by
  unfold Expression.namesParameter at h
  split at h
  · rfl
  · rfl
  · cases h

theorem arrowParametersFrom_of_not {left : Expression} (h : left.namesParameter = false) :
    arrowParametersFrom left = [] := by
  unfold Expression.namesParameter at h
  split at h
  · cases h
  · cases h
  · next hname hparenthesized =>
    unfold arrowParametersFrom
    split
    · exact absurd rfl (hname _)
    · exact absurd rfl (hparenthesized _ _ _)
    · rfl

theorem arrowParametersFrom_of_keeps {left : Expression} (h : (Arrow.bare left).Keeps) :
    arrowParametersFrom left = left.held := by
  cases hnames : left.namesParameter with
  | true => exact arrowParametersFrom_of_names hnames
  | false =>
    have hempty := h.resolve_left (Bool.eq_false_iff.mp hnames)
    rw [arrowParametersFrom_of_not hnames, hempty]

/-- After the tokens before it a parser holds all that it consumed, or an arrow has lost some. -/
def Kept (before held consumed : List TwigToken) (arrows : List Arrow) : Prop :=
  (∀ arrow ∈ arrows, arrow.Keeps) ∧ held = before ++ heldOf consumed ∨
    (∃ arrow ∈ arrows, ¬arrow.Keeps) ∧ held.length < before.length + (heldOf consumed).length

section Kept

variable {before middle held consumed consumed' : List TwigToken} {arrows arrows' : List Arrow}

theorem kept_refl : Kept before before [] [] :=
  .inl ⟨fun _ h => absurd h List.not_mem_nil, (List.append_nil before).symm⟩

theorem kept_take (token : TwigToken) : Kept before (before ++ heldOf [token]) [token] [] :=
  .inl ⟨fun _ h => absurd h List.not_mem_nil, rfl⟩

theorem kept_arrow {arrow : Arrow} (h : arrow.Keeps) : Kept before before [] [arrow] := by
  refine .inl ⟨fun other hother => ?_, (List.append_nil before).symm⟩
  rw [List.mem_singleton.mp hother]
  exact h

theorem kept_lost {arrow : Arrow} (h : ¬arrow.Keeps) (hlength : held.length < before.length) :
    Kept before held [] [arrow] :=
  .inr ⟨⟨arrow, List.mem_singleton_self arrow, h⟩, hlength⟩

theorem Kept.length_le (h : Kept before held consumed arrows) :
    held.length ≤ before.length + (heldOf consumed).length := by
  obtain ⟨-, rfl⟩ | ⟨-, hlength⟩ := h
  · exact (List.length_append).le
  · exact hlength.le

theorem Kept.append (h : Kept before middle consumed arrows)
    (h' : Kept middle held consumed' arrows') :
    Kept before held (consumed ++ consumed') (arrows ++ arrows') := by
  have hlength := h.length_le
  have hlength' := h'.length_le
  have hsum : (heldOf (consumed ++ consumed')).length =
      (heldOf consumed).length + (heldOf consumed').length := by
    rw [heldOf_append, List.length_append]
  rcases h with ⟨hkeeps, hheld⟩ | ⟨⟨arrow, hmem, hlost⟩, hless⟩
  · rcases h' with ⟨hkeeps', hheld'⟩ | ⟨⟨arrow, hmem, hlost⟩, hless⟩
    · refine .inl ⟨fun arrow hmem => ?_, ?_⟩
      · exact (List.mem_append.mp hmem).elim (hkeeps arrow) (hkeeps' arrow)
      · rw [hheld', hheld, heldOf_append, List.append_assoc]
    · exact .inr ⟨⟨arrow, List.mem_append_right arrows hmem, hlost⟩, by omega⟩
  · exact .inr ⟨⟨arrow, List.mem_append_left arrows' hmem, hlost⟩, by omega⟩

theorem Kept.frame (h : Kept middle held consumed arrows) (before : List TwigToken) :
    Kept (before ++ middle) (before ++ held) consumed arrows := by
  rcases h with ⟨hkeeps, hheld⟩ | ⟨hlost, hlength⟩
  · exact .inl ⟨hkeeps, by rw [hheld, List.append_assoc]⟩
  · refine .inr ⟨hlost, ?_⟩
    rw [List.length_append, List.length_append]
    omega

end Kept

/-! ## Rules for parsers -/

abbrev State := Library.ParserState TwigToken ParseError Arrow

/-- The result of a parser that starts after some tokens holds them and what it consumed. -/
def KeepsFrom {α : Type} (s : State) (before : List TwigToken) (p : Parser α)
    (held : α → List TwigToken) : Prop :=
  ConsumesAt s p fun a consumed arrows => Kept before (held a) consumed arrows

def Keeps {α : Type} (p : Parser α) (held : α → List TwigToken) : Prop :=
  ∀ s, KeepsFrom s [] p held

section Rules

variable {α β : Type} {s : State} {before middle : List TwigToken} {p : Parser α}
  {f : α → Parser β} {held : α → List TwigToken} {held' : β → List TwigToken}

theorem keepsFrom_pure {a : α} (h : held a = before) : KeepsFrom s before (pure a) held := by
  refine consumesAt_pure ?_
  rw [h]
  exact kept_refl

theorem keepsFrom_ite {c : Prop} [Decidable c] {q : Parser α} (hp : c → KeepsFrom s before p held)
    (hq : ¬c → KeepsFrom s before q held) : KeepsFrom s before (if c then p else q) held := by
  split
  · next h => exact hp h
  · next h => exact hq h

theorem keepsFrom_fail (e : ParseError) : KeepsFrom s before (fail e) held := consumesAt_fail e

theorem keepsFrom_outOfFuel : KeepsFrom s before outOfFuel held := consumesAt_outOfFuel

theorem KeepsFrom.bind (hp : KeepsFrom s before p held)
    (hf : ∀ a s', KeepsFrom s' (held a) (f a) held') : KeepsFrom s before (p >>= f) held' := by
  refine ConsumesAt.bind hp fun a s' consumed arrows _ hkept => ?_
  exact (hf a s').weaken fun b consumed' arrows' hkept' => hkept.append hkept'

theorem KeepsFrom.frame (hp : KeepsFrom s middle p held) (before : List TwigToken) :
    KeepsFrom s (before ++ middle) p fun a => before ++ held a :=
  ConsumesAt.weaken hp fun _ _ _ hkept => hkept.frame before

theorem Keeps.from (hp : Keeps p held) (s : State) (before : List TwigToken) :
    KeepsFrom s before p fun a => before ++ held a := by
  have hframe := (hp s).frame before
  rw [List.append_nil] at hframe
  exact hframe

theorem Keeps.bind (hp : Keeps p held)
    (hf : ∀ a s', KeepsFrom s' (before ++ held a) (f a) held') :
    KeepsFrom s before (p >>= f) held' :=
  (hp.from s before).bind hf

theorem keepsFrom_lookahead {n : ℕ} {f : Option TwigToken → Parser β}
    (h : ∀ token, s.tokens[n]? = token → KeepsFrom s before (f token) held') :
    KeepsFrom s before (lookahead n >>= f) held' :=
  consumesAt_lookahead (h _ rfl)

theorem keepsFrom_recover {f : Option α → Parser β} (hp : KeepsFrom s before p held)
    (hf : ∀ a s', KeepsFrom s' (held a) (f (some a)) held') :
    KeepsFrom s before (recover p >>= f) held' := by
  refine ConsumesAt.bind hp.recover fun o s' consumed arrows _ hresult => ?_
  obtain ⟨a, rfl, hkept⟩ := hresult
  exact (hf a s').weaken fun b consumed' arrows' hkept' => hkept.append hkept'

theorem keepsFrom_position {f : ℕ → Parser β} (h : ∀ n, KeepsFrom s before (f n) held') :
    KeepsFrom s before (position >>= f) held' :=
  consumesAt_position (h _)

theorem consumesAt_failUnexpected {P : α → List TwigToken → List Arrow → Prop}
    (found : Option TwigToken) (expected : List TwigTokenKind) :
    ConsumesAt s (failUnexpected found expected) P := by
  refine consumesAt_position ?_
  cases found with
  | none => exact consumesAt_fail _
  | some token => exact consumesAt_fail _

theorem keepsFrom_failUnexpected (found : Option TwigToken) (expected : List TwigTokenKind) :
    KeepsFrom s before (failUnexpected found expected) held :=
  consumesAt_failUnexpected found expected

theorem keepsFrom_peekKind {n : ℕ} {f : Option TwigTokenKind → Parser β}
    (h : ∀ token, s.tokens[n]? = token → KeepsFrom s before (f (token.map TwigToken.kind)) held') :
    KeepsFrom s before (peekKind n >>= f) held' := by
  intro b s' hrun herrors
  exact h _ rfl b s' hrun herrors

theorem keepsFrom_isAt {kind : TwigTokenKind} {f : Bool → Parser β}
    (htrue : ∀ token, s.tokens[0]? = some token → token.kind = kind →
      KeepsFrom s before (f true) held')
    (hfalse : KeepsFrom s before (f false) held') :
    KeepsFrom s before (isAt kind >>= f) held' := by
  have hat : KeepsFrom s before (f (s.tokens[0]?.map TwigToken.kind == some kind)) held' := by
    cases htoken : s.tokens[0]? with
    | none => exact hfalse
    | some token =>
      cases hkind : (some token).map TwigToken.kind == some kind with
      | false => exact hfalse
      | true => exact htrue token htoken (Option.some.inj (eq_of_beq hkind))
  intro b s' hrun herrors
  exact hat b s' hrun herrors

/-! ### Taking a token -/

/-- A parser that takes one token and returns it. -/
def Takes (s : State) (p : Parser TwigToken) (R : TwigToken → Prop) : Prop :=
  ConsumesAt s p fun token consumed arrows => consumed = [token] ∧ arrows = [] ∧ R token

variable {R : TwigToken → Prop}

theorem Takes.bind {p : Parser TwigToken} {f : TwigToken → Parser β} (hp : Takes s p R)
    (hf : ∀ token s', s.tokens = token :: s'.tokens → R token →
      KeepsFrom s' (before ++ heldOf [token]) (f token) held') :
    KeepsFrom s before (p >>= f) held' := by
  refine ConsumesAt.bind hp fun token s' consumed arrows htokens htaken => ?_
  obtain ⟨rfl, rfl, hR⟩ := htaken
  refine (hf token s' htokens hR).weaken fun b consumed' arrows' hkept => ?_
  exact (kept_take token).append hkept

theorem Takes.bind_held {kind : TwigTokenKind} {p : Parser TwigToken} {f : TwigToken → Parser β}
    (hp : Takes s p fun token => token.kind = kind) (hkind : kind.isHeld = true)
    (hf : ∀ token s', token.kind = kind → KeepsFrom s' (before ++ [token]) (f token) held') :
    KeepsFrom s before (p >>= f) held' := by
  refine hp.bind fun token s' _ htoken => ?_
  rw [heldOf_held (htoken ▸ hkind)]
  exact hf token s' htoken

theorem Takes.bind_skipped {kind : TwigTokenKind} {p : Parser TwigToken}
    {f : TwigToken → Parser β} (hp : Takes s p fun token => token.kind = kind)
    (hkind : kind.isHeld = false)
    (hf : ∀ token s', token.kind = kind → KeepsFrom s' before (f token) held') :
    KeepsFrom s before (p >>= f) held' := by
  refine hp.bind fun token s' _ htoken => ?_
  rw [heldOf_skipped (htoken ▸ hkind), List.append_nil]
  exact hf token s' htoken

theorem takes_consume : Takes s consume fun token => s.tokens[0]? = some token := by
  refine consumesAt_advance (fun _ => ?_) fun token s' htokens => ?_
  · exact consumesAt_failUnexpected none []
  · exact consumesAt_pure ⟨rfl, rfl, by rw [htokens]; rfl⟩

theorem takes_head {token : TwigToken} (h : s.tokens[0]? = some token) :
    Takes s consume fun taken => taken = token := by
  refine takes_consume.weaken fun taken consumed arrows htaken => ?_
  obtain ⟨hconsumed, harrows, hhead⟩ := htaken
  exact ⟨hconsumed, harrows, Option.some.inj (hhead.symm.trans h)⟩

theorem keepsFrom_consume {token : TwigToken} {f : TwigToken → Parser β}
    (h : s.tokens[0]? = some token)
    (hf : ∀ s', s.tokens = token :: s'.tokens →
      KeepsFrom s' (before ++ heldOf [token]) (f token) held') :
    KeepsFrom s before (consume >>= f) held' := by
  refine (takes_head h).bind fun taken s' htokens hsame => ?_
  rw [hsame] at htokens ⊢
  exact hf s' htokens

theorem keepsFrom_consume_held {token : TwigToken} {f : TwigToken → Parser β}
    (h : s.tokens[0]? = some token) (hheld : token.kind.isHeld = true)
    (hf : ∀ s', KeepsFrom s' (before ++ [token]) (f token) held') :
    KeepsFrom s before (consume >>= f) held' := by
  refine keepsFrom_consume h fun s' _ => ?_
  rw [heldOf_held hheld]
  exact hf s'

theorem keepsFrom_consume_skipped {token : TwigToken} {f : TwigToken → Parser β}
    (h : s.tokens[0]? = some token) (hheld : token.kind.isHeld = false)
    (hf : ∀ s', KeepsFrom s' before (f token) held') :
    KeepsFrom s before (consume >>= f) held' := by
  refine keepsFrom_consume h fun s' _ => ?_
  rw [heldOf_skipped hheld, List.append_nil]
  exact hf s'

theorem takes_eat {kind : TwigTokenKind} : Takes s (eat kind) fun token => token.kind = kind := by
  refine consumesAt_lookahead ?_
  cases htoken : s.tokens[0]? with
  | none => exact consumesAt_failUnexpected none [kind]
  | some token =>
    dsimp only
    split
    · next hkind =>
      refine (takes_head htoken).weaken fun taken consumed arrows htaken => ?_
      obtain ⟨hconsumed, harrows, rfl⟩ := htaken
      exact ⟨hconsumed, harrows, hkind⟩
    · exact consumesAt_failUnexpected (some token) [kind]

theorem takes_expectThat {accepts : TwigTokenKind → Bool} {what : String} :
    Takes s (expectThat accepts what) fun token => accepts token.kind = true := by
  refine consumesAt_lookahead ?_
  cases htoken : s.tokens[0]? with
  | none => exact consumesAt_position (consumesAt_fail _)
  | some token =>
    dsimp only
    split
    · next haccepts =>
      refine (takes_head htoken).weaken fun taken consumed arrows htaken => ?_
      obtain ⟨hconsumed, harrows, rfl⟩ := htaken
      exact ⟨hconsumed, harrows, haccepts⟩
    · exact consumesAt_fail _

theorem takes_expectKind {kind : TwigTokenKind} {what : String} :
    Takes s (expectKind kind what) fun token => token.kind = kind :=
  takes_expectThat.weaken fun _ _ _ htaken => ⟨htaken.1, htaken.2.1, eq_of_beq htaken.2.2⟩

/-- The next token is taken where it is one of some; else nothing is. -/
theorem keepsFrom_consumeIf {accepts : TwigToken → Bool} {f : Option TwigToken → Parser β}
    (hnone : ∀ s', KeepsFrom s' before (f none) held')
    (hsome : ∀ token s', accepts token = true →
      KeepsFrom s' (before ++ heldOf [token]) (f (some token)) held') :
    KeepsFrom s before (consumeIf accepts >>= f) held' := by
  have htaken : ConsumesAt s (consumeIf accepts) fun o consumed arrows => arrows = [] ∧
      consumed = o.toList ∧ ∀ token ∈ o, accepts token = true := by
    refine consumesAt_lookahead ?_
    cases htoken : s.tokens[0]? with
    | none => exact consumesAt_pure ⟨rfl, rfl, fun token h => nomatch h⟩
    | some token =>
      dsimp only
      split
      · next haccepts =>
        refine ConsumesAt.bind (takes_head htoken) fun taken s' consumed arrows _ htaken => ?_
        obtain ⟨rfl, rfl, rfl⟩ := htaken
        refine consumesAt_pure ⟨rfl, rfl, fun other hother => ?_⟩
        rw [← Option.some.inj hother]
        exact haccepts
      · exact consumesAt_pure ⟨rfl, rfl, fun token h => nomatch h⟩
  refine ConsumesAt.bind htaken fun o s' consumed arrows _ hresult => ?_
  obtain ⟨rfl, rfl, haccepts⟩ := hresult
  cases o with
  | none => exact hnone s'
  | some token =>
    refine (hsome token s' (haccepts token rfl)).weaken fun b consumed' arrows' hkept => ?_
    exact (kept_take token).append hkept

theorem keepsFrom_consumeIf_held {accepts : TwigToken → Bool} {f : Option TwigToken → Parser β}
    (hheld : ∀ token, accepts token = true → token.kind.isHeld = true)
    (hf : ∀ o s', KeepsFrom s' (before ++ o.toList) (f o) held') :
    KeepsFrom s before (consumeIf accepts >>= f) held' := by
  refine keepsFrom_consumeIf (fun s' => ?_) fun token s' haccepts => ?_
  · have hnone := hf none s'
    rw [Option.toList_none, List.append_nil] at hnone
    exact hnone
  · rw [heldOf_held (hheld token haccepts)]
    exact hf (some token) s'

theorem keepsFrom_tryConsume {kind : TwigTokenKind} {f : Option TwigToken → Parser β}
    (hnone : ∀ s', KeepsFrom s' before (f none) held')
    (hsome : ∀ token s', token.kind = kind →
      KeepsFrom s' (before ++ heldOf [token]) (f (some token)) held') :
    KeepsFrom s before (tryConsume kind >>= f) held' :=
  keepsFrom_consumeIf hnone fun token s' haccepts => hsome token s' (eq_of_beq haccepts)

/-! ### Noting an arrow -/

theorem keepsFrom_note {arrow : Arrow} {f : Unit → Parser β} (h : arrow.Keeps)
    (hf : ∀ s', KeepsFrom s' before (f ()) held') :
    KeepsFrom s before (note arrow >>= f) held' :=
  consumesAt_note fun s' => (hf s').weaken fun _ _ _ hkept => (kept_arrow h).append hkept

/-- An arrow that loses tokens goes on after fewer of them. -/
theorem keepsFrom_note_lost {arrow : Arrow} {f : Unit → Parser β} (middle : List TwigToken)
    (h : ¬arrow.Keeps) (hlength : middle.length < before.length)
    (hf : ∀ s', KeepsFrom s' middle (f ()) held') :
    KeepsFrom s before (note arrow >>= f) held' :=
  consumesAt_note fun s' => (hf s').weaken fun _ _ _ hkept => (kept_lost h hlength).append hkept

/-! ### Delimited sequences -/

variable {closeKind separatorKind : TwigTokenKind}

theorem sequenceLoop_keeps (hseparator : separatorKind.isHeld = false) (hp : Keeps p held)
    (fuel : ℕ) (elements : List α) (separators : List TwigToken) (s : State) :
    KeepsFrom s (elements.flatMap held)
      (sequenceLoop closeKind separatorKind p fuel elements separators)
      fun sequence => sequence.1.flatMap held := by
  induction fuel generalizing elements separators s with
  | zero => exact keepsFrom_outOfFuel
  | succ fuel ih =>
    refine keepsFrom_lookahead fun next hnext => ?_
    cases next with
    | none => exact keepsFrom_failUnexpected none [closeKind]
    | some next =>
      dsimp only
      split
      · exact keepsFrom_pure rfl
      · refine keepsFrom_recover (hp.from s (elements.flatMap held)) fun element s' => ?_
        rw [← List.flatMap_singleton held element, ← List.flatMap_append]
        refine keepsFrom_tryConsume (fun s' => keepsFrom_pure rfl) fun separator s' hkind => ?_
        rw [heldOf_skipped (hkind ▸ hseparator), List.append_nil]
        exact ih _ _ s'

/-- A sequence without an error ends with its closing token. -/
theorem parseTokenSeparatedSequence_keeps (openKind : TwigTokenKind)
    (hopen : openKind.isHeld = false) (hclose : closeKind.isHeld = false)
    (hseparator : separatorKind.isHeld = false) (hp : Keeps p held) (fuel : ℕ) :
    Keeps (parseTokenSeparatedSequence closeKind separatorKind p openKind fuel)
      fun sequence => sequence.nodes.flatMap held := by
  intro s
  refine takes_eat.bind_skipped hopen fun opening s' _ => ?_
  refine (sequenceLoop_keeps hseparator hp fuel [] [] s').bind fun sequence s' => ?_
  refine keepsFrom_lookahead fun current hcurrent => ?_
  cases current with
  | none => exact keepsFrom_failUnexpected none [closeKind]
  | some current =>
    dsimp only
    split
    · next hclosing =>
      exact keepsFrom_consume_skipped hcurrent (hclosing ▸ hclose) fun s' => keepsFrom_pure rfl
    · exact consumesAt_record

theorem parseCommaSeparatedSequence_keeps (openKind : TwigTokenKind)
    (hopen : openKind.isHeld = false) (hclose : closeKind.isHeld = false) (hp : Keeps p held)
    (fuel : ℕ) :
    Keeps (parseCommaSeparatedSequence openKind closeKind p fuel)
      fun sequence => sequence.nodes.flatMap held :=
  parseTokenSeparatedSequence_keeps openKind hopen hclose rfl hp fuel

end Rules

end Mago.Twig
