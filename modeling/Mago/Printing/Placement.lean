import Mathlib.Data.List.Nodup
import Mathlib.Logic.Function.Basic
import Mathlib.Logic.Relation
import Mathlib.Tactic.Linarith

/-!
# Placing comments

The comments of a file are attached to the nodes of its tree by one traversal, which moves a cursor
over them. Whatever the tree is, every comment is considered once, in order, and is either in one
list of one span or in none. Nodes are told apart by their spans, as the map does.
-/
namespace Mago.Printing

structure Span where
  start : ℕ
  stop : ℕ
  deriving DecidableEq

/-! ## The tree -/

mutual

/-- The expressions that the placement looks into, and the others with their children. -/
inductive Expression
  | parenthesized (span : Span) (expression : Expression)
  | binary (span : Span) (lhs : Expression) (operator : Node) (rhs : Expression)
  | conditional (span : Span) (condition : Expression) (questionMark : Span)
      (thenBranch : Option Expression) (colon : Span) (elseBranch : Expression)
  | arrowFunction (span : Span) (children : List Node) (arrow : Span) (expression : Expression)
  | other (span : Span) (children : List Node)

/-- An expression, the form that an expression has, or any other node. -/
inductive Node
  | expression (e : Expression)
  | form (e : Expression)
  | other (span : Span) (children : List Node)

end

def Expression.span : Expression → Span
  | parenthesized span _ => span
  | binary span _ _ _ => span
  | conditional span _ _ _ _ _ => span
  | arrowFunction span _ _ _ => span
  | other span _ => span

def Node.span : Node → Span
  | expression e => e.span
  | form e => e.span
  | other span _ => span

def Node.visitChildren : Node → List Node
  | expression e => [form e]
  | form (.parenthesized _ e) => [expression e]
  | form (.binary _ lhs operator rhs) => [expression lhs, operator, expression rhs]
  | form (.conditional _ condition _ thenBranch _ elseBranch) =>
    expression condition :: (thenBranch.toList.map expression ++ [expression elseBranch])
  | form (.arrowFunction _ children _ e) => children ++ [expression e]
  | form (.other _ children) => children
  | other _ children => children

def unwrapParenthesized : Expression → Expression
  | .parenthesized _ e => unwrapParenthesized e
  | e => e
termination_by e => sizeOf e

def isBinaryOrConditional : Expression → Bool
  | .binary .. => true
  | .conditional .. => true
  | _ => false

def isBinaryLike : Node → Bool
  | .expression e => isBinaryOrConditional (unwrapParenthesized e)
  | .form (.parenthesized _ e) => isBinaryOrConditional (unwrapParenthesized e)
  | .form e => isBinaryOrConditional e
  | .other _ _ => false

def unwrapParenthesizedNode : Node → Node
  | .form (.parenthesized _ e) => .expression (unwrapParenthesized e)
  | .expression e => .expression (unwrapParenthesized e)
  | node => node

/-- An expression counts for more than its form, and a node for more than its children. -/
noncomputable def Node.weight : Node → ℕ
  | expression e => 2 * sizeOf e + 1
  | form e => 2 * sizeOf e
  | other span children => 2 * sizeOf (other span children)

theorem Node.weight_form (e : Expression) : (form e).weight = 2 * sizeOf e := rfl

theorem Node.weight_other (span : Span) (children : List Node) :
    (other span children).weight = 2 * sizeOf (other span children) := rfl

theorem Node.weight_le (node : Node) : node.weight ≤ 2 * sizeOf node := by
  cases node with
  | expression e => rw [weight, expression.sizeOf_spec]; omega
  | form e => rw [weight, form.sizeOf_spec]; omega
  | other span children => exact le_rfl

theorem sizeOf_unwrapParenthesized (e : Expression) :
    sizeOf (unwrapParenthesized e) ≤ sizeOf e := by
  fun_induction unwrapParenthesized e with
  | case1 span e ih =>
    rw [Expression.parenthesized.sizeOf_spec]
    omega
  | case2 e h => exact le_rfl

theorem weight_unwrapParenthesizedNode (node : Node) :
    (unwrapParenthesizedNode node).weight ≤ node.weight := by
  fun_cases unwrapParenthesizedNode node with
  | case1 span e =>
    have hle := sizeOf_unwrapParenthesized e
    rw [Node.weight, Node.weight, Expression.parenthesized.sizeOf_spec]
    omega
  | case2 e =>
    have hle := sizeOf_unwrapParenthesized e
    rw [Node.weight, Node.weight]
    omega
  | case3 => exact le_rfl

theorem weight_of_mem {node : Node} {children : List Node} (h : node ∈ children) :
    node.weight < 2 * sizeOf children := by
  have hle := node.weight_le
  have hless := List.sizeOf_lt_of_mem h
  omega

theorem weight_of_mem_visitChildren {node child : Node} (h : child ∈ node.visitChildren) :
    child.weight < node.weight := by
  have hexpression : ∀ e n, sizeOf e < n → (Node.expression e).weight < 2 * n := by
    intro e n hless
    rw [Node.weight]
    omega
  fun_cases Node.visitChildren node with
  | case1 e =>
    rw [Node.visitChildren, List.mem_singleton] at h
    rw [h, Node.weight, Node.weight]
    omega
  | case2 span e =>
    rw [Node.visitChildren, List.mem_singleton] at h
    rw [h]
    apply hexpression
    rw [Expression.parenthesized.sizeOf_spec]
    omega
  | case3 span lhs operator rhs =>
    have hoperator := operator.weight_le
    simp only [Node.visitChildren, List.mem_cons, List.not_mem_nil, or_false] at h
    rcases h with rfl | rfl | rfl
    · apply hexpression
      rw [Expression.binary.sizeOf_spec]
      omega
    · rw [Node.weight_form, Expression.binary.sizeOf_spec]
      omega
    · apply hexpression
      rw [Expression.binary.sizeOf_spec]
      omega
  | case4 span condition questionMark thenBranch colon elseBranch =>
    simp only [Node.visitChildren, List.mem_cons, List.mem_append, List.mem_map,
      Option.mem_toList, List.not_mem_nil, or_false] at h
    rcases h with rfl | ⟨e, rfl, rfl⟩ | rfl
    · apply hexpression
      rw [Expression.conditional.sizeOf_spec]
      omega
    · apply hexpression
      rw [Expression.conditional.sizeOf_spec, Option.some.sizeOf_spec]
      omega
    · apply hexpression
      rw [Expression.conditional.sizeOf_spec]
      omega
  | case5 span children arrow e =>
    simp only [Node.visitChildren, List.mem_append, List.mem_singleton] at h
    rcases h with h | rfl
    · have hless := weight_of_mem h
      rw [Node.weight_form, Expression.arrowFunction.sizeOf_spec]
      omega
    · apply hexpression
      rw [Expression.arrowFunction.sizeOf_spec]
      omega
  | case6 span children =>
    have hless : child.weight < 2 * sizeOf children := weight_of_mem h
    rw [Node.weight_form, Expression.other.sizeOf_spec]
    omega
  | case7 span children =>
    have hless : child.weight < 2 * sizeOf children := weight_of_mem h
    rw [Node.weight_other, Node.other.sizeOf_spec]
    omega

/-! ## The comments -/

inductive CommentLinePosition
  | ownLine
  | endOfLine
  deriving DecidableEq

def CommentLinePosition.ofReversed : List UInt8 → CommentLinePosition
  | [] => .ownLine
  | byte :: rest =>
    if byte = 10 ∨ byte = 13 then .ownLine
    else if byte = 32 ∨ byte = 9 then ofReversed rest
    else .endOfLine

def CommentLinePosition.atOffset (sourceText : List UInt8) (offset : ℕ) : CommentLinePosition :=
  ofReversed (sourceText.take offset).reverse

inductive Placement
  | leading
  | trailing
  deriving DecidableEq

structure PlacedComment where
  index : ℕ
  placement : Placement
  linePosition : CommentLinePosition

structure DecoratedComment where
  enclosing : Node
  linePosition : CommentLinePosition
  commentIndex : ℕ
  triviaStart : ℕ

inductive CommentPlacement
  | leading (node : Node) (commentIndex : ℕ)
  | trailing (node : Node) (commentIndex : ℕ)
  | default

/-- The map gives a span without comments the empty list. -/
structure Comments where
  map : Span → List PlacedComment
  placed : List (Option Placement)
  consumed : List Bool

namespace Comments

def new (total : ℕ) : Comments where
  map _ := []
  placed := List.replicate total none
  consumed := List.replicate total false

def empty : Comments where
  map _ := []
  placed := []
  consumed := []

variable (comments : Comments)

def insert (nodeSpan : Span) (comment : PlacedComment) : Comments :=
  { comments with
    map := Function.update comments.map nodeSpan (comments.map nodeSpan ++ [comment]) }

def get (span : Span) : List PlacedComment := comments.map span

def markPlaced (index : ℕ) (placement : Placement) : Comments :=
  { comments with placed := comments.placed.set index (some placement) }

theorem get_insert (nodeSpan span : Span) (comment : PlacedComment) :
    (comments.insert nodeSpan comment).get span =
      if span = nodeSpan then comments.get nodeSpan ++ [comment] else comments.get span := by
  exact Function.update_apply comments.map nodeSpan _ span

@[simp]
theorem get_markPlaced (index : ℕ) (placement : Placement) (span : Span) :
    (comments.markPlaced index placement).get span = comments.get span := rfl

@[simp]
theorem placed_insert (nodeSpan : Span) (comment : PlacedComment) :
    (comments.insert nodeSpan comment).placed = comments.placed := rfl

end Comments

/-! ## Placing one comment -/

def placeBinary (comment : DecoratedComment) (lhs : Expression) (operator : Node)
    (rhs : Expression) : CommentPlacement :=
  let index := comment.commentIndex
  let cs := comment.triviaStart
  let lhs := unwrapParenthesized lhs
  let rhs := unwrapParenthesized rhs
  if cs < lhs.span.start then .leading (.expression lhs) index
  else if lhs.span.stop ≤ cs ∧ cs < operator.span.start then .trailing (.expression lhs) index
  else if operator.span.stop ≤ cs ∧ cs < rhs.span.start then .leading (.expression rhs) index
  else if rhs.span.stop ≤ cs then .trailing (.expression rhs) index
  else .default

def placeConditional (comment : DecoratedComment) (condition : Expression) (questionMark : Span)
    (thenBranch : Option Expression) (colon : Span) (elseBranch : Expression) :
    CommentPlacement :=
  let index := comment.commentIndex
  let cs := comment.triviaStart
  let condition := unwrapParenthesized condition
  let elseBranch := unwrapParenthesized elseBranch
  if cs < condition.span.start then .leading (.expression condition) index
  else
    match thenBranch with
    | some thenBranch =>
      let thenBranch := unwrapParenthesized thenBranch
      if condition.span.stop ≤ cs ∧ cs < questionMark.start then
        .trailing (.expression condition) index
      else if questionMark.stop ≤ cs ∧ cs < thenBranch.span.start then
        .leading (.expression thenBranch) index
      else if thenBranch.span.stop ≤ cs ∧ cs < colon.start then
        .trailing (.expression thenBranch) index
      else if colon.stop ≤ cs ∧ cs < elseBranch.span.start then
        .leading (.expression elseBranch) index
      else if elseBranch.span.stop ≤ cs then .trailing (.expression elseBranch) index
      else .default
    | none =>
      if condition.span.stop ≤ cs ∧ cs < questionMark.start then
        .trailing (.expression condition) index
      else if questionMark.start ≤ cs ∧ cs < elseBranch.span.start then
        .leading (.expression elseBranch) index
      else if elseBranch.span.stop ≤ cs then .trailing (.expression elseBranch) index
      else .default

/-- The placement by the form of an expression behind its parentheses. -/
def placeForm (comment : DecoratedComment) : Expression → CommentPlacement
  | .binary _ lhs operator rhs => placeBinary comment lhs operator rhs
  | .conditional _ condition questionMark thenBranch colon elseBranch =>
    placeConditional comment condition questionMark thenBranch colon elseBranch
  | .arrowFunction _ _ arrow e =>
    if arrow.stop ≤ comment.triviaStart ∧
        comment.triviaStart < (unwrapParenthesized e).span.start then
      .leading (.expression (unwrapParenthesized e)) comment.commentIndex
    else .default
  | _ => .default

/-- A comment in parentheses belongs to what is in them. -/
def placeComment (comment : DecoratedComment) : CommentPlacement :=
  match comment.enclosing with
  | .form (.parenthesized _ e) =>
    .leading (.expression (unwrapParenthesized e)) comment.commentIndex
  | .expression (.parenthesized _ e) =>
    .leading (.expression (unwrapParenthesized e)) comment.commentIndex
  | .expression e => placeForm comment (unwrapParenthesized e)
  | .form e => placeForm comment e
  | .other _ _ => .default

def placeAndInsert (decorated : DecoratedComment) (comments : Comments) : Comments :=
  match placeComment decorated with
  | .leading node index =>
    (comments.insert node.span ⟨index, .leading, decorated.linePosition⟩).markPlaced index .leading
  | .trailing node index =>
    (comments.insert node.span ⟨index, .trailing, decorated.linePosition⟩).markPlaced index
      .trailing
  | .default => comments

/-! ## The traversal -/

structure Trivia where
  start : ℕ

/-- The comments with the cursor, and the decorated comments that were placed so far. -/
structure State where
  comments : Comments
  cursor : ℕ
  considered : List DecoratedComment

section Traversal

variable (sourceText : List UInt8) (allComments : List Trivia)

def makeDecorated (cursor : ℕ) (h : cursor < allComments.length) (enclosing : Node) :
    DecoratedComment where
  enclosing
  linePosition := .atOffset sourceText allComments[cursor].start
  commentIndex := cursor
  triviaStart := allComments[cursor].start

/-- The comment at the cursor is placed, and the cursor moves on. -/
def State.consider (s : State) (h : s.cursor < allComments.length) (enclosing : Node) : State :=
  let decorated := makeDecorated sourceText allComments s.cursor h enclosing
  { comments := placeAndInsert decorated s.comments
    cursor := s.cursor + 1
    considered := s.considered ++ [decorated] }

/-- One of the three loops: comments are considered as long as they start in the range. -/
def considerWhile (inRange : ℕ → Bool) (enclosing : ℕ → Node) (s : State) : State :=
  if h : s.cursor < allComments.length then
    let commentStart := allComments[s.cursor].start
    if inRange commentStart then
      considerWhile inRange enclosing
        (s.consider sourceText allComments h (enclosing commentStart))
    else s
  else s
termination_by allComments.length - s.cursor
decreasing_by
  simp only [State.consider]
  omega

/-- The previous child instead of the node, when it ended and is a binary or conditional one. -/
def reattribute (node : Node) (prevChild : Option Node) (commentStart : ℕ) : Node :=
  if isBinaryLike node then node
  else
    (prevChild.filter fun prev => prev.span.stop ≤ commentStart && isBinaryLike prev).getD node

/-- In the parentheses of the child, behind the previous child or in the node. -/
def enclosingBefore (node parenthesizedChild : Node) (prevChild : Option Node)
    (commentStart : ℕ) : Node :=
  if parenthesizedChild.span.start < commentStart then parenthesizedChild
  else reattribute node prevChild commentStart

def collectNodeComments (node : Node) (s : State) : State :=
  if h : s.cursor < allComments.length then
    if node.span.stop ≤ allComments[s.cursor].start then s
    else
      let visited := node.visitChildren.attach.foldl
        (fun (visited : State × Option Node) parenthesizedChild =>
          let child := unwrapParenthesizedNode parenthesizedChild.1
          let before := considerWhile sourceText allComments
            (fun commentStart => node.span.start ≤ commentStart && commentStart < child.span.start)
            (enclosingBefore node parenthesizedChild.1 visited.2) visited.1
          (collectNodeComments child before, some child))
        (s, none)
      considerWhile sourceText allComments
        (fun commentStart => node.span.start ≤ commentStart && commentStart < node.span.stop)
        (reattribute node visited.2) visited.1
  else s
termination_by node.weight
decreasing_by
  have hle := weight_unwrapParenthesizedNode parenthesizedChild.1
  have hless := weight_of_mem_visitChildren parenthesizedChild.2
  exact lt_of_le_of_lt hle hless

/-- Where the traversal ends: the comments that are left are considered in the root. -/
def placeCommentsState (root : Node) : State :=
  considerWhile sourceText allComments (fun _ => true) (fun _ => root)
    (collectNodeComments sourceText allComments root ⟨.new allComments.length, 0, []⟩)

def placeComments (root : Node) : Comments :=
  if allComments.length = 0 then .empty
  else (placeCommentsState sourceText allComments root).comments

/-! ## One comment after the other -/

/-- The nodes of a tree. -/
inductive Within (root : Node) : Node → Prop
  | root : Within root root
  | child {node child : Node} (parent : Within root node) (h : child ∈ node.visitChildren) :
      Within root child

theorem within_unwrapParenthesized {root : Node} {e : Expression}
    (h : Within root (.expression e)) : Within root (.expression (unwrapParenthesized e)) := by
  fun_induction unwrapParenthesized e with
  | case1 span e ih =>
    have hform : Within root (.form (.parenthesized span e)) := h.child (List.mem_singleton.mpr rfl)
    exact ih (hform.child (List.mem_singleton.mpr rfl))
  | case2 e hother => exact h

theorem Within.unwrapped {root node : Node} (h : Within root node) (e : Expression)
    (he : .expression e ∈ node.visitChildren) :
    Within root (.expression (unwrapParenthesized e)) := within_unwrapParenthesized (h.child he)

theorem within_unwrapParenthesizedNode {root node : Node} (h : Within root node) :
    Within root (unwrapParenthesizedNode node) := by
  fun_cases unwrapParenthesizedNode node with
  | case1 span e => exact within_unwrapParenthesized (h.child (List.mem_singleton.mpr rfl))
  | case2 e => exact within_unwrapParenthesized h
  | case3 => exact h

/-- Some node of the tree is considered for the comment at the cursor. -/
def Step (root : Node) (s t : State) : Prop :=
  ∃ h : s.cursor < allComments.length, ∃ enclosing, Within root enclosing ∧
    t = s.consider sourceText allComments h enclosing

/-- The traversal does nothing but consider the comment at the cursor. -/
abbrev Steps (root : Node) : State → State → Prop :=
  Relation.ReflTransGen (Step sourceText allComments root)

variable {sourceText allComments} {root : Node}

theorem considerWhile_steps {inRange : ℕ → Bool} {enclosing : ℕ → Node}
    (hwithin : ∀ commentStart, Within root (enclosing commentStart)) (s : State) :
    Steps sourceText allComments root s
      (considerWhile sourceText allComments inRange enclosing s) := by
  fun_induction considerWhile sourceText allComments inRange enclosing s with
  | case1 s h commentStart hin ih => exact ih.head ⟨h, enclosing commentStart, hwithin _, rfl⟩
  | case2 s h commentStart hout => exact .refl
  | case3 s h => exact .refl

/-- Nothing is left when the range has no end. -/
theorem considerWhile_true (enclosing : ℕ → Node) (s : State) :
    allComments.length ≤
      (considerWhile sourceText allComments (fun _ => true) enclosing s).cursor := by
  fun_induction considerWhile sourceText allComments (fun _ => true) enclosing s with
  | case1 s h commentStart hin ih => exact ih
  | case2 s h commentStart hout => exact absurd rfl hout
  | case3 s h => exact not_lt.mp h

theorem within_reattribute {node : Node} {prevChild : Option Node} (hnode : Within root node)
    (hprev : ∀ prev ∈ prevChild, Within root prev) (commentStart : ℕ) :
    Within root (reattribute node prevChild commentStart) := by
  rw [reattribute]
  split
  · exact hnode
  · cases hkept : prevChild.filter fun prev =>
        prev.span.stop ≤ commentStart && isBinaryLike prev with
    | none => exact hnode
    | some prev => exact hprev prev (Option.mem_filter_iff.mp hkept).1

theorem within_enclosingBefore {node parenthesizedChild : Node} {prevChild : Option Node}
    (hnode : Within root node) (hchild : Within root parenthesizedChild)
    (hprev : ∀ prev ∈ prevChild, Within root prev) (commentStart : ℕ) :
    Within root (enclosingBefore node parenthesizedChild prevChild commentStart) := by
  rw [enclosingBefore]
  split
  · exact hchild
  · exact within_reattribute hnode hprev commentStart

/-- Steps that leave a previous child of the tree behind. -/
theorem foldl_steps {α : Type} {f : State × Option Node → α → State × Option Node}
    {children : List α} (visited : State × Option Node)
    (hvisited : ∀ prev ∈ visited.2, Within root prev)
    (h : ∀ visited, (∀ prev ∈ visited.2, Within root prev) → ∀ child ∈ children,
      Steps sourceText allComments root visited.1 (f visited child).1 ∧
        ∀ prev ∈ (f visited child).2, Within root prev) :
    Steps sourceText allComments root visited.1 (children.foldl f visited).1 ∧
      ∀ prev ∈ (children.foldl f visited).2, Within root prev := by
  induction children generalizing visited with
  | nil => exact ⟨.refl, hvisited⟩
  | cons child children ih =>
    obtain ⟨hfirst, hprev⟩ := h visited hvisited child List.mem_cons_self
    obtain ⟨hrest, hlast⟩ := ih _ hprev fun visited hvisited c hc => h visited hvisited c (.tail _ hc)
    exact ⟨hfirst.trans hrest, hlast⟩

theorem collectNodeComments_steps {node : Node} (hnode : Within root node) (s : State) :
    Steps sourceText allComments root s (collectNodeComments sourceText allComments node s) := by
  fun_induction collectNodeComments sourceText allComments node s with
  | case1 node s h hbehind => exact .refl
  | case2 node s h hbefore visited ih =>
    have hvisited : Steps sourceText allComments root s visited.1 ∧
        ∀ prev ∈ visited.2, Within root prev := by
      refine foldl_steps (s, none) nofun fun visited hprev parenthesizedChild _ => ?_
      have hparenthesized : Within root parenthesizedChild.1 := hnode.child parenthesizedChild.2
      have hchild := within_unwrapParenthesizedNode hparenthesized
      have hbefore := fun commentStart =>
        within_enclosingBefore hnode hparenthesized hprev commentStart
      refine ⟨(considerWhile_steps hbefore _).trans (ih visited parenthesizedChild hchild), ?_⟩
      intro prev hlast
      cases hlast
      exact hchild
    exact hvisited.1.trans (considerWhile_steps (within_reattribute hnode hvisited.2) _)
  | case3 node s h => exact .refl

theorem placeCommentsState_steps (root : Node) :
    Steps sourceText allComments root ⟨.new allComments.length, 0, []⟩
      (placeCommentsState sourceText allComments root) :=
  (collectNodeComments_steps .root _).trans (considerWhile_steps (fun _ => .root) _)

end Traversal

/-! ## Every comment once -/

/-- A placement of the comment with the index at a node of the tree. -/
def CommentPlacement.IsOf (root : Node) (index : ℕ) : CommentPlacement → Prop
  | leading node commentIndex => commentIndex = index ∧ Within root node
  | trailing node commentIndex => commentIndex = index ∧ Within root node
  | default => True

section Placed

variable {root : Node}

theorem placeBinary_isOf (comment : DecoratedComment) {span : Span} {lhs rhs : Expression}
    {operator : Node} (h : Within root (.form (.binary span lhs operator rhs))) :
    (placeBinary comment lhs operator rhs).IsOf root comment.commentIndex := by
  have hlhs := h.unwrapped lhs List.mem_cons_self
  have hrhs := h.unwrapped rhs (.tail _ (.tail _ List.mem_cons_self))
  simp only [placeBinary]
  split_ifs <;> simp [CommentPlacement.IsOf, hlhs, hrhs]

theorem placeConditional_isOf (comment : DecoratedComment) {span : Span} {condition : Expression}
    {questionMark : Span} {thenBranch : Option Expression} {colon : Span}
    {elseBranch : Expression}
    (h : Within root (.form (.conditional span condition questionMark thenBranch colon
      elseBranch))) :
    (placeConditional comment condition questionMark thenBranch colon elseBranch).IsOf root
      comment.commentIndex := by
  have hcondition := h.unwrapped condition List.mem_cons_self
  have helse := h.unwrapped elseBranch (.tail _ (List.mem_append_right _ List.mem_cons_self))
  cases thenBranch with
  | none =>
    simp only [placeConditional]
    split_ifs <;> simp [CommentPlacement.IsOf, hcondition, helse]
  | some thenBranch =>
    have hthen := h.unwrapped thenBranch (.tail _ (List.mem_append_left _ List.mem_cons_self))
    simp only [placeConditional]
    split_ifs <;> simp [CommentPlacement.IsOf, hcondition, hthen, helse]

theorem placeForm_isOf (comment : DecoratedComment) {e : Expression}
    (h : Within root (.form e)) : (placeForm comment e).IsOf root comment.commentIndex := by
  fun_cases placeForm comment e with
  | case1 span lhs operator rhs => exact placeBinary_isOf comment h
  | case2 span condition questionMark thenBranch colon elseBranch =>
    exact placeConditional_isOf comment h
  | case3 span children arrow e hin =>
    exact ⟨rfl, within_unwrapParenthesized
      (h.child (List.mem_append_right _ List.mem_cons_self))⟩
  | case4 span children arrow e hout => trivial
  | case5 => trivial

theorem placeComment_isOf {comment : DecoratedComment} (h : Within root comment.enclosing) :
    (placeComment comment).IsOf root comment.commentIndex := by
  fun_cases placeComment comment with
  | case1 span e heq =>
    rw [heq] at h
    exact ⟨rfl, within_unwrapParenthesized (h.child List.mem_cons_self)⟩
  | case2 span e heq =>
    rw [heq] at h
    have hform : Within root (.form (.parenthesized span e)) := h.child List.mem_cons_self
    exact ⟨rfl, within_unwrapParenthesized (hform.child List.mem_cons_self)⟩
  | case3 e hother heq =>
    rw [heq] at h
    exact placeForm_isOf comment ((within_unwrapParenthesized h).child List.mem_cons_self)
  | case4 e hother heq =>
    rw [heq] at h
    exact placeForm_isOf comment h
  | case5 => trivial

/-- What a placement does to the comments: nothing, or one more comment of one span. -/
theorem placeAndInsert_cases (decorated : DecoratedComment) (h : Within root decorated.enclosing)
    (comments : Comments) :
    placeAndInsert decorated comments = comments ∨
      ∃ node, Within root node ∧ ∃ placement, placeAndInsert decorated comments =
        (comments.insert node.span
          ⟨decorated.commentIndex, placement, decorated.linePosition⟩).markPlaced
            decorated.commentIndex placement := by
  have hof := placeComment_isOf h
  unfold placeAndInsert
  cases hplacement : placeComment decorated with
  | leading node index =>
    rw [hplacement] at hof
    rw [← hof.1]
    exact Or.inr ⟨node, hof.2, .leading, rfl⟩
  | trailing node index =>
    rw [hplacement] at hof
    rw [← hof.1]
    exact Or.inr ⟨node, hof.2, .trailing, rfl⟩
  | default => exact Or.inl rfl

end Placed

/-- The comments with an index below the cursor are in one list of the span of one node or in none,
and no others are. -/
structure Partition (root : Node) (cursor total : ℕ) (comments : Comments) : Prop where
  length : comments.placed.length = total
  within : ∀ span, comments.get span ≠ [] → ∃ node, Within root node ∧ node.span = span
  less : ∀ span, ∀ p ∈ comments.get span, p.index < cursor
  sorted : ∀ span, (comments.get span).Pairwise (·.index < ·.index)
  marked : ∀ span, ∀ p ∈ comments.get span,
    comments.placed[p.index]? = some (some p.placement)
  unique : ∀ span other, ∀ p ∈ comments.get span, ∀ q ∈ comments.get other,
    p.index = q.index → span = other
  held : ∀ index placement, comments.placed[index]? = some (some placement) →
    ∃ span, ∃ p ∈ comments.get span, p.index = index ∧ p.placement = placement

namespace Partition

variable {root : Node} {cursor total : ℕ} {comments : Comments}

theorem new (root : Node) (total : ℕ) : Partition root 0 total (.new total) where
  length := List.length_replicate
  within span hne := absurd rfl hne
  less span p hp := nomatch hp
  sorted span := List.Pairwise.nil
  marked span p hp := nomatch hp
  unique span other p hp := nomatch hp
  held index placement h := by
    have hmem := List.mem_of_getElem? h
    cases List.eq_of_mem_replicate hmem

theorem mono (h : Partition root cursor total comments) :
    Partition root (cursor + 1) total comments :=
  { h with less := fun span p hp => Nat.lt_succ_of_lt (h.less span p hp) }

theorem mem_get_insert {span nodeSpan : Span} {comment p : PlacedComment}
    (hp : p ∈ (comments.insert nodeSpan comment).get span) :
    p ∈ comments.get span ∨ p = comment ∧ span = nodeSpan := by
  rw [Comments.get_insert] at hp
  split at hp
  · rename_i heq
    rcases List.mem_append.mp hp with hp | hp
    · exact Or.inl (heq ▸ hp)
    · exact Or.inr ⟨List.mem_singleton.mp hp, heq⟩
  · exact Or.inl hp

theorem mem_get_insert_of_mem {span nodeSpan : Span} {comment p : PlacedComment}
    (hp : p ∈ comments.get span) : p ∈ (comments.insert nodeSpan comment).get span := by
  rw [Comments.get_insert]
  split
  · rename_i heq
    exact List.mem_append_left _ (heq ▸ hp)
  · exact hp

theorem mem_get_insert_self (nodeSpan : Span) (comment : PlacedComment) :
    comment ∈ (comments.insert nodeSpan comment).get nodeSpan := by
  rw [Comments.get_insert, if_pos rfl]
  exact List.mem_append_right _ List.mem_cons_self

/-- The comment at the cursor goes behind the others of its span. -/
theorem insert (h : Partition root cursor total comments) (hless : cursor < total) {node : Node}
    (hnode : Within root node) (comment : PlacedComment) (hindex : comment.index = cursor) :
    Partition root (cursor + 1) total
      ((comments.insert node.span comment).markPlaced cursor comment.placement) where
  length := by
    rw [Comments.markPlaced, List.length_set]
    exact h.length
  within span hne := by
    rw [Comments.get_markPlaced, Comments.get_insert] at hne
    split at hne
    · rename_i heq
      exact ⟨node, hnode, heq.symm⟩
    · exact h.within span hne
  less span p hp := by
    rcases mem_get_insert hp with hp | ⟨rfl, -⟩
    · exact Nat.lt_succ_of_lt (h.less span p hp)
    · omega
  sorted span := by
    rw [Comments.get_markPlaced, Comments.get_insert]
    split
    · rw [List.pairwise_append]
      refine ⟨h.sorted node.span, List.pairwise_singleton _ _, fun p hp q hq => ?_⟩
      rw [List.mem_singleton.mp hq, hindex]
      exact h.less node.span p hp
    · exact h.sorted span
  marked span p hp := by
    rcases mem_get_insert hp with hp | ⟨rfl, -⟩
    · have hne : cursor ≠ p.index := (h.less span p hp).ne'
      rw [Comments.markPlaced, List.getElem?_set_ne hne]
      exact h.marked span p hp
    · rw [Comments.markPlaced, hindex]
      exact List.getElem?_set_self (by rw [Comments.placed_insert, h.length]; exact hless)
  unique span other p hp q hq heq := by
    rcases mem_get_insert hp with hpold | ⟨hpnew, hspan⟩
    · rcases mem_get_insert hq with hqold | ⟨hqnew, -⟩
      · exact h.unique span other p hpold q hqold heq
      · have hless := h.less span p hpold
        rw [hqnew] at heq
        omega
    · rcases mem_get_insert hq with hqold | ⟨-, hother⟩
      · have hless := h.less other q hqold
        rw [hpnew] at heq
        omega
      · rw [hspan, hother]
  held index placement hplaced := by
    by_cases heq : cursor = index
    · subst heq
      have hself := List.getElem?_set_self (a := some comment.placement)
        (l := comments.placed) (by rw [h.length]; exact hless)
      have hsame : some (some comment.placement) = some (some placement) :=
        hself.symm.trans hplaced
      injection hsame with hsame
      injection hsame with hsame
      exact ⟨node.span, comment, mem_get_insert_self node.span comment, hindex, hsame⟩
    · have hold := hplaced
      rw [Comments.markPlaced, List.getElem?_set_ne heq] at hold
      obtain ⟨span, p, hp, hpindex, hpplacement⟩ := h.held index placement hold
      exact ⟨span, p, mem_get_insert_of_mem hp, hpindex, hpplacement⟩

end Partition

section Run

variable {sourceText : List UInt8} {allComments : List Trivia} {root : Node} {s t : State}

/-- A comment of the file as its place in the text has it, in a node of the tree. -/
def DecoratedComment.IsOf (sourceText : List UInt8) (allComments : List Trivia) (root : Node)
    (decorated : DecoratedComment) : Prop :=
  Within root decorated.enclosing ∧ ∃ h : decorated.commentIndex < allComments.length,
    decorated = makeDecorated sourceText allComments decorated.commentIndex h decorated.enclosing

/-- What is left of comments that are placed one after the other. -/
def placedAll (total : ℕ) (considered : List DecoratedComment) : Comments :=
  considered.foldl (fun comments decorated => placeAndInsert decorated comments) (.new total)

/-- The comments were considered in order, and what was placed is a partition of them. -/
structure Considered (sourceText : List UInt8) (allComments : List Trivia) (root : Node)
    (s : State) : Prop where
  cursor_le : s.cursor ≤ allComments.length
  indices : s.considered.map DecoratedComment.commentIndex = List.range s.cursor
  isOf : ∀ decorated ∈ s.considered, decorated.IsOf sourceText allComments root
  placed : s.comments = placedAll allComments.length s.considered
  partition : Partition root s.cursor allComments.length s.comments

theorem Considered.step (h : Considered sourceText allComments root s)
    (hstep : Step sourceText allComments root s t) :
    Considered sourceText allComments root t := by
  obtain ⟨hless, enclosing, hwithin, rfl⟩ := hstep
  refine ⟨hless, ?_, ?_, ?_, ?_⟩
  · rw [State.consider, List.map_append, h.indices, List.range_succ]
    rfl
  · intro decorated hdecorated
    rcases List.mem_append.mp hdecorated with hdecorated | hdecorated
    · exact h.isOf decorated hdecorated
    · rw [List.mem_singleton.mp hdecorated]
      exact ⟨hwithin, hless, rfl⟩
  · rw [State.consider, placedAll, List.foldl_append, ← placedAll, ← h.placed]
    rfl
  · let decorated := makeDecorated sourceText allComments s.cursor hless enclosing
    change Partition root (s.cursor + 1) allComments.length (placeAndInsert decorated s.comments)
    have hcases := placeAndInsert_cases decorated hwithin s.comments
    rcases hcases with heq | ⟨node, hnode, placement, heq⟩
    · rw [heq]
      exact h.partition.mono
    · rw [heq]
      exact h.partition.insert hless hnode ⟨s.cursor, placement, decorated.linePosition⟩ rfl

theorem Considered.steps (h : Considered sourceText allComments root s)
    (hsteps : Steps sourceText allComments root s t) :
    Considered sourceText allComments root t := by
  induction hsteps with
  | refl => exact h
  | tail _ hstep ih => exact ih.step hstep

/-- Where the traversal ends every comment has been considered. -/
theorem placeCommentsState_considered (sourceText : List UInt8) (allComments : List Trivia)
    (root : Node) :
    Considered sourceText allComments root (placeCommentsState sourceText allComments root) ∧
      (placeCommentsState sourceText allComments root).cursor = allComments.length := by
  have hstart : Considered sourceText allComments root ⟨.new allComments.length, 0, []⟩ :=
    ⟨Nat.zero_le _, rfl, nofun, rfl, Partition.new root _⟩
  have hend := hstart.steps (placeCommentsState_steps root)
  exact ⟨hend, le_antisymm hend.cursor_le (considerWhile_true _ _)⟩

/-- Attached to one span with one placement, or left unplaced. -/
def Comments.IsPlacedOnce (comments : Comments) (index : ℕ) : Prop :=
  (∃ span, ∃ p ∈ comments.get span, p.index = index ∧
    comments.placed[index]? = some (some p.placement) ∧
    ∀ other, ∀ q ∈ comments.get other, q.index = index → other = span ∧ q = p) ∨
  comments.placed[index]? = some none ∧ ∀ span, ∀ p ∈ comments.get span, p.index ≠ index

/-- Two comments of one list with one index are one. -/
theorem eq_of_sorted {list : List PlacedComment} (h : list.Pairwise (·.index < ·.index))
    {p q : PlacedComment} (hp : p ∈ list) (hq : q ∈ list) (heq : p.index = q.index) : p = q := by
  induction list with
  | nil => cases hp
  | cons first rest ih =>
    rw [List.pairwise_cons] at h
    rcases List.mem_cons.mp hp with hpfirst | hprest
    · rcases List.mem_cons.mp hq with hqfirst | hqrest
      · rw [hpfirst, hqfirst]
      · have hless := h.1 q hqrest
        rw [← hpfirst] at hless
        omega
    · rcases List.mem_cons.mp hq with hqfirst | hqrest
      · have hless := h.1 p hprest
        rw [← hqfirst] at hless
        omega
      · exact ih h.2 hprest hqrest

theorem Partition.isPlacedOnce {cursor total : ℕ} {comments : Comments}
    (h : Partition root cursor total comments) {index : ℕ} (hless : index < total) :
    comments.IsPlacedOnce index := by
  have hlength : index < comments.placed.length := h.length ▸ hless
  have hsome := List.getElem?_eq_getElem hlength
  cases hplaced : comments.placed[index] with
  | some placement =>
    rw [hplaced] at hsome
    obtain ⟨span, p, hp, hindex, hplacement⟩ := h.held index placement hsome
    refine Or.inl ⟨span, p, hp, hindex, hplacement ▸ hsome, fun other q hq hqindex => ?_⟩
    have heq : p.index = q.index := hindex.trans hqindex.symm
    have hspan := h.unique span other p hp q hq heq
    rw [← hspan] at hq
    exact ⟨hspan.symm, eq_of_sorted (h.sorted span) hq hp heq.symm⟩
  | none =>
    rw [hplaced] at hsome
    refine Or.inr ⟨hsome, fun span p hp hindex => ?_⟩
    have hmarked := h.marked span p hp
    rw [hindex, hsome] at hmarked
    cases hmarked

/-- Every comment of a file is considered once and in order, what is placed is what these comments
leave, and each is attached to the span of one node with one placement or left unplaced. The
comments of a span are in order. -/
theorem placeComments_partition (sourceText : List UInt8) (allComments : List Trivia)
    (root : Node) :
    let considered := (placeCommentsState sourceText allComments root).considered
    let comments := placeComments sourceText allComments root
    considered.map DecoratedComment.commentIndex = List.range allComments.length ∧
      (∀ decorated ∈ considered, decorated.IsOf sourceText allComments root) ∧
      comments = placedAll allComments.length considered ∧
      (∀ span, comments.get span ≠ [] → ∃ node, Within root node ∧ node.span = span) ∧
      (∀ span, (comments.get span).Pairwise (·.index < ·.index)) ∧
      (∀ span, ∀ p ∈ comments.get span, p.index < allComments.length) ∧
      ∀ index < allComments.length, comments.IsPlacedOnce index := by
  intro considered comments
  obtain ⟨hconsidered, hcursor⟩ := placeCommentsState_considered sourceText allComments root
  have hcomments : comments = (placeCommentsState sourceText allComments root).comments := by
    change placeComments sourceText allComments root = _
    rw [placeComments]
    split
    · rename_i hzero
      have hnil : considered = [] := by
        have hindices := hconsidered.indices
        rw [hcursor, hzero, List.range_zero] at hindices
        exact List.map_eq_nil_iff.mp hindices
      rw [hconsidered.placed, hzero]
      exact (congrArg (placedAll 0) hnil).symm
    · rfl
  have hpartition := hconsidered.partition
  rw [hcursor, ← hcomments] at hpartition
  refine ⟨hcursor ▸ hconsidered.indices, hconsidered.isOf, hcomments.trans hconsidered.placed,
    hpartition.within, hpartition.sorted, hpartition.less, fun index hless =>
      hpartition.isPlacedOnce hless⟩

end Run

end Mago.Printing
