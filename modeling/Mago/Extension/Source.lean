import Mago.Extension.SyntaxTree
import Mago.Suppression.Extract
import Mathlib

/-!
# Snapshots of a syntax tree

A tree is flattened into a table of records. A record is pushed with no links but the one to its
parent; the parent and the sibling before it are linked to it when it is pushed, through the
last child that the parent has so far. Subtrees are walked with a stack, the outer tree with
another.
-/
namespace Mago.Extension
open Library
open Suppression (TriviaKind)

structure Trivia where
  kind : TriviaKind
  start : ℕ
  stop : ℕ

structure Program (ι : Type) where
  node : Node ι
  trivia : List Trivia

structure ResolvedName where
  start : ℕ
  stop : ℕ
  name : Bytes
  imported : Bool

structure SnapshotNode where
  kind : UInt8
  start : ℕ
  stop : ℕ
  parent : Option ℕ := none
  firstChild : Option ℕ := none
  nextSibling : Option ℕ := none
  lastChild : Option ℕ := none
  deriving DecidableEq, Repr

structure SourceSnapshot where
  nodes : List SnapshotNode
  targets : List ℕ
  names : List ResolvedName
  trivia : List (UInt8 × ℕ × ℕ)
  literalStrings : List (ℕ × Bytes)

variable {ι : Type}

/-- The number of the next record, where it fits in 32 bits. -/
def nextIdentifier (nodes : List SnapshotNode) : Except PayloadError ℕ :=
  if nodes.length ≤ u32Max then .ok nodes.length else .error (.lengthOverflow nodes.length)

def SnapshotNode.new (data : NodeData ι) (parent : Option ℕ) : SnapshotNode where
  kind := data.kind
  start := data.start
  stop := data.stop
  parent := parent

/-- The links from the parent, or from its last child so far, to a record. -/
def linkTo (parent : Option ℕ) (identifier : ℕ) (nodes : List SnapshotNode) : List SnapshotNode :=
  match parent with
  | none => nodes
  | some parent =>
    let previousSibling := nodes[parent]?.bind SnapshotNode.lastChild
    let nodes := nodes.modify parent fun node => { node with lastChild := some identifier }
    match previousSibling with
    | some previous =>
      nodes.modify previous fun node => { node with nextSibling := some identifier }
    | none => nodes.modify parent fun node => { node with firstChild := some identifier }

/-- The tables that the walks share. -/
structure Tables where
  nodes : List SnapshotNode := []
  targets : List ℕ := []
  literalStrings : List (ℕ × Bytes) := []

/-- The step of `append_subtree` at one node. -/
def Tables.push (isTarget : Node ι → Bool) (includeLiteralStrings : Bool) (node : Node ι)
    (parent : Option ℕ) (identifier : ℕ) (tables : Tables) : Tables where
  nodes := linkTo parent identifier (tables.nodes ++ [SnapshotNode.new node.value parent])
  literalStrings :=
    if includeLiteralStrings then
      match node.value.literalValue with
      | some value => tables.literalStrings ++ [(identifier, value)]
      | none => tables.literalStrings
    else tables.literalStrings
  targets := if isTarget node then tables.targets ++ [identifier] else tables.targets

theorem sizeForest_children_lt (node : Node ι) : RoseTree.sizeForest node.children < node.size := by
  rw [RoseTree.size_eq]
  exact Nat.lt_succ_self _

/-- The loop of `append_subtree`. Children are pushed in turn and then reversed, so that the
first is on top of the stack. -/
def appendSubtreeLoop (isTarget : Node ι → Bool) (includeLiteralStrings : Bool)
    (stack : List (Node ι × Option ℕ)) (tables : Tables) : Except PayloadError Tables :=
  match stack with
  | [] => .ok tables
  | (node, parent) :: stack =>
    match nextIdentifier tables.nodes with
    | .error error => .error error
    | .ok identifier =>
      appendSubtreeLoop isTarget includeLiteralStrings
        (node.children.map (fun child => (child, some identifier)) ++ stack)
        (tables.push isTarget includeLiteralStrings node parent identifier)
termination_by RoseTree.sizeForest (stack.map Prod.fst)
decreasing_by
  have := sizeForest_children_lt node
  simp only [List.map_append, List.map_map, Function.comp_def, List.map_id',
    RoseTree.sizeForest_append, List.map_cons, RoseTree.sizeForest]
  omega

def appendSubtree (root : Node ι) (isTarget : Node ι → Bool) (includeLiteralStrings : Bool)
    (tables : Tables) : Except PayloadError Tables :=
  appendSubtreeLoop isTarget includeLiteralStrings [(root, none)] tables

def mergeRanges (ranges : List (ℕ × ℕ)) : List (ℕ × ℕ) :=
  (ranges.mergeSort fun a b => a.1 < b.1 || (a.1 == b.1 && decide (a.2 ≤ b.2))).foldl
    (fun merged range =>
      match merged.getLast? with
      | some last =>
        if range.1 ≤ last.2 then merged.dropLast ++ [(last.1, max last.2 range.2)]
        else merged ++ [range]
      | none => merged ++ [range]) []

def collectTrivia (program : Program ι) : List (UInt8 × ℕ × ℕ) :=
  program.trivia.filterMap fun trivia =>
    match trivia.kind with
    | .singleLineComment => some (1, trivia.start, trivia.stop)
    | .multiLineComment => some (2, trivia.start, trivia.stop)
    | .hashComment => some (3, trivia.start, trivia.stop)
    | .docBlockComment => some (4, trivia.start, trivia.stop)
    | .whiteSpace => none

/-- A name inside one of the merged ranges, which are sorted and apart. -/
def inRanges (ranges : List (ℕ × ℕ)) (name : ResolvedName) : Bool :=
  let rangeIndex := (ranges.takeWhile fun range => range.2 ≤ name.start).length
  ranges[rangeIndex]?.any fun range => range.1 ≤ name.start && decide (name.stop ≤ range.2)

def sortNames (names : List ResolvedName) : List ResolvedName :=
  names.mergeSort fun a b => a.start < b.start || (a.start == b.start && decide (a.stop ≤ b.stop))

/-- The tables of the outer walk, with the ranges that they cover. -/
structure TargetTables where
  tables : Tables := {}
  includedRanges : List (ℕ × ℕ) := []

/-- The loop of `targeted_with_filter`. -/
def targetedLoop (target : Node ι → Option Bool) (stack : List (Node ι)) (state : TargetTables) :
    Except PayloadError TargetTables :=
  match stack with
  | [] => .ok state
  | node :: stack =>
    match target node with
    | some true =>
      match appendSubtree node (fun child => (target child).isSome) false
        { state.tables with literalStrings := [] } with
      | .error error => .error error
      | .ok tables =>
        targetedLoop target stack
          { tables := { tables with literalStrings := state.tables.literalStrings }
            includedRanges := state.includedRanges ++ [(node.value.start, node.value.stop)] }
    | some false =>
      match nextIdentifier state.tables.nodes with
      | .error error => .error error
      | .ok identifier =>
        targetedLoop target (node.children ++ stack)
          { tables :=
              { state.tables with
                nodes := state.tables.nodes ++ [SnapshotNode.new node.value none]
                targets := state.tables.targets ++ [identifier] }
            includedRanges := state.includedRanges ++ [(node.value.start, node.value.stop)] }
    | none => targetedLoop target (node.children ++ stack) state
termination_by RoseTree.sizeForest stack
decreasing_by
  all_goals
    have := sizeForest_children_lt node
    have := node.size_pos
    simp only [RoseTree.sizeForest_append, RoseTree.sizeForest]
    omega

def targetedWithFilter (program : Program ι) (resolvedNames : List ResolvedName)
    (target : Node ι → Option Bool) (includeTrivia : Bool) :
    Except PayloadError (Option SourceSnapshot) :=
  match targetedLoop target [program.node] {} with
  | .error error => .error error
  | .ok state =>
    if state.tables.targets.isEmpty then .ok none
    else
      .ok (some
        { nodes := state.tables.nodes
          targets := state.tables.targets
          names := sortNames (resolvedNames.filter (inRanges (mergeRanges state.includedRanges)))
          trivia := if includeTrivia then collectTrivia program else []
          literalStrings := [] })

end Mago.Extension
