import Mago.Extension.Payload
import Mago.Library.RoseTree

/-!
# Syntax trees and how they are visited

The children of a node are visited in the order of its fields, which is that of the source but for
one kind of node: a property visits its `var` before its modifiers, and they stand before it.
-/
namespace Mago.Extension
open Library

/-- What a snapshot keeps of a node, and the node itself. A literal string has its value. -/
structure NodeData (ι : Type) where
  identity : ι
  kind : UInt8
  start : ℕ
  stop : ℕ
  literalValue : Option Bytes

/-- A node with the tree that visits of children span below it. -/
abbrev Node (ι : Type) := RoseTree (NodeData ι)

/-- A modifier with the keyword below it. -/
structure Modifier (ι : Type) where
  data : NodeData ι
  keyword : NodeData ι

/-- A node of a program. A property, plain or hooked, has its fields apart, the others being its
type and its items with their hooks. -/
inductive SyntaxNode (ι : Type) where
  | property (data : NodeData ι) (attributeLists : List (SyntaxNode ι))
      (modifiers : List (Modifier ι)) (var : Option (NodeData ι)) (others : List (SyntaxNode ι))
  | other (data : NodeData ι) (children : List (SyntaxNode ι))

namespace SyntaxNode

variable {ι : Type}

def data : SyntaxNode ι → NodeData ι
  | property data _ _ _ _ => data
  | other data _ => data

def keyword (data : NodeData ι) : SyntaxNode ι := .other data []

def modifier (node : Modifier ι) : SyntaxNode ι := .other node.data [keyword node.keyword]

/-- The children in the order in which `visit_children` names them. -/
def visitChildren : SyntaxNode ι → List (SyntaxNode ι)
  | property _ attributeLists modifiers var others =>
    attributeLists ++ (var.toList.map keyword ++ (modifiers.map modifier ++ others))
  | other _ children => children

/-- The children in the order in which the parser reads them. -/
def sourceChildren : SyntaxNode ι → List (SyntaxNode ι)
  | property _ attributeLists modifiers var others =>
    attributeLists ++ (modifiers.map modifier ++ (var.toList.map keyword ++ others))
  | other _ children => children

theorem mem_sourceChildren {node child : SyntaxNode ι} :
    child ∈ node.sourceChildren ↔ child ∈ node.visitChildren := by
  cases node with
  | property data attributeLists modifiers var others =>
    simp only [sourceChildren, visitChildren, List.mem_append]
    tauto
  | other data children => rfl

theorem sizeOf_keyword (data : NodeData ι) : sizeOf (keyword data) = sizeOf data + 2 := by
  rw [keyword, other.sizeOf_spec, List.nil.sizeOf_spec]
  omega

theorem sizeOf_modifier (node : Modifier ι) : sizeOf (modifier node) = sizeOf node + 4 := by
  obtain ⟨data, keyword⟩ := node
  rw [modifier, other.sizeOf_spec, List.cons.sizeOf_spec, sizeOf_keyword, List.nil.sizeOf_spec,
    Modifier.mk.sizeOf_spec]
  dsimp only
  omega

theorem one_le_sizeOf {α : Type} [SizeOf α] (xs : List α) : 1 ≤ sizeOf xs := by
  cases xs with
  | nil => exact le_rfl
  | cons x xs =>
    rw [List.cons.sizeOf_spec]
    omega

theorem sizeOf_of_mem_visitChildren {node child : SyntaxNode ι} (h : child ∈ node.visitChildren) :
    sizeOf child < sizeOf node := by
  cases node with
  | property data attributeLists modifiers var others =>
    have hdata : 1 ≤ sizeOf data := by
      cases data
      rw [NodeData.mk.sizeOf_spec]
      omega
    have hattributes := one_le_sizeOf attributeLists
    have hmodifiers := one_le_sizeOf modifiers
    have hothers := one_le_sizeOf others
    have hvar : 1 ≤ sizeOf var := by cases var <;> simp
    rw [property.sizeOf_spec]
    simp only [visitChildren, List.mem_append, List.mem_map, Option.mem_toList] at h
    rcases h with h | ⟨keyword, rfl, rfl⟩ | ⟨modifier, h, rfl⟩ | h
    · have hlt := List.sizeOf_lt_of_mem h
      omega
    · rw [sizeOf_keyword, Option.some.sizeOf_spec]
      omega
    · have hlt := List.sizeOf_lt_of_mem h
      rw [sizeOf_modifier]
      omega
    · have hlt := List.sizeOf_lt_of_mem h
      omega
  | other data children =>
    have hlt : sizeOf child < sizeOf children := List.sizeOf_lt_of_mem h
    rw [other.sizeOf_spec]
    omega

/-- What holds of a node where it holds of all its children holds of every node. -/
theorem induction {P : SyntaxNode ι → Prop}
    (node : ∀ node : SyntaxNode ι, (∀ child ∈ node.visitChildren, P child) → P node)
    (root : SyntaxNode ι) : P root :=
  node root fun child _ => induction node child
termination_by sizeOf root
decreasing_by exact sizeOf_of_mem_visitChildren ‹_›

/-- What a snapshot keeps of a node, which is told apart as the node that it is. -/
def label (node : SyntaxNode ι) : NodeData (SyntaxNode ι) where
  identity := node
  kind := node.data.kind
  start := node.data.start
  stop := node.data.stop
  literalValue := node.data.literalValue

/-- The tree below a node as it is visited. -/
def visited (node : SyntaxNode ι) : Node (SyntaxNode ι) :=
  .node node.label (node.visitChildren.attach.map fun child => visited child.1)
termination_by sizeOf node
decreasing_by exact sizeOf_of_mem_visitChildren child.2

/-- The tree below a node as it stands in the source. -/
def inSource (node : SyntaxNode ι) : Node (SyntaxNode ι) :=
  .node node.label (node.sourceChildren.attach.map fun child => inSource child.1)
termination_by sizeOf node
decreasing_by exact sizeOf_of_mem_visitChildren (mem_sourceChildren.mp child.2)

theorem visited_eq (node : SyntaxNode ι) :
    node.visited = .node node.label (node.visitChildren.map visited) := by
  rw [visited, List.attach_map_val]

theorem inSource_eq (node : SyntaxNode ι) :
    node.inSource = .node node.label (node.sourceChildren.map inSource) := by
  rw [inSource, List.attach_map_val]

@[simp]
theorem identity_visited (node : SyntaxNode ι) : node.visited.value.identity = node := by
  rw [visited_eq]
  rfl

/-- The node and the nodes below it. -/
inductive Below (root : SyntaxNode ι) : SyntaxNode ι → Prop
  | root : Below root root
  | child {node child : SyntaxNode ι} (parent : Below root node)
      (h : child ∈ node.visitChildren) : Below root child

/-- A property that has a `var` has no modifiers. -/
def Ordered : SyntaxNode ι → Prop
  | property _ _ modifiers var _ => var = none ∨ modifiers = []
  | other _ _ => True

theorem Ordered.sourceChildren_eq {node : SyntaxNode ι} (h : node.Ordered) :
    node.sourceChildren = node.visitChildren := by
  cases node with
  | property data attributeLists modifiers var others =>
    rcases h with rfl | rfl <;> rfl
  | other data children => rfl

theorem Below.trans {root node inner : SyntaxNode ι} (h : Below root node)
    (hinner : Below node inner) : Below root inner := by
  induction hinner with
  | root => exact h
  | child _ hchild ih => exact ih.child hchild

theorem below_of_child {node child inner : SyntaxNode ι} (hchild : child ∈ node.visitChildren)
    (h : Below child inner) : Below node inner :=
  (Below.root.child hchild).trans h

/-- A tree whose properties are all ordered is visited as it stands in the source. -/
theorem inSource_eq_visited {root : SyntaxNode ι} (h : ∀ node, Below root node → node.Ordered) :
    root.inSource = root.visited := by
  induction root using induction with
  | node root ih =>
    rw [inSource_eq, visited_eq, (h root .root).sourceChildren_eq]
    congr 1
    exact List.map_congr_left fun child hchild =>
      ih child hchild fun node hnode => h node (below_of_child hchild hnode)

theorem sizeForest_visited_eq {children : List (SyntaxNode ι)}
    (h : ∀ child ∈ children, child.inSource.size = child.visited.size) :
    RoseTree.sizeForest (children.map inSource) = RoseTree.sizeForest (children.map visited) := by
  induction children with
  | nil => rfl
  | cons child children ih =>
    rw [List.forall_mem_cons] at h
    rw [List.map_cons, List.map_cons, RoseTree.sizeForest, RoseTree.sizeForest, h.1, ih h.2]

/-- The order does not change how many nodes there are. -/
theorem size_inSource (node : SyntaxNode ι) : node.inSource.size = node.visited.size := by
  induction node using induction with
  | node node ih =>
    rw [inSource_eq, visited_eq, RoseTree.size, RoseTree.size,
      sizeForest_visited_eq fun child hchild => ih child (mem_sourceChildren.mp hchild)]
    cases node with
    | property data attributeLists modifiers var others =>
      simp only [sourceChildren, visitChildren, List.map_append, RoseTree.sizeForest_append]
      omega
    | other data children => rfl

end SyntaxNode

end Mago.Extension
