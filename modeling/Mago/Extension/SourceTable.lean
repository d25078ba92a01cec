import Mago.Extension.Source
import Mathlib

/-!
# The table of a subtree

The records of a tree with all their links, said by recursion on the tree. The walk with its
stack and its links filled in later writes the same records: what stands in the table while a
node's children are walked is the record table of the node with the children walked so far.
-/
namespace Mago.Extension
open Library RoseTree

variable {ι : Type}

/-- The last of the children, where the first is at the position. -/
def lastPosition (pos : ℕ) (children : List (Node ι)) : Option ℕ :=
  if children.isEmpty then none else some (pos + sizeForest children.dropLast)

/-- The record of a node at a position, with its children from the next position on. -/
def nodeRecord (parent next : Option ℕ) (pos : ℕ) (data : NodeData ι)
    (children : List (Node ι)) : SnapshotNode :=
  { SnapshotNode.new data parent with
    firstChild := if children.isEmpty then none else some (pos + 1)
    nextSibling := next
    lastChild := lastPosition (pos + 1) children }

mutual

def treeRecords (parent next : Option ℕ) (pos : ℕ) : Node ι → List SnapshotNode
  | .node data children =>
    nodeRecord parent next pos data children :: forestRecords pos none (pos + 1) children

/-- The records of a node's children, the last of which has the given sibling after it. -/
def forestRecords (parent : ℕ) (next : Option ℕ) (pos : ℕ) : List (Node ι) → List SnapshotNode
  | [] => []
  | t :: ts =>
    treeRecords (some parent) (if ts.isEmpty then next else some (pos + t.size)) pos t ++
      forestRecords parent next (pos + t.size) ts

end

/-- The literal strings among the nodes, with their positions. -/
def literalTable (includeLiteralStrings : Bool) (pos : ℕ) (nodes : List (Node ι)) :
    List (ℕ × Bytes) :=
  if includeLiteralStrings then
    (nodes.zipIdx pos).filterMap fun entry => entry.1.value.literalValue.map (entry.2, ·)
  else []

/-! ## Lengths and the last child -/

theorem length_forestRecords_of {ts : List (Node ι)}
    (h : ∀ t ∈ ts, ∀ parent next pos, (treeRecords parent next pos t).length = t.size)
    (parent : ℕ) (next : Option ℕ) (pos : ℕ) :
    (forestRecords parent next pos ts).length = sizeForest ts := by
  induction ts generalizing pos with
  | nil => rfl
  | cons t ts ih =>
    rw [forestRecords, List.length_append, h t (by simp), ih (fun u hu => h u (by simp [hu])),
      sizeForest]

@[simp] theorem length_treeRecords (parent next : Option ℕ) (pos : ℕ) (t : Node ι) :
    (treeRecords parent next pos t).length = t.size := by
  induction t using RoseTree.induction generalizing parent next pos with
  | node data children ih =>
    rw [treeRecords, List.length_cons, length_forestRecords_of ih, size]

@[simp] theorem length_forestRecords (parent : ℕ) (next : Option ℕ) (pos : ℕ)
    (ts : List (Node ι)) : (forestRecords parent next pos ts).length = sizeForest ts :=
  length_forestRecords_of (fun t _ _ _ _ => length_treeRecords _ _ _ t) parent next pos

theorem forestRecords_concat (parent : ℕ) (next : Option ℕ) (pos : ℕ) (ts : List (Node ι))
    (t : Node ι) :
    forestRecords parent next pos (ts ++ [t]) =
      forestRecords parent (some (pos + sizeForest ts)) pos ts ++
        treeRecords (some parent) next (pos + sizeForest ts) t := by
  induction ts generalizing pos with
  | nil => simp [forestRecords, sizeForest]
  | cons u ts ih =>
    rw [List.cons_append, forestRecords, ih, forestRecords, sizeForest, List.append_assoc,
      Nat.add_assoc]
    cases ts with
    | nil => simp [sizeForest]
    | cons v ts => simp

theorem lastPosition_concat (pos : ℕ) (ts : List (Node ι)) (t : Node ι) :
    lastPosition pos (ts ++ [t]) = some (pos + sizeForest ts) := by
  simp [lastPosition]

/-- What stands before the last child, which its own children do not change. -/
def openRecords (parent : Option ℕ) (pos : ℕ) (data : NodeData ι) (siblings : List (Node ι)) :
    List SnapshotNode :=
  { SnapshotNode.new data parent with
    firstChild := some (pos + 1)
    lastChild := some (pos + 1 + sizeForest siblings) } ::
  forestRecords pos (some (pos + 1 + sizeForest siblings)) (pos + 1) siblings

theorem treeRecords_concat (parent : Option ℕ) (pos : ℕ) (data : NodeData ι)
    (ts : List (Node ι)) (t : Node ι) :
    treeRecords parent none pos (.node data (ts ++ [t])) =
      openRecords parent pos data ts ++
        treeRecords (some pos) none (pos + 1 + sizeForest ts) t := by
  rw [treeRecords, forestRecords_concat, nodeRecord, lastPosition_concat, openRecords]
  simp [SnapshotNode.new]

theorem length_openRecords (parent : Option ℕ) (pos : ℕ) (data : NodeData ι)
    (ts : List (Node ι)) : (openRecords parent pos data ts).length = sizeForest ts + 1 := by
  rw [openRecords, List.length_cons, length_forestRecords]

/-! ## Linking -/

theorem modify_append_cons {α : Type*} (f : α → α) (before : List α) (x : α) (after : List α) :
    (before ++ x :: after).modify before.length f = before ++ f x :: after := by
  induction before with
  | nil => rfl
  | cons y before ih => rw [List.length_cons, List.cons_append, List.modify_succ_cons, ih]; rfl

theorem getElem?_length_append {α : Type*} (before : List α) (x : α) (after : List α) :
    (before ++ x :: after)[before.length]? = some x := by
  rw [List.getElem?_append_right le_rfl, Nat.sub_self, List.getElem?_cons_zero]

/-- The first child is linked from its parent. -/
theorem linkTo_first (before after : List SnapshotNode) {record : SnapshotNode}
    (hlast : record.lastChild = none) (identifier : ℕ) :
    linkTo (some before.length) identifier (before ++ record :: after) =
      before ++ { record with firstChild := some identifier, lastChild := some identifier } ::
        after := by
  rw [linkTo, getElem?_length_append]
  simp only [Option.bind_some, hlast]
  rw [modify_append_cons, modify_append_cons]

/-- Every other child is linked from the child before it. -/
theorem linkTo_next (before between after : List SnapshotNode) (record previous : SnapshotNode)
    (hlast : record.lastChild = some (before.length + 1 + between.length)) (identifier : ℕ) :
    linkTo (some before.length) identifier
        (before ++ record :: (between ++ previous :: after)) =
      before ++ { record with lastChild := some identifier } ::
        (between ++ { previous with nextSibling := some identifier } :: after) := by
  rw [linkTo, getElem?_length_append]
  simp only [Option.bind_some, hlast]
  rw [modify_append_cons]
  have hposition : before.length + 1 + between.length =
      (before ++ { record with lastChild := some identifier } :: between).length := by
    rw [List.length_append, List.length_cons]
    omega
  have hsplit (x : SnapshotNode) :
      before ++ { record with lastChild := some identifier } :: (between ++ x :: after) =
        (before ++ { record with lastChild := some identifier } :: between) ++ x :: after := by
    rw [List.append_assoc, List.cons_append]
  rw [hposition, hsplit, modify_append_cons, hsplit]

/-- A leaf pushed as the next child of the node whose children are walked. -/
theorem linkTo_child (before : List SnapshotNode) (parent : Option ℕ) (data : NodeData ι)
    (walked : List (Node ι)) (child : NodeData ι) :
    linkTo (some before.length) (before.length + 1 + sizeForest walked)
        (before ++ treeRecords parent none before.length (.node data walked) ++
          [SnapshotNode.new child (some before.length)]) =
      before ++ openRecords parent before.length data walked ++
        treeRecords (some before.length) none (before.length + 1 + sizeForest walked)
          (.node child []) := by
  cases walked using List.reverseRecOn with
  | nil =>
    rw [treeRecords, List.append_assoc, List.cons_append, linkTo_first _ _ rfl]
    simp [treeRecords, forestRecords, nodeRecord, openRecords, lastPosition, sizeForest,
      SnapshotNode.new]
  | append_singleton walked last =>
    obtain ⟨sibling, children⟩ := last
    have hlast := linkTo_next before
      (forestRecords before.length (some (before.length + 1 + sizeForest walked))
        (before.length + 1) walked)
      (forestRecords (before.length + 1 + sizeForest walked) none
        (before.length + 1 + sizeForest walked + 1) children ++
        [SnapshotNode.new child (some before.length)])
      { SnapshotNode.new data parent with
        firstChild := some (before.length + 1)
        lastChild := some (before.length + 1 + sizeForest walked) }
      (nodeRecord (some before.length) none (before.length + 1 + sizeForest walked) sibling
        children)
      (by rw [length_forestRecords])
      (before.length + 1 + sizeForest (walked ++ [.node sibling children]))
    rw [treeRecords_concat, openRecords, openRecords, forestRecords_concat]
    simp only [treeRecords, forestRecords, List.append_assoc, List.cons_append] at hlast ⊢
    rw [hlast]
    simp [nodeRecord, lastPosition, SnapshotNode.new]

/-! ## The walk -/

/-- The walk goes on where all records so far have a number that fits in 32 bits. -/
def whileFits {β : Type} (count : ℕ) (result : Except PayloadError β) : Except PayloadError β :=
  if count ≤ u32Max + 1 then result else .error (.lengthOverflow (u32Max + 1))

theorem whileFits_whileFits {β : Type} {m n : ℕ} (h : m ≤ n) (result : Except PayloadError β) :
    whileFits m (whileFits n result) = whileFits n result := by
  rw [whileFits, whileFits]
  split
  · rfl
  · rw [if_neg (by omega)]

theorem whileFits_congr {β : Type} {count : ℕ} {result result' : Except PayloadError β}
    (h : count ≤ u32Max + 1 → result = result') :
    whileFits count result = whileFits count result' := by
  rw [whileFits, whileFits]
  split
  · next hle => exact h hle
  · rfl

/-- The tables after the nodes of a list have been pushed from a position on. -/
def Tables.extend (isTarget : Node ι → Bool) (includeLiteralStrings : Bool) (pos : ℕ)
    (listed : List (Node ι)) (nodes : List SnapshotNode) (tables : Tables) : Tables where
  nodes := nodes
  targets := tables.targets ++ listed.findIdxs isTarget pos
  literalStrings := tables.literalStrings ++ literalTable includeLiteralStrings pos listed

theorem literalTable_append (includeLiteralStrings : Bool) (pos : ℕ) (xs ys : List (Node ι)) :
    literalTable includeLiteralStrings pos (xs ++ ys) =
      literalTable includeLiteralStrings pos xs ++
        literalTable includeLiteralStrings (pos + xs.length) ys := by
  cases includeLiteralStrings with
  | false => rfl
  | true => simp [literalTable, List.zipIdx_append]

theorem Tables.extend_extend (isTarget : Node ι → Bool) (includeLiteralStrings : Bool) (pos : ℕ)
    (xs ys : List (Node ι)) (nodes nodes' : List SnapshotNode) (tables : Tables) :
    (tables.extend isTarget includeLiteralStrings pos xs nodes).extend isTarget
        includeLiteralStrings (pos + xs.length) ys nodes' =
      tables.extend isTarget includeLiteralStrings pos (xs ++ ys) nodes' := by
  simp [Tables.extend, List.findIdxs_append, literalTable_append]

theorem Tables.push_eq_extend (isTarget : Node ι → Bool) (includeLiteralStrings : Bool)
    (node : Node ι) (parent : Option ℕ) (identifier : ℕ) (tables : Tables) :
    tables.push isTarget includeLiteralStrings node parent identifier =
      tables.extend isTarget includeLiteralStrings identifier [node]
        (linkTo parent identifier (tables.nodes ++ [SnapshotNode.new node.value parent])) := by
  rw [Tables.push, Tables.extend, literalTable]
  congr 1
  · cases htarget : isTarget node <;> simp [htarget]
  · cases includeLiteralStrings with
    | false => simp
    | true => cases hvalue : node.value.literalValue <;> simp [hvalue]

section Walk

variable (isTarget : Node ι → Bool) (includeLiteralStrings : Bool)

theorem appendSubtreeLoop_cons (node : Node ι) (parent : Option ℕ)
    (stack : List (Node ι × Option ℕ)) {tables : Tables} {count : ℕ}
    (hcount : tables.nodes.length = count) (hle : count ≤ u32Max + 1) :
    appendSubtreeLoop isTarget includeLiteralStrings ((node, parent) :: stack) tables =
      whileFits (count + 1)
        (appendSubtreeLoop isTarget includeLiteralStrings
          (node.children.map (fun child => (child, some count)) ++ stack)
          (tables.push isTarget includeLiteralStrings node parent count)) := by
  rw [appendSubtreeLoop, nextIdentifier, hcount, whileFits]
  by_cases hfits : count ≤ u32Max
  · rw [if_pos hfits, if_pos (by omega)]
  · rw [if_neg hfits, if_neg (by omega)]
    have heq : count = u32Max + 1 := by omega
    rw [heq]

/-- Where a node stands in the table with the children walked so far, walking the others puts
them into it too. -/
def WalksChildren (node : Node ι) : Prop :=
  ∀ (before : List SnapshotNode) (parent : Option ℕ) (stack : List (Node ι × Option ℕ))
    (tables : Tables),
    tables.nodes = before ++ treeRecords parent none before.length (.node node.value []) →
    before.length + 1 ≤ u32Max + 1 →
    appendSubtreeLoop isTarget includeLiteralStrings
        (node.children.map (fun child => (child, some before.length)) ++ stack) tables =
      whileFits (before.length + node.size)
        (appendSubtreeLoop isTarget includeLiteralStrings stack
          (tables.extend isTarget includeLiteralStrings (before.length + 1)
            (subtreesForest node.children)
            (before ++ treeRecords parent none before.length node)))

theorem walksChildren_from (data : NodeData ι) (before : List SnapshotNode)
    (parent : Option ℕ) (stack : List (Node ι × Option ℕ)) (rest : List (Node ι))
    (hrest : ∀ child ∈ rest, WalksChildren isTarget includeLiteralStrings child)
    (walked : List (Node ι)) (tables : Tables)
    (hnodes : tables.nodes =
      before ++ treeRecords parent none before.length (.node data walked))
    (hle : before.length + 1 + sizeForest walked ≤ u32Max + 1) :
    appendSubtreeLoop isTarget includeLiteralStrings
        (rest.map (fun child => (child, some before.length)) ++ stack) tables =
      whileFits (before.length + 1 + sizeForest (walked ++ rest))
        (appendSubtreeLoop isTarget includeLiteralStrings stack
          (tables.extend isTarget includeLiteralStrings (before.length + 1 + sizeForest walked)
            (subtreesForest rest)
            (before ++ treeRecords parent none before.length (.node data (walked ++ rest))))) := by
  induction rest generalizing walked tables with
  | nil =>
    have hsame : tables.extend isTarget includeLiteralStrings
        (before.length + 1 + sizeForest walked) [] tables.nodes = tables := by
      simp [Tables.extend, literalTable]
    rw [List.append_nil, ← hnodes, subtreesForest, hsame, whileFits, if_pos hle]
    rfl
  | cons child rest ih =>
    have hbefore : (before ++ openRecords parent before.length data walked).length =
        before.length + 1 + sizeForest walked := by
      rw [List.length_append, length_openRecords]
      omega
    have hcount : tables.nodes.length = before.length + 1 + sizeForest walked := by
      rw [hnodes, List.length_append, length_treeRecords, size]
      omega
    have hsize := size_eq child
    have hwalked : sizeForest (walked ++ [child]) = sizeForest walked + child.size := by
      rw [sizeForest_append, sizeForest, sizeForest, Nat.add_zero]
    have htotal : sizeForest (walked ++ child :: rest) =
        sizeForest walked + child.size + sizeForest rest := by
      rw [sizeForest_append, sizeForest, Nat.add_assoc]
    rw [List.map_cons, List.cons_append,
      appendSubtreeLoop_cons _ _ child _ _ hcount hle, Tables.push_eq_extend, hnodes,
      linkTo_child]
    -- First the child's own children, in the table that ends with the child as a leaf.
    have hchild : ∀ hfits : before.length + 1 + sizeForest walked + 1 ≤ u32Max + 1, _ :=
      fun hfits => hrest child (by simp)
        (before ++ openRecords parent before.length data walked) (some before.length)
        (rest.map (fun child => (child, some before.length)) ++ stack)
        (tables.extend isTarget includeLiteralStrings
          (before.length + 1 + sizeForest walked) [child]
          (before ++ openRecords parent before.length data walked ++
            treeRecords (some before.length) none (before.length + 1 + sizeForest walked)
              (.node child.value [])))
        (by rw [hbefore]; rfl) (by rw [hbefore]; exact hfits)
    rw [hbefore] at hchild
    have hpush : (tables.extend isTarget includeLiteralStrings
          (before.length + 1 + sizeForest walked) [child]
          (before ++ openRecords parent before.length data walked ++
            treeRecords (some before.length) none (before.length + 1 + sizeForest walked)
              (.node child.value []))).extend isTarget includeLiteralStrings
          (before.length + 1 + sizeForest walked + 1) (subtreesForest child.children)
          (before ++ openRecords parent before.length data walked ++
            treeRecords (some before.length) none (before.length + 1 + sizeForest walked) child) =
        tables.extend isTarget includeLiteralStrings (before.length + 1 + sizeForest walked)
          child.subtrees
          (before ++ treeRecords parent none before.length (.node data (walked ++ [child]))) := by
      rw [treeRecords_concat, ← List.append_assoc]
      cases child
      exact Tables.extend_extend _ _ _ [_] _ _ _ _
    rw [whileFits_congr hchild, whileFits_whileFits (by omega), hpush]
    -- Then the children after it.
    have hothers : ∀ hfits : before.length + 1 + sizeForest walked + child.size ≤ u32Max + 1, _ :=
      fun hfits => ih (fun t ht => hrest t (by simp [ht])) (walked ++ [child])
        (tables.extend isTarget includeLiteralStrings (before.length + 1 + sizeForest walked)
          child.subtrees
          (before ++ treeRecords parent none before.length (.node data (walked ++ [child]))))
        rfl (by omega)
    rw [List.append_assoc, List.singleton_append, hwalked, ← Nat.add_assoc] at hothers
    have hextend := Tables.extend_extend isTarget includeLiteralStrings
      (before.length + 1 + sizeForest walked) child.subtrees (subtreesForest rest)
      (before ++ treeRecords parent none before.length (.node data (walked ++ [child])))
      (before ++ treeRecords parent none before.length (.node data (walked ++ child :: rest)))
      tables
    rw [length_subtrees] at hextend
    rw [whileFits_congr hothers, whileFits_whileFits (by omega), hextend, subtreesForest]

/-- Every node's children are walked into its place in the table. -/
theorem walksChildren (node : Node ι) : WalksChildren isTarget includeLiteralStrings node := by
  induction node using RoseTree.induction with
  | node data children ih =>
    intro before parent stack tables hnodes hle
    have hwalk := walksChildren_from isTarget includeLiteralStrings data before parent stack
      children ih [] tables hnodes hle
    rw [size, Nat.add_comm (sizeForest children), ← Nat.add_assoc]
    exact hwalk

/-- A subtree is appended with all its links, where its records fit. -/
theorem appendSubtree_eq (root : Node ι) (tables : Tables)
    (hle : tables.nodes.length ≤ u32Max + 1) :
    appendSubtree root isTarget includeLiteralStrings tables =
      whileFits (tables.nodes.length + root.size)
        (.ok (tables.extend isTarget includeLiteralStrings tables.nodes.length root.subtrees
          (tables.nodes ++ treeRecords none none tables.nodes.length root))) := by
  have hpos := root.size_pos
  rw [appendSubtree, appendSubtreeLoop_cons _ _ root none [] rfl hle, Tables.push_eq_extend, linkTo]
  have hwalk : ∀ hfits : tables.nodes.length + 1 ≤ u32Max + 1, _ := fun hfits =>
    walksChildren isTarget includeLiteralStrings root tables.nodes none []
      (tables.extend isTarget includeLiteralStrings tables.nodes.length [root]
        (tables.nodes ++ [SnapshotNode.new root.value none]))
      (by simp [Tables.extend, treeRecords, forestRecords, nodeRecord, lastPosition,
        SnapshotNode.new]) hfits
  rw [whileFits_congr hwalk, whileFits_whileFits (by omega), appendSubtreeLoop]
  cases root
  exact congrArg _ (congrArg _ (Tables.extend_extend _ _ _ [_] _ _ _ _))

end Walk

end Mago.Extension
