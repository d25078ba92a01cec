import Mago.Extension.SourceTargets
import Mathlib

/-!
# Snapshots encode the tree
-/
namespace Mago.Extension
open Library RoseTree

variable {ι : Type}

mutual

/-- The records from a position on encode a tree: the first child and then each next sibling
lead to the children in their order and to nothing else, each where the one before it ends and
with the way back to its parent. -/
def Encodes (nodes : List SnapshotNode) (pos : ℕ) : Node ι → Prop
  | .node data children =>
    ∃ record, nodes[pos]? = some record ∧ record.kind = data.kind ∧ record.start = data.start ∧
      record.stop = data.stop ∧ EncodesForest nodes pos record.firstChild (pos + 1) children

def EncodesForest (nodes : List SnapshotNode) (parent : ℕ) (link : Option ℕ) (pos : ℕ) :
    List (Node ι) → Prop
  | [] => link = none
  | t :: ts =>
    link = some pos ∧ Encodes nodes pos t ∧ ∃ record, nodes[pos]? = some record ∧
      record.parent = some parent ∧
      EncodesForest nodes parent record.nextSibling (pos + t.size) ts

end

section Placed

variable (target : Node ι → Option Bool) (nodes : List SnapshotNode)

mutual

/-- Selected subtrees are encoded one after another, with no link to what is around them, and
between them stand the nodes that are selected alone, with no links at all. -/
def Placed (pos : ℕ) : Node ι → Prop
  | .node data children =>
    match target (.node data children) with
    | some true =>
      Encodes nodes pos (.node data children) ∧
        ∃ record, nodes[pos]? = some record ∧ record.parent = none ∧ record.nextSibling = none
    | some false => nodes[pos]? = some (SnapshotNode.new data none) ∧ PlacedForest (pos + 1) children
    | none => PlacedForest pos children

def PlacedForest (pos : ℕ) : List (Node ι) → Prop
  | [] => True
  | t :: ts => Placed pos t ∧ PlacedForest (pos + (listing target t).length) ts

end

end Placed

/-- What a record says of its own node. -/
def SnapshotNode.content (node : SnapshotNode) : UInt8 × ℕ × ℕ := (node.kind, node.start, node.stop)

def NodeData.content (data : NodeData ι) : UInt8 × ℕ × ℕ := (data.kind, data.start, data.stop)

structure SourceSnapshot.Exact (target : Node ι → Option Bool) (root : Node ι)
    (snapshot : SourceSnapshot) : Prop where
  /-- A record for each listed node and no other. -/
  contents : snapshot.nodes.map SnapshotNode.content =
    (listing target root).map fun node => node.value.content
  placed : Placed target snapshot.nodes 0 root
  /-- Also a selected subtree inside another one is encoded where it stands. -/
  subtrees : ∀ (i : ℕ) (node : Node ι), (listing target root)[i]? = some node →
    target node = some true → Encodes snapshot.nodes i node
  targets : ∀ i : ℕ, i ∈ snapshot.targets ↔
    ∃ node, (listing target root)[i]? = some node ∧ target node ≠ none
  ascending : snapshot.targets.Pairwise (· < ·)

/-! ## Subtrees -/

theorem getElem?_append_head {nodes before after : List SnapshotNode} {record : SnapshotNode}
    {rest : List SnapshotNode} (h : nodes = before ++ (record :: rest) ++ after) :
    nodes[before.length]? = some record := by
  rw [h, List.append_assoc, List.cons_append, getElem?_length_append]

theorem treeRecords_head (parent next : Option ℕ) (pos : ℕ) (t : Node ι) :
    ∃ record rest, treeRecords parent next pos t = record :: rest ∧ record.parent = parent ∧
      record.nextSibling = next := by
  cases t with
  | node data children => exact ⟨_, _, treeRecords.eq_1 parent next pos data children, rfl, rfl⟩

/-- A part of a table where the tree's records stand at their own position encodes the tree. -/
def RecordsEncode (t : Node ι) : Prop :=
  ∀ (before after : List SnapshotNode) (parent next : Option ℕ) (nodes : List SnapshotNode),
    nodes = before ++ treeRecords parent next before.length t ++ after →
      Encodes nodes before.length t

theorem encodesForest_of_records {ts : List (Node ι)} (h : ∀ t ∈ ts, RecordsEncode t)
    (before after : List SnapshotNode) (parent : ℕ) (nodes : List SnapshotNode)
    (hnodes : nodes = before ++ forestRecords parent none before.length ts ++ after) :
    EncodesForest nodes parent (if ts.isEmpty then none else some before.length) before.length
      ts := by
  induction ts generalizing before with
  | nil => rfl
  | cons t ts ih =>
    rw [forestRecords] at hnodes
    have htree : nodes = before ++
        treeRecords (some parent) (if ts.isEmpty then none else some (before.length + t.size))
          before.length t ++
        (forestRecords parent none (before.length + t.size) ts ++ after) := by
      rw [hnodes]
      simp only [List.append_assoc]
    refine ⟨rfl, h t (by simp) before _ _ _ nodes htree, ?_⟩
    obtain ⟨record, rest, hrecords, hparent, hnext⟩ := treeRecords_head (some parent)
      (if ts.isEmpty then none else some (before.length + t.size)) before.length t
    have hrecord := htree
    rw [hrecords] at hrecord
    refine ⟨record, getElem?_append_head hrecord, hparent, ?_⟩
    have hlength : (before ++ treeRecords (some parent)
        (if ts.isEmpty then none else some (before.length + t.size)) before.length t).length =
          before.length + t.size := by
      rw [List.length_append, length_treeRecords]
    have hothers := ih (fun u hu => h u (by simp [hu])) (before ++ treeRecords (some parent)
      (if ts.isEmpty then none else some (before.length + t.size)) before.length t)
      (by rw [hlength, hnodes]; simp only [List.append_assoc])
    rw [hlength] at hothers
    rw [hnext]
    exact hothers

theorem recordsEncode (t : Node ι) : RecordsEncode t := by
  induction t using RoseTree.induction with
  | node data children ih =>
    intro before after parent next nodes hnodes
    rw [treeRecords] at hnodes
    refine ⟨_, getElem?_append_head hnodes, rfl, rfl, rfl, ?_⟩
    have hchildren := encodesForest_of_records ih
      (before ++ [nodeRecord parent next before.length data children]) after before.length nodes
    rw [List.length_append, List.length_singleton] at hchildren
    exact hchildren (by rw [hnodes]; simp)

/-- A tree that is encoded has all its subtrees encoded, in preorder. -/
theorem encodes_subtree {nodes : List SnapshotNode} (t : Node ι) :
    ∀ {pos : ℕ}, Encodes nodes pos t → ∀ {i : ℕ} {s : Node ι}, t.subtrees[i]? = some s →
      Encodes nodes (pos + i) s := by
  induction t using RoseTree.induction with
  | node data children ih =>
    intro pos h i s hs
    cases i with
    | zero =>
      rw [subtrees, List.getElem?_cons_zero, Option.some.injEq] at hs
      rwa [← hs]
    | succ i =>
      rw [subtrees, List.getElem?_cons_succ] at hs
      obtain ⟨record, -, -, -, -, hforest⟩ := h
      have hgo : ∀ (link : Option ℕ) (first j : ℕ),
          EncodesForest nodes pos link first children → (subtreesForest children)[j]? = some s →
          Encodes nodes (first + j) s := by
        clear hs hforest
        intro link first j hforest hs
        induction children generalizing link first j with
        | nil => simp [subtreesForest] at hs
        | cons t ts ihts =>
          obtain ⟨-, ht, next, -, -, hts⟩ := hforest
          rw [subtreesForest, List.getElem?_append, length_subtrees] at hs
          split at hs
          · exact ih t (by simp) ht hs
          · next hle =>
            have hrest := ihts (fun u hu => ih u (by simp [hu])) _ _ _ hts hs
            rwa [Nat.add_assoc, Nat.add_sub_cancel' (by omega)] at hrest
      have hmem := hgo _ _ i hforest hs
      rwa [Nat.add_assoc, Nat.add_comm 1 i] at hmem

/-! ## The outer walk -/

section Outer

variable (target : Node ι → Option Bool)

theorem content_treeRecords (parent next : Option ℕ) (pos : ℕ) (t : Node ι) :
    (treeRecords parent next pos t).map SnapshotNode.content =
      t.subtrees.map fun node => node.value.content := by
  induction t using RoseTree.induction generalizing parent next pos with
  | node data children ih =>
    have hchildren : ∀ first, (forestRecords pos none first children).map SnapshotNode.content =
        (subtreesForest children).map fun node => node.value.content := by
      intro first
      induction children generalizing first with
      | nil => rfl
      | cons t ts ihts =>
        rw [forestRecords, subtreesForest, List.map_append, List.map_append, ih t (by simp),
          ihts fun u hu => ih u (by simp [hu])]
    rw [treeRecords, subtrees, List.map_cons, List.map_cons, hchildren]
    rfl

theorem content_outerRecords (pos : ℕ) (t : Node ι) :
    (outerRecords target pos t).map SnapshotNode.content =
      (listing target t).map fun node => node.value.content := by
  induction t using RoseTree.induction generalizing pos with
  | node data children ih =>
    have hchildren : ∀ first, (outerForest target first children).map SnapshotNode.content =
        (listingForest target children).map fun node => node.value.content := by
      intro first
      induction children generalizing first with
      | nil => rfl
      | cons t ts ihts =>
        rw [outerForest, listingForest, List.map_append, List.map_append, ih t (by simp),
          ihts fun u hu => ih u (by simp [hu])]
    rw [outerRecords, listing]
    split
    · exact content_treeRecords _ _ _ _
    · rw [List.map_cons, List.map_cons, hchildren]
      rfl
    · exact hchildren pos

theorem placed_of_records (t : Node ι) (before after nodes : List SnapshotNode)
    (hnodes : nodes = before ++ outerRecords target before.length t ++ after) :
    Placed target nodes before.length t := by
  induction t using RoseTree.induction generalizing before after with
  | node data children ih =>
    have hchildren : ∀ before after : List SnapshotNode,
        nodes = before ++ outerForest target before.length children ++ after →
          PlacedForest target nodes before.length children := by
      clear hnodes
      intro before after hnodes
      induction children generalizing before with
      | nil => trivial
      | cons t ts ihts =>
        rw [outerForest] at hnodes
        refine ⟨ih t (by simp) before (outerForest target
          (before.length + (listing target t).length) ts ++ after) ?_, ?_⟩
        · rw [hnodes]
          simp only [List.append_assoc]
        · have hothers := ihts (fun u hu => ih u (by simp [hu]))
            (before ++ outerRecords target before.length t)
          rw [List.length_append, length_outerRecords] at hothers
          exact hothers (by rw [hnodes]; simp only [List.append_assoc])
    rw [outerRecords] at hnodes
    rw [Placed]
    cases hselected : target (.node data children) with
    | none =>
      rw [hselected] at hnodes
      exact hchildren before after hnodes
    | some includeSubtree =>
      rw [hselected] at hnodes
      cases includeSubtree with
      | true =>
        refine ⟨recordsEncode _ before after none none nodes hnodes, ?_⟩
        obtain ⟨record, rest, hrecords, hparent, hnext⟩ :=
          treeRecords_head none none before.length (RoseTree.node data children)
        dsimp only at hnodes
        rw [hrecords] at hnodes
        exact ⟨record, getElem?_append_head hnodes, hparent, hnext⟩
      | false =>
        refine ⟨getElem?_append_head hnodes, ?_⟩
        have hrest := hchildren (before ++ [SnapshotNode.new data none]) after
        rw [List.length_append, List.length_singleton] at hrest
        exact hrest (by rw [hnodes]; simp)

theorem encodes_of_placed {nodes : List SnapshotNode} (t : Node ι) :
    ∀ {pos : ℕ}, Placed target nodes pos t → ∀ {i : ℕ} {s : Node ι},
      (listing target t)[i]? = some s → target s = some true → Encodes nodes (pos + i) s := by
  induction t using RoseTree.induction with
  | node data children ih =>
    have hgo : ∀ (first j : ℕ) (s : Node ι), PlacedForest target nodes first children →
        (listingForest target children)[j]? = some s → target s = some true →
        Encodes nodes (first + j) s := by
      intro first j s hforest hs htrue
      induction children generalizing first j with
      | nil => simp [listingForest] at hs
      | cons t ts ihts =>
        rw [listingForest, List.getElem?_append] at hs
        split at hs
        · exact ih t (by simp) hforest.1 hs htrue
        · next hle =>
          have hrest := ihts (fun u hu => ih u (by simp [hu])) _ _ hforest.2 hs
          rwa [Nat.add_assoc, Nat.add_sub_cancel' (by omega)] at hrest
    intro pos h i s hs htrue
    rw [Placed] at h
    rw [listing] at hs
    cases hselected : target (.node data children) with
    | none =>
      rw [hselected] at h hs
      exact hgo pos i s h hs htrue
    | some includeSubtree =>
      rw [hselected] at h hs
      cases includeSubtree with
      | true => exact encodes_subtree _ h.1 hs
      | false =>
        cases i with
        | zero =>
          rw [List.getElem?_cons_zero, Option.some.injEq] at hs
          rw [← hs, hselected] at htrue
          cases htrue
        | succ i =>
          have hmem := hgo (pos + 1) i s h.2 hs htrue
          rwa [Nat.add_assoc, Nat.add_comm 1 i] at hmem

/-- A tree lists nothing only where none of its nodes is selected. -/
theorem listing_eq_nil (t : Node ι) (h : ∀ node ∈ listing target t, target node = none) :
    ∀ node ∈ t.subtrees, target node = none := by
  induction t using RoseTree.induction with
  | node data children ih =>
    have hgo : (∀ node ∈ listingForest target children, target node = none) →
        ∀ node ∈ subtreesForest children, target node = none := by
      clear h
      intro h
      induction children with
      | nil => simp [subtreesForest]
      | cons t ts ihts =>
        intro node hnode
        rw [subtreesForest] at hnode
        rw [listingForest] at h
        rcases List.mem_append.mp hnode with hnode | hnode
        · exact ih t (by simp) (fun n hn => h n (List.mem_append_left _ hn)) node hnode
        · exact ihts (fun u hu => ih u (by simp [hu]))
            (fun n hn => h n (List.mem_append_right _ hn)) node hnode
    rw [listing] at h
    cases hselected : target (.node data children) with
    | none =>
      rw [hselected] at h
      intro node hnode
      rw [subtrees, List.mem_cons] at hnode
      rcases hnode with rfl | hnode
      · exact hselected
      · exact hgo h node hnode
    | some includeSubtree =>
      have hself : target (.node data children) = none := by
        rw [hselected] at h
        cases includeSubtree with
        | true => exact h _ (by rw [subtrees]; exact List.mem_cons_self ..)
        | false => exact h _ (List.mem_cons_self ..)
      rw [hselected] at hself
      cases hself

end Outer

end Mago.Extension
