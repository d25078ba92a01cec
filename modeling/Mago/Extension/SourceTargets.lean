import Mago.Extension.SourceTable
import Mathlib

/-!
# What a snapshot lists

The outer walk lists a selected node alone or with its subtree, and looks for others under a node
that is alone or not selected. The records of a subtree encode it: from each record the first
child and then the siblings lead to the children and no others, and back to their parent.
-/
namespace Mago.Extension
open Library RoseTree

variable {ι : Type}

section Listing

variable (target : Node ι → Option Bool)

mutual

/-- The nodes of a snapshot in the order of its table. -/
def listing : Node ι → List (Node ι)
  | .node data children =>
    match target (.node data children) with
    | some true => (RoseTree.node data children).subtrees
    | some false => .node data children :: listingForest children
    | none => listingForest children

def listingForest : List (Node ι) → List (Node ι)
  | [] => []
  | t :: ts => listing t ++ listingForest ts

end

mutual

def outerRecords (pos : ℕ) : Node ι → List SnapshotNode
  | .node data children =>
    match target (.node data children) with
    | some true => treeRecords none none pos (.node data children)
    | some false => SnapshotNode.new data none :: outerForest (pos + 1) children
    | none => outerForest pos children

def outerForest (pos : ℕ) : List (Node ι) → List SnapshotNode
  | [] => []
  | t :: ts => outerRecords pos t ++ outerForest (pos + (listing target t).length) ts

end

mutual

/-- The spans of the selected nodes outside other selected subtrees. -/
def includedRanges : Node ι → List (ℕ × ℕ)
  | .node data children =>
    match target (.node data children) with
    | some true => [(data.start, data.stop)]
    | some false => (data.start, data.stop) :: includedRangesForest children
    | none => includedRangesForest children

def includedRangesForest : List (Node ι) → List (ℕ × ℕ)
  | [] => []
  | t :: ts => includedRanges t ++ includedRangesForest ts

end

/-! ## The outer walk -/

/-- The state after the nodes of a list have been recorded. -/
def TargetTables.extend (listed : List (Node ι)) (records : List SnapshotNode)
    (ranges : List (ℕ × ℕ)) (state : TargetTables) : TargetTables where
  tables := state.tables.extend (fun child => (target child).isSome) false
    state.tables.nodes.length listed (state.tables.nodes ++ records)
  includedRanges := state.includedRanges ++ ranges

theorem TargetTables.extend_nil (state : TargetTables) :
    state.extend target [] [] [] = state := by
  simp [TargetTables.extend, Tables.extend, literalTable]

theorem TargetTables.extend_extend (xs ys : List (Node ι)) (records records' : List SnapshotNode)
    (ranges ranges' : List (ℕ × ℕ)) (hlength : records.length = xs.length)
    (state : TargetTables) :
    (state.extend target xs records ranges).extend target ys records' ranges' =
      state.extend target (xs ++ ys) (records ++ records') (ranges ++ ranges') := by
  have htables := Tables.extend_extend (fun child => (target child).isSome) false
    state.tables.nodes.length xs ys (state.tables.nodes ++ records)
    (state.tables.nodes ++ (records ++ records')) state.tables
  simp only [TargetTables.extend, Tables.extend, List.length_append, hlength,
    List.append_assoc] at htables ⊢
  rw [htables]

theorem length_outerForest_of {ts : List (Node ι)}
    (h : ∀ t ∈ ts, ∀ pos, (outerRecords target pos t).length = (listing target t).length)
    (pos : ℕ) : (outerForest target pos ts).length = (listingForest target ts).length := by
  induction ts generalizing pos with
  | nil => rfl
  | cons t ts ih =>
    rw [outerForest, listingForest, List.length_append, List.length_append, h t (by simp),
      ih fun u hu => h u (by simp [hu])]

@[simp] theorem length_outerRecords (pos : ℕ) (t : Node ι) :
    (outerRecords target pos t).length = (listing target t).length := by
  induction t using RoseTree.induction generalizing pos with
  | node data children ih =>
    rw [outerRecords, listing]
    split
    · rw [length_treeRecords, length_subtrees]
    · rw [List.length_cons, List.length_cons, length_outerForest_of target ih]
    · rw [length_outerForest_of target ih]

@[simp] theorem length_outerForest (pos : ℕ) (ts : List (Node ι)) :
    (outerForest target pos ts).length = (listingForest target ts).length :=
  length_outerForest_of target (fun t _ _ => length_outerRecords target _ t) pos

/-- The walk at a node lists what the node lists and goes on with the stack. -/
def WalksTarget (t : Node ι) : Prop :=
  ∀ (stack : List (Node ι)) (state : TargetTables), state.tables.nodes.length ≤ u32Max + 1 →
    targetedLoop target (t :: stack) state =
      whileFits (state.tables.nodes.length + (listing target t).length)
        (targetedLoop target stack
          (state.extend target (listing target t)
            (outerRecords target state.tables.nodes.length t) (includedRanges target t)))

theorem walksTarget_forest {ts : List (Node ι)} (h : ∀ t ∈ ts, WalksTarget target t)
    (stack : List (Node ι)) (state : TargetTables)
    (hle : state.tables.nodes.length ≤ u32Max + 1) :
    targetedLoop target (ts ++ stack) state =
      whileFits (state.tables.nodes.length + (listingForest target ts).length)
        (targetedLoop target stack
          (state.extend target (listingForest target ts)
            (outerForest target state.tables.nodes.length ts)
            (includedRangesForest target ts))) := by
  induction ts generalizing state with
  | nil =>
    rw [listingForest, outerForest, includedRangesForest, TargetTables.extend_nil, whileFits,
      List.length_nil, Nat.add_zero, if_pos hle]
    rfl
  | cons t ts ih =>
    have hlength : (state.extend target (listing target t)
        (outerRecords target state.tables.nodes.length t)
        (includedRanges target t)).tables.nodes.length =
          state.tables.nodes.length + (listing target t).length := by
      simp [TargetTables.extend, Tables.extend]
    have hothers := fun hfits => ih (fun u hu => h u (by simp [hu]))
      (state.extend target (listing target t) (outerRecords target state.tables.nodes.length t)
        (includedRanges target t)) (by rw [hlength]; exact hfits)
    have hcount : (listingForest target (t :: ts)).length =
        (listing target t).length + (listingForest target ts).length := by
      rw [listingForest, List.length_append]
    rw [List.cons_append, h t (by simp) _ state hle, whileFits_congr hothers, hlength,
      whileFits_whileFits (by omega), TargetTables.extend_extend _ _ _ _ _ _ _ (by simp),
      listingForest, outerForest, includedRangesForest, List.length_append, Nat.add_assoc]

theorem walksTarget (t : Node ι) : WalksTarget target t := by
  induction t using RoseTree.induction with
  | node data children ih =>
    intro stack state hle
    rw [targetedLoop, listing, outerRecords, includedRanges]
    cases hselected : target (.node data children) with
    | none => exact walksTarget_forest target ih stack state hle
    | some includeSubtree =>
      cases includeSubtree with
      | true =>
        dsimp only
        have happend := appendSubtree_eq (fun child => (target child).isSome) false
          (.node data children) { nodes := state.tables.nodes, targets := state.tables.targets } hle
        rw [happend, length_subtrees, whileFits, whileFits]
        by_cases hfits : state.tables.nodes.length + (RoseTree.node data children).size ≤ u32Max + 1
        · rw [if_pos hfits, if_pos hfits]
          simp [TargetTables.extend, Tables.extend, literalTable, value]
        · rw [if_neg hfits, if_neg hfits]
      | false =>
        have hone : state.extend target [.node data children] [SnapshotNode.new data none]
            [(data.start, data.stop)] =
            { tables :=
                { state.tables with
                  nodes := state.tables.nodes ++ [SnapshotNode.new data none]
                  targets := state.tables.targets ++ [state.tables.nodes.length] }
              includedRanges := state.includedRanges ++ [(data.start, data.stop)] } := by
          simp [TargetTables.extend, Tables.extend, literalTable, hselected]
        have hchildren := walksTarget_forest target ih stack
          (state.extend target [.node data children] [SnapshotNode.new data none]
            [(data.start, data.stop)])
        have hlength : (state.extend target [.node data children] [SnapshotNode.new data none]
            [(data.start, data.stop)]).tables.nodes.length = state.tables.nodes.length + 1 := by
          simp [TargetTables.extend, Tables.extend]
        rw [hlength, TargetTables.extend_extend _ _ _ _ _ _ _ rfl, hone] at hchildren
        dsimp only
        rw [nextIdentifier]
        by_cases hfits : state.tables.nodes.length ≤ u32Max
        · rw [if_pos hfits, List.length_cons, Nat.add_comm _ 1, ← Nat.add_assoc]
          exact hchildren (by omega)
        · have hfull : state.tables.nodes.length = u32Max + 1 := by omega
          rw [if_neg hfits, whileFits, if_neg (by rw [List.length_cons]; omega), hfull]

/-- The snapshot is told in full by what its nodes list. -/
theorem targetedWithFilter_eq (program : Program ι) (resolvedNames : List ResolvedName)
    (includeTrivia : Bool) :
    targetedWithFilter program resolvedNames target includeTrivia =
      whileFits (listing target program.node).length
        (.ok (if ((listing target program.node).findIdxs
            (fun child => (target child).isSome)).isEmpty then none
          else some
            { nodes := outerRecords target 0 program.node
              targets := (listing target program.node).findIdxs
                (fun child => (target child).isSome)
              names := sortNames (resolvedNames.filter
                (inRanges (mergeRanges (includedRanges target program.node))))
              trivia := if includeTrivia then collectTrivia program else []
              literalStrings := [] })) := by
  have hend (state : TargetTables) : targetedLoop target [] state = .ok state := by
    rw [targetedLoop]
  rw [targetedWithFilter, walksTarget target program.node [] {} (Nat.zero_le _), hend, whileFits,
    whileFits]
  simp only [List.length_nil, Nat.zero_add]
  by_cases hfits : (listing target program.node).length ≤ u32Max + 1
  · rw [if_pos hfits, if_pos hfits]
    simp only [TargetTables.extend, Tables.extend, List.nil_append, List.length_nil]
    exact (apply_ite Except.ok _ _ _).symm
  · rw [if_neg hfits, if_neg hfits]

end Listing

end Mago.Extension
