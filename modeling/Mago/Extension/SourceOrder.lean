import Mago.Extension.SourceEncoding

/-!
# Snapshots and the order of the source

A snapshot encodes the tree as it is visited. That is the tree as it stands in the source exactly
where no property of a selected subtree has both modifiers and a `var`.
-/
namespace Mago.Extension
open Library RoseTree SyntaxNode

variable {ι : Type}

structure SyntaxProgram (ι : Type) where
  node : SyntaxNode ι
  trivia : List Trivia

def SyntaxProgram.visited (program : SyntaxProgram ι) : Program (SyntaxNode ι) where
  node := program.node.visited
  trivia := program.trivia

/-- A selector sees the node itself. -/
def onNode (target : SyntaxNode ι → Option Bool) (node : Node (SyntaxNode ι)) : Option Bool :=
  target node.value.identity

@[simp]
theorem onNode_visited (target : SyntaxNode ι → Option Bool) (node : SyntaxNode ι) :
    onNode target node.visited = target node := by
  rw [onNode, identity_visited]

/-- The subtrees of a selected node are encoded in the order of the source. -/
structure SourceSnapshot.ExactInSource (target : SyntaxNode ι → Option Bool) (root : SyntaxNode ι)
    (snapshot : SourceSnapshot) : Prop where
  exact : snapshot.Exact (onNode target) root.visited
  sourceOrder : ∀ node, Below root node → target node = some true →
    ∀ i : ℕ, (listing (onNode target) root.visited)[i]? = some node.visited →
      Encodes snapshot.nodes i node.inSource

/-- What the snapshot of a tree has to be; there is none where no node is selected, and an error
where the nodes have no numbers of 32 bits. -/
def SnapshotsExactly (target : SyntaxNode ι → Option Bool) (root : SyntaxNode ι) :
    Except PayloadError (Option SourceSnapshot) → Prop
  | .error _ => u32Max + 1 < (listing (onNode target) root.visited).length
  | .ok none => ∀ node, Below root node → target node = none
  | .ok (some snapshot) => snapshot.ExactInSource target root

/-- The size that a snapshot tells is the number of bytes that it appends. -/
def TellsItsLength (snapshot : SourceSnapshot) : Prop :=
  ∀ writer writer',
    (snapshot.writeTo writer = .ok writer' →
      writer'.length = writer.length + snapshot.encodedLen) ∧
    (snapshot.writeToWithLiterals writer = .ok writer' →
      writer'.length = writer.length + snapshot.encodedLenWithLiterals)

/-! ## Selected nodes are listed -/

theorem below_cases {root node : SyntaxNode ι} (h : Below root node) :
    node = root ∨ ∃ child ∈ root.visitChildren, Below child node := by
  induction h with
  | root => exact .inl rfl
  | @child node inner _ hinner ih =>
    rcases ih with rfl | ⟨child, hchild, hbelow⟩
    · exact .inr ⟨inner, hinner, .root⟩
    · exact .inr ⟨child, hchild, hbelow.child hinner⟩

theorem mem_subtrees_visited {root : SyntaxNode ι} {t : Node (SyntaxNode ι)} :
    t ∈ root.visited.subtrees ↔ ∃ node, Below root node ∧ t = node.visited := by
  induction root using SyntaxNode.induction generalizing t with
  | node root ih =>
    rw [visited_eq, subtrees, List.mem_cons, ← visited_eq, mem_subtreesForest]
    constructor
    · intro h
      rcases h with rfl | ⟨_, hchild, ht⟩
      · exact ⟨root, .root, rfl⟩
      · rw [List.mem_map] at hchild
        obtain ⟨child, hchild, rfl⟩ := hchild
        obtain ⟨node, hnode, rfl⟩ := (ih child hchild).mp ht
        exact ⟨node, below_of_child hchild hnode, rfl⟩
    · intro h
      obtain ⟨node, hnode, rfl⟩ := h
      rcases below_cases hnode with rfl | ⟨child, hchild, hnode⟩
      · exact .inl rfl
      · exact .inr ⟨_, List.mem_map_of_mem hchild, (ih child hchild).mpr ⟨node, hnode, rfl⟩⟩

theorem mem_listingForest {target : Node ι → Option Bool} {ts : List (Node ι)} {s : Node ι} :
    s ∈ listingForest target ts ↔ ∃ t ∈ ts, s ∈ listing target t := by
  induction ts with
  | nil => simp [listingForest]
  | cons t ts ih => rw [listingForest, List.mem_append, ih, List.exists_mem_cons_iff]

/-- A node that is selected with its subtree is listed wherever it stands. -/
theorem mem_listing {target : Node ι → Option Bool} {root node : Node ι}
    (hnode : node ∈ root.subtrees) (hselected : target node = some true) :
    node ∈ listing target root := by
  induction root using RoseTree.induction with
  | node data children ih =>
    have hchildren : node ∈ subtreesForest children → node ∈ listingForest target children := by
      intro hbelow
      obtain ⟨t, ht, hnode⟩ := mem_subtreesForest.mp hbelow
      exact mem_listingForest.mpr ⟨t, ht, ih t ht hnode⟩
    rw [listing]
    rw [subtrees, List.mem_cons] at hnode
    cases htarget : target (.node data children) with
    | none =>
      rcases hnode with rfl | hnode
      · rw [hselected] at htarget
        cases htarget
      · exact hchildren hnode
    | some includeSubtree =>
      cases includeSubtree with
      | true =>
        dsimp only
        rwa [subtrees, List.mem_cons]
      | false =>
        rcases hnode with rfl | hnode
        · exact List.mem_cons_self
        · exact List.mem_cons_of_mem _ (hchildren hnode)

/-! ## Two orders in one table -/

/-- All properties below a node are ordered. -/
def AllOrdered (root : SyntaxNode ι) : Prop := ∀ node, Below root node → node.Ordered

/-- A table that encodes a node in both orders has its properties ordered. -/
def TellsOrder (nodes : List SnapshotNode) (node : SyntaxNode ι) : Prop :=
  ∀ i, Encodes nodes i node.visited → Encodes nodes i node.inSource → AllOrdered node

/-- Nodes that come first in both orders end where the others start. -/
theorem ordered_of_encodesForest {nodes : List SnapshotNode} {parent : ℕ}
    {children : List (SyntaxNode ι)} (h : ∀ child ∈ children, TellsOrder nodes child)
    {visitedRest sourceRest : List (Node (SyntaxNode ι))} {link : Option ℕ} {pos : ℕ}
    (hvisited : EncodesForest nodes parent link pos (children.map visited ++ visitedRest))
    (hsource : EncodesForest nodes parent link pos (children.map inSource ++ sourceRest)) :
    (∀ child ∈ children, AllOrdered child) ∧ ∃ link' pos',
      EncodesForest nodes parent link' pos' visitedRest ∧
        EncodesForest nodes parent link' pos' sourceRest := by
  induction children generalizing link pos with
  | nil => exact ⟨nofun, link, pos, hvisited, hsource⟩
  | cons child children ih =>
    rw [List.forall_mem_cons] at h
    obtain ⟨-, hchild, record, hrecord, -, hrest⟩ := hvisited
    obtain ⟨-, hchild', record', hrecord', -, hrest'⟩ := hsource
    rw [hrecord, Option.some.injEq] at hrecord'
    rw [← hrecord', size_inSource] at hrest'
    obtain ⟨hordered, hends⟩ := ih h.2 hrest hrest'
    exact ⟨List.forall_mem_cons.mpr ⟨h.1 pos hchild hchild', hordered⟩, hends⟩

/-- A keyword has nothing below it, and a modifier has a keyword. -/
theorem not_encodes_keyword_modifier {nodes : List SnapshotNode} {i : ℕ} {data : NodeData ι}
    {node : Modifier ι} (hkeyword : Encodes nodes i (keyword data).visited)
    (hmodifier : Encodes nodes i (modifier node).inSource) : False := by
  rw [visited_eq] at hkeyword
  rw [inSource_eq] at hmodifier
  obtain ⟨record, hrecord, -, -, -, hnone⟩ := hkeyword
  obtain ⟨record', hrecord', -, -, -, hsome, -⟩ := hmodifier
  rw [hrecord, Option.some.injEq] at hrecord'
  have hfirst : record.firstChild = none := hnone
  rw [hrecord', hsome] at hfirst
  cases hfirst

theorem tellsOrder (nodes : List SnapshotNode) (node : SyntaxNode ι) : TellsOrder nodes node := by
  induction node using SyntaxNode.induction with
  | node node ih =>
    intro i hvisited hsource
    rw [visited_eq] at hvisited
    rw [inSource_eq] at hsource
    obtain ⟨record, hrecord, -, -, -, hvisited⟩ := hvisited
    obtain ⟨record', hrecord', -, -, -, hsource⟩ := hsource
    rw [hrecord, Option.some.injEq] at hrecord'
    rw [← hrecord'] at hsource
    have hordered : node.Ordered := by
      cases node with
      | other data children => trivial
      | property data attributeLists modifiers var others =>
        cases var with
        | none => exact .inl rfl
        | some var =>
          cases modifiers with
          | nil => exact .inr rfl
          | cons first modifiers =>
            simp only [visitChildren, sourceChildren, List.map_append] at hvisited hsource
            have hattributes : ∀ child ∈ attributeLists, TellsOrder nodes child :=
              fun child hchild => ih child (List.mem_append_left _ hchild)
            obtain ⟨-, link, pos, hvar, hfirst⟩ :=
              ordered_of_encodesForest hattributes hvisited hsource
            exact (not_encodes_keyword_modifier hvar.2.1 hfirst.2.1).elim
    rw [hordered.sourceChildren_eq] at hsource
    rw [← List.append_nil (node.visitChildren.map visited)] at hvisited
    rw [← List.append_nil (node.visitChildren.map inSource)] at hsource
    obtain ⟨hchildren, -⟩ := ordered_of_encodesForest ih hvisited hsource
    intro inner hinner
    rcases below_cases hinner with rfl | ⟨child, hchild, hinner⟩
    · exact hordered
    · exact hchildren child hchild inner hinner

/-! ## Snapshots -/

/-- The snapshot is exact where there are too many nodes for it, and else exactly where the
properties of the selected subtrees are ordered. -/
theorem snapshotsExactly_iff (program : SyntaxProgram ι) (resolvedNames : List ResolvedName)
    (target : SyntaxNode ι → Option Bool) (includeTrivia : Bool) :
    SnapshotsExactly target program.node
        (targetedWithFilter program.visited resolvedNames (onNode target) includeTrivia) ↔
      u32Max + 1 < (listing (onNode target) program.node.visited).length ∨
        ∀ node, Below program.node node → target node = some true → AllOrdered node := by
  have hexact := (targetedWithFilter_exact program.visited resolvedNames (onNode target)
    includeTrivia).1
  cases hresult : targetedWithFilter program.visited resolvedNames (onNode target)
    includeTrivia with
  | error error =>
    rw [hresult] at hexact
    exact iff_of_true hexact (.inl hexact)
  | ok result =>
    rw [hresult] at hexact
    cases result with
    | none =>
      have hnone : ∀ node, Below program.node node → target node = none := by
        intro node hnode
        rw [← onNode_visited target]
        exact hexact _ (mem_subtrees_visited.mpr ⟨node, hnode, rfl⟩)
      refine iff_of_true hnone (.inr fun node hnode hselected => ?_)
      rw [hnone node hnode] at hselected
      cases hselected
    | some snapshot =>
      have hfits : ¬ u32Max + 1 < (listing (onNode target) program.node.visited).length := by
        intro hmany
        rw [targetedWithFilter_eq, whileFits,
          if_neg (show ¬ (listing (onNode target) program.visited.node).length ≤ u32Max + 1 from
            not_le.mpr hmany)] at hresult
        cases hresult
      rw [or_iff_right hfits]
      constructor
      · intro hsnapshot node hnode hselected
        have hvisited : onNode target node.visited = some true := by
          rw [onNode_visited, hselected]
        have hlisted := mem_listing (mem_subtrees_visited.mpr ⟨node, hnode, rfl⟩) hvisited
        obtain ⟨i, hi⟩ := List.getElem?_of_mem hlisted
        exact tellsOrder snapshot.nodes node i
          (hsnapshot.exact.subtrees i node.visited hi hvisited)
          (hsnapshot.sourceOrder node hnode hselected i hi)
      · intro hordered
        refine ⟨hexact, fun node hnode hselected i hi => ?_⟩
        rw [inSource_eq_visited (hordered node hnode hselected)]
        exact hexact.subtrees i node.visited hi (by rw [onNode_visited, hselected])

/-- A snapshot tells its length, and it is exact, where there is one, exactly where no property of
a selected subtree has modifiers before a `var`. -/
theorem targetedWithFilter_exact_iff (program : SyntaxProgram ι)
    (resolvedNames : List ResolvedName) (target : SyntaxNode ι → Option Bool)
    (includeTrivia : Bool) :
    (SnapshotsExactly target program.node
        (targetedWithFilter program.visited resolvedNames (onNode target) includeTrivia) ∧
      ∀ snapshot, TellsItsLength snapshot) ↔
      u32Max + 1 < (listing (onNode target) program.node.visited).length ∨
        ∀ node, Below program.node node → target node = some true → AllOrdered node := by
  have hlength := (targetedWithFilter_exact program.visited resolvedNames (onNode target)
    includeTrivia).2
  have htells (snapshot : SourceSnapshot) : TellsItsLength snapshot := fun writer writer' =>
    ⟨(hlength snapshot writer).1 writer', (hlength snapshot writer).2 writer'⟩
  rw [and_iff_left htells]
  exact snapshotsExactly_iff program resolvedNames target includeTrivia

/-! ## A class with one property -/

theorem allOrdered_iff {root : SyntaxNode ι} :
    AllOrdered root ↔ root.Ordered ∧ ∀ child ∈ root.visitChildren, AllOrdered child := by
  constructor
  · intro h
    exact ⟨h root .root, fun child hchild node hnode => h node (below_of_child hchild hnode)⟩
  · intro h node hnode
    rcases below_cases hnode with rfl | ⟨child, hchild, hnode⟩
    · exact h.1
    · exact h.2 child hchild node hnode

theorem allOrdered_other {data : NodeData ι} {children : List (SyntaxNode ι)} :
    AllOrdered (.other data children) ↔ ∀ child ∈ children, AllOrdered child :=
  allOrdered_iff.trans (and_iff_right trivial)

theorem length_listing_le (target : Node ι → Option Bool) (t : Node ι) :
    (listing target t).length ≤ t.size := by
  induction t using RoseTree.induction with
  | node data children ih =>
    have hchildren : (listingForest target children).length ≤ sizeForest children := by
      induction children with
      | nil => exact le_rfl
      | cons t ts ihts =>
        rw [List.forall_mem_cons] at ih
        rw [listingForest, sizeForest, List.length_append]
        exact Nat.add_le_add ih.1 (ihts ih.2)
    rw [listing]
    split
    · rw [length_subtrees]
    · rw [List.length_cons, size]
      omega
    · rw [size]
      omega

/-- A node of the text `<?php class A { public var $x; }`. -/
def nodeOf (kind : UInt8) (start stop : ℕ) : NodeData Unit := ⟨(), kind, start, stop, none⟩

def publicModifier : Modifier Unit := ⟨nodeOf 154 16 22, nodeOf 147 16 22⟩

/-- The class around a property with these fields. -/
def classOf (modifiers : List (Modifier Unit)) (var : Option (NodeData Unit)) :
    SyntaxProgram Unit where
  node := .other (nodeOf 0 0 32) [
    .other (nodeOf 198 0 5) [.other (nodeOf 209 0 5) [.other (nodeOf 208 0 5) []]],
    .other (nodeOf 198 6 32) [.other (nodeOf 75 6 32) [keyword (nodeOf 147 6 11),
      .other (nodeOf 143 12 13) [], .other (nodeOf 47 16 30) [.other (nodeOf 55 16 30) [
        .property (nodeOf 54 16 30) [] modifiers var [
          .other (nodeOf 64 27 29) [.other (nodeOf 56 27 29) [.other (nodeOf 219 27 29) []]]]]]]]]
  trivia := []

theorem allOrdered_property {data : NodeData ι} {attributeLists others : List (SyntaxNode ι)}
    {modifiers : List (Modifier ι)} {var : Option (NodeData ι)} :
    AllOrdered (.property data attributeLists modifiers var others) ↔
      (var = none ∨ modifiers = []) ∧ (∀ child ∈ attributeLists, AllOrdered child) ∧
        ∀ child ∈ others, AllOrdered child := by
  rw [allOrdered_iff]
  simp [Ordered, visitChildren, or_imp, forall_and, keyword, modifier, allOrdered_other]

theorem allOrdered_classOf (modifiers : List (Modifier Unit)) (var : Option (NodeData Unit)) :
    AllOrdered (classOf modifiers var).node ↔ var = none ∨ modifiers = [] := by
  simp [classOf, keyword, allOrdered_other, allOrdered_property]

/-- The whole program is selected. -/
def programs (node : SyntaxNode Unit) : Option Bool :=
  if node.data.kind = 0 then some true else none

theorem targetedWithFilter_exact_iff_public :
    SnapshotsExactly programs (classOf [publicModifier] none).node
      (targetedWithFilter (classOf [publicModifier] none).visited [] (onNode programs) false) := by
  refine ((targetedWithFilter_exact_iff (classOf [publicModifier] none) [] programs
    false).mpr (.inr ?_)).1
  intro node hnode _ inner hinner
  exact (allOrdered_classOf _ _).mpr (.inl rfl) inner (hnode.trans hinner)

/-- With `public var $x` the keyword `var` comes before the modifier in the snapshot. -/
theorem publicVar_not_exact :
    ¬ (SnapshotsExactly programs (classOf [publicModifier] (some (nodeOf 147 23 26))).node
        (targetedWithFilter (classOf [publicModifier] (some (nodeOf 147 23 26))).visited []
          (onNode programs) false) ∧
      ∀ snapshot, TellsItsLength snapshot) := by
  rw [snapshotsExactly_iff, not_and_or]
  left
  intro h
  rcases h with hmany | hordered
  · have hle := length_listing_le (onNode programs)
      (classOf [publicModifier] (some (nodeOf 147 23 26))).node.visited
    have hsize : (classOf [publicModifier] (some (nodeOf 147 23 26))).node.visited.size = 17 := by
      simp [classOf, visited_eq, visitChildren, size, sizeForest, keyword, modifier]
    rw [hsize] at hle
    exact absurd (hmany.trans_le hle) (by decide)
  · have hall := hordered (classOf [publicModifier] (some (nodeOf 147 23 26))).node .root rfl
    rcases (allOrdered_classOf _ _).mp hall with hall | hall
    · cases hall
    · cases hall

end Mago.Extension
