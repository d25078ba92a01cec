import Mago.Extension.SourceExact
import Mathlib

/-!
# Snapshots as bytes

The tables of a snapshot are written one after another, each with its length before it. The size
is told beforehand from the lengths of the tables and the width of a record in each, by additions
that saturate.
-/
namespace Mago.Extension

open PayloadWriter

/-- The link that is not there. -/
def noNode : ℕ := u32Max

def nodeRecordSize : ℕ := 21

def nameRecordSize : ℕ := 13

def triviaRecordSize : ℕ := 9

def literalStringRecordSize : ℕ := 12

/-- An offset moved on by a length, where it stays in a machine word. -/
def checkedAdd (offset length : ℕ) : Except PayloadError ℕ :=
  if offset + length ≤ usizeMax then .ok (offset + length) else .error (.lengthOverflow usizeMax)

def SnapshotNode.writeTo (node : SnapshotNode) (writer : Bytes) : Bytes :=
  writer |> writeU8 node.kind |> writeU32 node.start |> writeU32 node.stop
    |> writeU32 (node.parent.getD noNode) |> writeU32 (node.firstChild.getD noNode)
    |> writeU32 (node.nextSibling.getD noNode)

/-- The loop over the names, with the offset of each in the names written together. -/
def writeNames (nameOffset : ℕ) (writer : Bytes) :
    List ResolvedName → Except PayloadError (Bytes × ℕ)
  | [] => .ok (writer, nameOffset)
  | name :: names => do
    let writer := writeU32 name.stop writer
    let writer ← writeLength nameOffset writer
    let writer ← writeLength name.name.length writer
    let writer := writeBool name.imported writer
    let nameOffset ← checkedAdd nameOffset name.name.length
    writeNames nameOffset writer names

/-- The loop over the literal strings, with their offsets. -/
def writeLiterals (literalOffset : ℕ) (writer : Bytes) :
    List (ℕ × Bytes) → Except PayloadError (Bytes × ℕ)
  | [] => .ok (writer, literalOffset)
  | (node, value) :: literals => do
    let writer := writeU32 node writer
    let writer ← writeLength literalOffset writer
    let writer ← writeLength value.length writer
    let literalOffset ← checkedAdd literalOffset value.length
    writeLiterals literalOffset writer literals

def SourceSnapshot.writeTo (snapshot : SourceSnapshot) (writer : Bytes) :
    Except PayloadError Bytes := do
  let writer ← writeLength snapshot.targets.length writer
  let writer := snapshot.targets.foldl (fun writer target => writeU32 target writer) writer
  let writer ← writeLength snapshot.nodes.length writer
  let writer := snapshot.nodes.foldl (fun writer node => node.writeTo writer) writer
  let writer ← writeLength snapshot.names.length writer
  let writer := snapshot.names.foldl (fun writer name => writeU32 name.start writer) writer
  let (writer, nameOffset) ← writeNames 0 writer snapshot.names
  let writer ← writeLength nameOffset writer
  let writer := snapshot.names.foldl (fun writer name => writeRaw name.name writer) writer
  let writer ← writeLength snapshot.trivia.length writer
  .ok (snapshot.trivia.foldl
    (fun writer trivia =>
      writer |> writeU8 trivia.1 |> writeU32 trivia.2.1 |> writeU32 trivia.2.2) writer)

def SourceSnapshot.writeToWithLiterals (snapshot : SourceSnapshot) (writer : Bytes) :
    Except PayloadError Bytes := do
  let writer ← snapshot.writeTo writer
  let writer ← writeLength snapshot.literalStrings.length writer
  let (writer, literalOffset) ← writeLiterals 0 writer snapshot.literalStrings
  let writer ← writeLength literalOffset writer
  .ok (snapshot.literalStrings.foldl (fun writer literal => writeRaw literal.2 writer) writer)

def saturatingAddLength (a b : ℕ) : ℕ := min (a + b) usizeMax

def saturatingMulLength (a b : ℕ) : ℕ := min (a * b) usizeMax

/-- A sum of lengths in a machine word. -/
def sumLengths (lengths : List ℕ) : ℕ := lengths.sum % (usizeMax + 1)

def SourceSnapshot.encodedLen (snapshot : SourceSnapshot) : ℕ :=
  let add := saturatingAddLength
  let mul := saturatingMulLength
  let size := add 4 (mul snapshot.targets.length 4)
  let size := add (add size 4) (mul snapshot.nodes.length nodeRecordSize)
  let size := add (add size 4) (mul snapshot.names.length (4 + nameRecordSize))
  let size := add (add size 4) (sumLengths (snapshot.names.map fun name => name.name.length))
  add (add size 4) (mul snapshot.trivia.length triviaRecordSize)

def SourceSnapshot.encodedLenWithLiterals (snapshot : SourceSnapshot) : ℕ :=
  let add := saturatingAddLength
  let mul := saturatingMulLength
  let size := add (add snapshot.encodedLen 4)
    (mul snapshot.literalStrings.length literalStringRecordSize)
  add (add size 4) (sumLengths (snapshot.literalStrings.map fun literal => literal.2.length))

/-! ## One table after another -/

/-- A write that succeeds is a write of a length that fits, followed by the rest. -/
theorem writeLength_bind {length : ℕ} {writer : Bytes} {β : Type}
    {next : Bytes → Except PayloadError β} {result : β}
    (h : (writeLength length writer >>= next) = .ok result) :
    length ≤ u32Max ∧ next (writer ++ toBeBytes length) = .ok result := by
  cases hwrite : writeLength length writer with
  | error e => rw [hwrite] at h; cases h
  | ok writer' =>
    obtain ⟨hle, rfl⟩ := le_of_writeLength hwrite
    rw [hwrite] at h
    exact ⟨hle, h⟩

theorem length_foldl {α : Type*} {f : Bytes → α → Bytes} {width : α → ℕ}
    (h : ∀ writer x, (f writer x).length = writer.length + width x) (xs : List α)
    (writer : Bytes) :
    (xs.foldl f writer).length = writer.length + (xs.map width).sum := by
  induction xs generalizing writer with
  | nil => simp
  | cons x xs ih =>
    rw [List.foldl_cons, ih, h, List.map_cons, List.sum_cons, Nat.add_assoc]

theorem length_foldl_const {α : Type*} {f : Bytes → α → Bytes} {width : ℕ}
    (h : ∀ writer x, (f writer x).length = writer.length + width) (xs : List α)
    (writer : Bytes) : (xs.foldl f writer).length = writer.length + xs.length * width := by
  rw [length_foldl h, List.map_const', List.sum_replicate, smul_eq_mul]

theorem checkedAdd_eq {offset length total : ℕ} (h : checkedAdd offset length = .ok total) :
    total = offset + length := by
  rw [checkedAdd] at h
  split at h
  · exact (Except.ok.inj h).symm
  · cases h

theorem length_writeNames (names : List ResolvedName) {offset total : ℕ} {writer writer' : Bytes}
    (h : writeNames offset writer names = .ok (writer', total)) :
    writer'.length = writer.length + names.length * nameRecordSize ∧
      total = offset + (names.map fun name => name.name.length).sum := by
  induction names generalizing offset writer with
  | nil =>
    simp only [writeNames, Except.ok.injEq, Prod.mk.injEq] at h
    simp [← h.1, ← h.2]
  | cons name names ih =>
    rw [writeNames] at h
    obtain ⟨-, h⟩ := writeLength_bind h
    obtain ⟨-, h⟩ := writeLength_bind h
    cases hadd : checkedAdd offset name.name.length with
    | error e => simp only [hadd] at h; cases h
    | ok next =>
      simp only [hadd] at h
      obtain ⟨hlength, htotal⟩ := ih h
      rw [checkedAdd_eq hadd] at htotal
      rw [hlength, htotal, List.map_cons, List.sum_cons, List.length_cons]
      simp only [writeBool, writeU8, writeU32, List.length_append, List.length_singleton,
        length_toBeBytes, nameRecordSize]
      omega

theorem length_writeLiterals (literals : List (ℕ × Bytes)) {offset total : ℕ}
    {writer writer' : Bytes} (h : writeLiterals offset writer literals = .ok (writer', total)) :
    writer'.length = writer.length + literals.length * literalStringRecordSize ∧
      total = offset + (literals.map fun literal => literal.2.length).sum := by
  induction literals generalizing offset writer with
  | nil =>
    simp only [writeLiterals, Except.ok.injEq, Prod.mk.injEq] at h
    simp [← h.1, ← h.2]
  | cons literal literals ih =>
    obtain ⟨node, value⟩ := literal
    rw [writeLiterals] at h
    obtain ⟨-, h⟩ := writeLength_bind h
    obtain ⟨-, h⟩ := writeLength_bind h
    cases hadd : checkedAdd offset value.length with
    | error e => simp only [hadd] at h; cases h
    | ok next =>
      simp only [hadd] at h
      obtain ⟨hlength, htotal⟩ := ih h
      rw [checkedAdd_eq hadd] at htotal
      rw [hlength, htotal, List.map_cons, List.sum_cons, List.length_cons]
      simp only [writeU32, List.length_append, length_toBeBytes, literalStringRecordSize]
      omega

/-- All lengths fit in 32 bits where a snapshot is written. -/
structure SourceSnapshot.Fits (snapshot : SourceSnapshot) : Prop where
  targets : snapshot.targets.length ≤ u32Max
  nodes : snapshot.nodes.length ≤ u32Max
  names : snapshot.names.length ≤ u32Max
  nameBytes : (snapshot.names.map fun name => name.name.length).sum ≤ u32Max
  trivia : snapshot.trivia.length ≤ u32Max

/-- The bytes of the tables as numbers that do not saturate. -/
def SourceSnapshot.tablesLen (snapshot : SourceSnapshot) : ℕ :=
  20 + snapshot.targets.length * 4 + snapshot.nodes.length * 21 + snapshot.names.length * 17 +
    (snapshot.names.map fun name => name.name.length).sum + snapshot.trivia.length * 9

theorem u32Max_wide : 30 ≤ u32Max ∧ 100 * u32Max ≤ usizeMax := by
  decide

theorem saturatingAddLength_eq {a b : ℕ} (h : a + b ≤ usizeMax) :
    saturatingAddLength a b = a + b :=
  min_eq_left h

theorem saturatingMulLength_eq {a b : ℕ} (h : a * b ≤ usizeMax) :
    saturatingMulLength a b = a * b :=
  min_eq_left h

theorem sumLengths_eq {lengths : List ℕ} (h : lengths.sum ≤ usizeMax) :
    sumLengths lengths = lengths.sum :=
  Nat.mod_eq_of_lt (Nat.lt_succ_of_le h)

theorem SourceSnapshot.encodedLen_eq {snapshot : SourceSnapshot} (h : snapshot.Fits) :
    snapshot.encodedLen = snapshot.tablesLen := by
  obtain ⟨htargets, hnodes, hnames, hbytes, htrivia⟩ := h
  have hwide := u32Max_wide
  rw [SourceSnapshot.encodedLen, SourceSnapshot.tablesLen]
  simp (disch := omega) only [nodeRecordSize, nameRecordSize, triviaRecordSize,
    saturatingAddLength_eq, saturatingMulLength_eq, sumLengths_eq]
  omega

theorem SourceSnapshot.length_writeTo {snapshot : SourceSnapshot} {writer writer' : Bytes}
    (h : snapshot.writeTo writer = .ok writer') :
    snapshot.Fits ∧ writer'.length = writer.length + snapshot.tablesLen := by
  rw [SourceSnapshot.writeTo] at h
  obtain ⟨htargets, h⟩ := writeLength_bind h
  obtain ⟨hnodes, h⟩ := writeLength_bind h
  obtain ⟨hnames, h⟩ := writeLength_bind h
  generalize hstarts : snapshot.names.foldl (fun writer name => writeU32 name.start writer) _
    = starts at h
  cases hloop : writeNames 0 starts snapshot.names with
  | error e => simp only [hloop] at h; cases h
  | ok result =>
    obtain ⟨written, total⟩ := result
    simp only [hloop] at h
    obtain ⟨hlength, htotal⟩ := length_writeNames snapshot.names hloop
    obtain ⟨hbytes, h⟩ := writeLength_bind h
    obtain ⟨htrivia, h⟩ := writeLength_bind h
    rw [htotal, Nat.zero_add] at hbytes
    refine ⟨⟨htargets, hnodes, hnames, hbytes, htrivia⟩, ?_⟩
    have hpairs : ∀ (writer : Bytes) (trivia : UInt8 × ℕ × ℕ),
        (writer |> writeU8 trivia.1 |> writeU32 trivia.2.1 |> writeU32 trivia.2.2).length =
          writer.length + 9 := fun writer trivia => by
      simp [writeU8, writeU32]
    have hwords : ∀ (writer : Bytes) (value : ℕ),
        (writeU32 value writer).length = writer.length + 4 := fun writer value => by
      simp [writeU32]
    have hstart : ∀ (writer : Bytes) (name : ResolvedName),
        (writeU32 name.start writer).length = writer.length + 4 :=
      fun writer name => hwords writer name.start
    have hrecords : ∀ (writer : Bytes) (node : SnapshotNode),
        (node.writeTo writer).length = writer.length + 21 := fun writer node => by
      simp [SnapshotNode.writeTo, writeU8, writeU32]
    have hraw : ∀ (writer : Bytes) (name : ResolvedName),
        (writeRaw name.name writer).length = writer.length + name.name.length :=
      fun writer name => List.length_append
    rw [← Except.ok.inj h, SourceSnapshot.tablesLen, length_foldl_const hpairs,
      List.length_append, length_foldl hraw, List.length_append, hlength, ← hstarts,
      length_foldl_const hstart, List.length_append,
      length_foldl_const hrecords, List.length_append, length_foldl_const hwords,
      List.length_append]
    simp only [length_toBeBytes, nameRecordSize]
    omega

theorem writeNames_of_le (names : List ResolvedName) {offset : ℕ} (writer : Bytes)
    (h : offset + (names.map fun name => name.name.length).sum ≤ u32Max) :
    ∃ writer', writeNames offset writer names =
      .ok (writer', offset + (names.map fun name => name.name.length).sum) := by
  induction names generalizing offset writer with
  | nil => exact ⟨writer, rfl⟩
  | cons name names ih =>
    have hwide := u32Max_wide
    rw [List.map_cons, List.sum_cons, ← Nat.add_assoc] at h ⊢
    have hoffset : offset ≤ u32Max := by omega
    have hlength : name.name.length ≤ u32Max := by omega
    have hadd : checkedAdd offset name.name.length = .ok (offset + name.name.length) := by
      rw [checkedAdd, if_pos (by omega)]
    obtain ⟨writer', heq⟩ := ih (writeBool name.imported
      (writeU32 name.stop writer ++ toBeBytes offset ++ toBeBytes name.name.length)) h
    refine ⟨writer', ?_⟩
    rw [writeNames, writeLength_of_le hoffset]
    simp only [bind, Except.bind, writeLength_of_le hlength, hadd]
    exact heq

/-- Lengths that fit are enough for a snapshot to be written. -/
theorem SourceSnapshot.writeTo_of_fits {snapshot : SourceSnapshot} (h : snapshot.Fits)
    (writer : Bytes) : ∃ writer', snapshot.writeTo writer = .ok writer' := by
  obtain ⟨htargets, hnodes, hnames, hbytes, htrivia⟩ := h
  rw [SourceSnapshot.writeTo, writeLength_of_le htargets]
  simp only [bind, Except.bind, writeLength_of_le hnodes, writeLength_of_le hnames]
  obtain ⟨written, hloop⟩ := writeNames_of_le snapshot.names
    (snapshot.names.foldl (fun writer name => writeU32 name.start writer)
      (snapshot.nodes.foldl (fun writer node => node.writeTo writer)
        (snapshot.targets.foldl (fun writer target => writeU32 target writer)
          (writer ++ toBeBytes snapshot.targets.length) ++ toBeBytes snapshot.nodes.length) ++
        toBeBytes snapshot.names.length)) (by rw [Nat.zero_add]; exact hbytes)
  rw [Nat.zero_add] at hloop
  simp only [hloop, writeLength_of_le hbytes, writeLength_of_le htrivia]
  exact ⟨_, rfl⟩

/-- The size told beforehand is the number of bytes that are appended. -/
theorem SourceSnapshot.writeTo_length {snapshot : SourceSnapshot} {writer writer' : Bytes}
    (h : snapshot.writeTo writer = .ok writer') :
    writer'.length = writer.length + snapshot.encodedLen := by
  obtain ⟨hfits, hlength⟩ := SourceSnapshot.length_writeTo h
  rw [hlength, SourceSnapshot.encodedLen_eq hfits]

theorem SourceSnapshot.writeToWithLiterals_length {snapshot : SourceSnapshot}
    {writer writer' : Bytes} (h : snapshot.writeToWithLiterals writer = .ok writer') :
    writer'.length = writer.length + snapshot.encodedLenWithLiterals := by
  rw [SourceSnapshot.writeToWithLiterals] at h
  cases htables : snapshot.writeTo writer with
  | error e => rw [htables] at h; cases h
  | ok tables =>
    rw [htables] at h
    obtain ⟨hfits, hlength⟩ := SourceSnapshot.length_writeTo htables
    obtain ⟨hcount, h⟩ := writeLength_bind h
    cases hloop : writeLiterals 0 (tables ++ toBeBytes snapshot.literalStrings.length)
        snapshot.literalStrings with
    | error e => simp only [hloop] at h; cases h
    | ok result =>
      obtain ⟨written, total⟩ := result
      simp only [hloop] at h
      obtain ⟨hwritten, htotal⟩ := length_writeLiterals snapshot.literalStrings hloop
      obtain ⟨hbytes, h⟩ := writeLength_bind h
      rw [htotal, Nat.zero_add] at hbytes
      have hraw : ∀ (writer : Bytes) (literal : ℕ × Bytes),
          (writeRaw literal.2 writer).length = writer.length + literal.2.length :=
        fun writer literal => List.length_append
      have hwide := u32Max_wide
      obtain ⟨htargets, hnodes, hnames, hnameBytes, htrivia⟩ := id hfits
      rw [← Except.ok.inj h, length_foldl hraw, List.length_append, hwritten, List.length_append,
        hlength, SourceSnapshot.encodedLenWithLiterals, SourceSnapshot.encodedLen_eq hfits,
        SourceSnapshot.tablesLen]
      simp (disch := omega) only [literalStringRecordSize, saturatingAddLength_eq,
        saturatingMulLength_eq, sumLengths_eq, length_toBeBytes]
      omega

/-! ## Snapshots of selected nodes -/

variable {ι : Type}

theorem pairwise_findIdxs {α : Type*} (p : α → Bool) (xs : List α) (start : ℕ) :
    (xs.findIdxs p start).Pairwise (· < ·) := by
  induction xs generalizing start with
  | nil => exact List.Pairwise.nil
  | cons x xs ih =>
    rw [List.findIdxs_cons]
    split
    · refine List.Pairwise.cons (fun i hi => ?_) (ih (start + 1))
      exact List.ge_of_mem_findIdxs i hi
    · exact ih (start + 1)

/-- What is listed and fits is a snapshot that encodes it, and a snapshot is as long as it
says. -/
theorem targetedWithFilter_exact (program : Program ι) (resolvedNames : List ResolvedName)
    (target : Node ι → Option Bool) (includeTrivia : Bool) :
    (match targetedWithFilter program resolvedNames target includeTrivia with
      | .error _ => u32Max + 1 < (listing target program.node).length
      | .ok none => ∀ node ∈ program.node.subtrees, target node = none
      | .ok (some snapshot) => snapshot.Exact target program.node) ∧
      ∀ (snapshot : SourceSnapshot) (writer : Bytes),
        (∀ writer', snapshot.writeTo writer = .ok writer' →
          writer'.length = writer.length + snapshot.encodedLen) ∧
        (∀ writer', snapshot.writeToWithLiterals writer = .ok writer' →
          writer'.length = writer.length + snapshot.encodedLenWithLiterals) := by
  refine ⟨?_, fun snapshot writer =>
    ⟨fun _ => SourceSnapshot.writeTo_length, fun _ => SourceSnapshot.writeToWithLiterals_length⟩⟩
  rw [targetedWithFilter_eq, whileFits]
  by_cases hfits : (listing target program.node).length ≤ u32Max + 1
  · rw [if_pos hfits]
    by_cases hempty : ((listing target program.node).findIdxs
        fun child => (target child).isSome).isEmpty = true
    · rw [if_pos hempty]
      rw [List.isEmpty_iff, List.findIdxs_eq_nil_iff] at hempty
      exact listing_eq_nil target program.node fun node hnode => by simpa using hempty node hnode
    · rw [if_neg hempty]
      have hplaced := placed_of_records target program.node [] []
        (outerRecords target 0 program.node) (by simp)
      refine ⟨content_outerRecords target 0 program.node, hplaced, ?_, ?_, ?_⟩
      · intro i node hnode htrue
        have hencodes := encodes_of_placed target program.node hplaced hnode htrue
        rwa [List.length_nil, Nat.zero_add] at hencodes
      · intro i
        dsimp only
        rw [List.mem_findIdxs_iff_exists_getElem_pos]
        simp [List.getElem?_eq_some_iff, Option.isSome_iff_ne_none]
      · exact pairwise_findIdxs _ _ _
  · rw [if_neg hfits]
    dsimp only
    omega

end Mago.Extension
