import Mago.Storage.File

/-!
# Lines

The table of line starts and its readers. Below the size where offsets leave their 32 bits, the
table has a start behind each line break and the line of an offset is the one it lies in.
-/
namespace Mago.Storage
open Library

/-! ## Line breaks -/

/-- An offset right behind a line feed, or behind a carriage return that none follows. -/
def FollowsTerminator (source : Bytes) (offset : ℕ) : Prop :=
  ∃ i, offset = i + 1 ∧ (source[i]? = some 10 ∨ source[i]? = some 13 ∧ source[i + 1]? ≠ some 10)

/-- Line feeds alone, carriage returns alone, or both together only. -/
inductive OneConvention (source : Bytes) : Prop
  | lineFeed (h : 13 ∉ source)
  | carriageReturn (h : 10 ∉ source)
  | both (first : source[0]? ≠ some 10)
      (h : ∀ i : ℕ, source[i + 1]? = some 10 ↔ source[i]? = some 13)

section LineBreak

variable {source : Bytes}

theorem lineBreak_eq_none (h : lineBreak source = none) : 10 ∉ source ∧ 13 ∉ source := by
  induction source with
  | nil => simp
  | cons byte rest ih =>
    rw [lineBreak] at h
    split_ifs at h with hcr hlf hlf
    obtain ⟨hten, hthirteen⟩ := ih h
    simp [hten, hthirteen, Ne.symm hcr, Ne.symm hlf]

theorem lineBreak_eq_lineFeed (h : lineBreak source = some 10) : 10 ∈ source := by
  induction source with
  | nil => cases h
  | cons byte rest ih =>
    rw [lineBreak] at h
    split_ifs at h with hcr hnext hlf
    · exact List.mem_cons_of_mem _ (List.mem_of_mem_head? hnext)
    · cases h
    · simp [hlf]
    · exact List.mem_cons_of_mem _ (ih h)

theorem lineBreak_eq_carriageReturn (h : lineBreak source = some 13) :
    ∃ i : ℕ, source[i]? = some 13 ∧ source[i + 1]? ≠ some 10 := by
  induction source with
  | nil => cases h
  | cons byte rest ih =>
    rw [lineBreak] at h
    split_ifs at h with hcr hnext hlf
    · cases h
    · refine ⟨0, by rw [hcr]; rfl, ?_⟩
      rwa [List.getElem?_cons_succ, ← List.head?_eq_getElem?]
    · cases h
    · obtain ⟨i, hi, hnot⟩ := ih h
      exact ⟨i + 1, hi, hnot⟩

theorem lineBreak_eq {b : UInt8} (h : lineBreak source = some b) : b = 10 ∨ b = 13 := by
  induction source with
  | nil => cases h
  | cons byte rest ih =>
    rw [lineBreak] at h
    split_ifs at h
    · exact Or.inl (Option.some.inj h).symm
    · exact Or.inr (Option.some.inj h).symm
    · exact Or.inl (Option.some.inj h).symm
    · exact ih h

end LineBreak

/-! ## The table -/

section Table

variable {source : Bytes}

theorem mem_findIdxs_iff {b : UInt8} {i : ℕ} :
    i ∈ source.findIdxs (· == b) ↔ source[i]? = some b := by
  rw [List.mem_findIdxs_iff_exists_getElem_pos]
  constructor
  · rintro ⟨hi, hb⟩
    rw [List.getElem?_eq_getElem hi, beq_iff_eq.mp hb]
  · intro h
    obtain ⟨hi, hb⟩ := List.getElem?_eq_some_iff.mp h
    exact ⟨hi, beq_iff_eq.mpr hb⟩

/-- Without truncation, the starts are the offsets behind the byte that breaks lines. -/
theorem lineStarts_eq (h : source.length < 2 ^ 32) :
    lineStarts source = 0 :: match lineBreak source with
      | none => []
      | some byte => (source.findIdxs (· == byte)).map (· + 1) := by
  rw [lineStarts]
  cases lineBreak source with
  | none => rfl
  | some byte =>
    congr 1
    apply List.map_congr_left
    intro i hi
    obtain ⟨hlt, -⟩ := List.getElem?_eq_some_iff.mp (mem_findIdxs_iff.mp hi)
    exact Nat.mod_eq_of_lt (by omega)

theorem pairwise_lineStarts (h : source.length < 2 ^ 32) :
    (lineStarts source).Pairwise (· < ·) := by
  rw [lineStarts_eq h]
  cases lineBreak source with
  | none => exact List.pairwise_singleton _ _
  | some byte =>
    refine List.pairwise_cons.mpr ⟨fun start hstart => ?_, ?_⟩
    · obtain ⟨i, -, rfl⟩ := List.mem_map.mp hstart
      exact Nat.succ_pos i
    · exact List.pairwise_findIdxs.map _ fun i j hij => Nat.succ_lt_succ hij

theorem le_length_of_mem {start : ℕ} (h : source.length < 2 ^ 32)
    (hstart : start ∈ lineStarts source) : start ≤ source.length := by
  rw [lineStarts_eq h] at hstart
  obtain rfl | hstart := List.mem_cons.mp hstart
  · exact Nat.zero_le _
  · cases hbreak : lineBreak source with
    | none =>
      rw [hbreak] at hstart
      cases hstart
    | some byte =>
      rw [hbreak] at hstart
      obtain ⟨i, hi, rfl⟩ := List.mem_map.mp hstart
      obtain ⟨hlt, -⟩ := List.getElem?_eq_some_iff.mp (mem_findIdxs_iff.mp hi)
      exact hlt

theorem length_lineStarts_le (h : source.length < 2 ^ 32) :
    (lineStarts source).length ≤ source.length + 1 := by
  rw [lineStarts_eq h, List.length_cons]
  cases lineBreak source with
  | none => exact Nat.succ_le_succ (Nat.zero_le _)
  | some byte =>
    simp only [List.length_map, List.length_findIdxs]
    exact Nat.succ_le_succ List.countP_le_length

/-- With one convention throughout, a line starts behind each line break and nowhere else. -/
theorem mem_tail_lineStarts_iff (h : source.length < 2 ^ 32) (hone : OneConvention source)
    (offset : ℕ) : offset ∈ (lineStarts source).tail ↔ FollowsTerminator source offset := by
  rw [lineStarts_eq h, List.tail_cons]
  cases hbreak : lineBreak source with
  | none =>
    obtain ⟨hten, hthirteen⟩ := lineBreak_eq_none hbreak
    constructor
    · intro hmem
      cases hmem
    · rintro ⟨i, -, hi | ⟨hi, -⟩⟩
      · exact absurd (List.mem_of_getElem? hi) hten
      · exact absurd (List.mem_of_getElem? hi) hthirteen
  | some b =>
    have hmem : offset ∈ (source.findIdxs (· == b)).map (· + 1) ↔
        ∃ i : ℕ, offset = i + 1 ∧ source[i]? = some b := by
      rw [List.mem_map]
      constructor
      · rintro ⟨i, hi, rfl⟩
        exact ⟨i, rfl, mem_findIdxs_iff.mp hi⟩
      · rintro ⟨i, rfl, hi⟩
        exact ⟨i, mem_findIdxs_iff.mpr hi, rfl⟩
    simp only []
    rw [hmem]
    obtain rfl | rfl := lineBreak_eq hbreak
    · have hlone : ∀ i : ℕ, source[i]? = some 13 → source[i + 1]? = some 10 := by
        intro i hi
        cases hone with
        | lineFeed hcr => exact absurd (List.mem_of_getElem? hi) hcr
        | carriageReturn hlf => exact absurd (lineBreak_eq_lineFeed hbreak) hlf
        | both _ hboth => exact (hboth i).mpr hi
      constructor
      · rintro ⟨i, rfl, hi⟩
        exact ⟨i, rfl, Or.inl hi⟩
      · rintro ⟨i, rfl, hi | ⟨hi, hnot⟩⟩
        · exact ⟨i, rfl, hi⟩
        · exact absurd (hlone i hi) hnot
    · obtain ⟨j, hj, hnext⟩ := lineBreak_eq_carriageReturn hbreak
      have hlf : 10 ∉ source := by
        cases hone with
        | lineFeed hcr => exact absurd (List.mem_of_getElem? hj) hcr
        | carriageReturn hlf => exact hlf
        | both _ hboth => exact absurd ((hboth j).mpr hj) hnext
      constructor
      · rintro ⟨i, rfl, hi⟩
        exact ⟨i, rfl, Or.inr ⟨hi, fun hten => hlf (List.mem_of_getElem? hten)⟩⟩
      · rintro ⟨i, rfl, hi | ⟨hi, -⟩⟩
        · exact absurd (List.mem_of_getElem? hi) hlf
        · exact ⟨i, rfl, hi⟩

end Table

/-! ## Looking a line up -/

/-- The line with this index starts at or before the offset, the next one behind it. -/
structure IsLineOf (lines : List ℕ) (offset i : ℕ) : Prop where
  start : ∃ start, lines[i]? = some start ∧ start ≤ offset
  next : ∀ next ∈ lines[i + 1]?, offset < next

section Lookup

variable {lines : List ℕ} {offset i j : ℕ}

theorem lt_of_pairwise (h : lines.Pairwise (· < ·)) {a b : ℕ} (hij : i < j)
    (ha : lines[i]? = some a) (hb : lines[j]? = some b) : a < b := by
  obtain ⟨hi, rfl⟩ := List.getElem?_eq_some_iff.mp ha
  obtain ⟨hj, rfl⟩ := List.getElem?_eq_some_iff.mp hb
  exact List.pairwise_iff_getElem.mp h i j hi hj hij

theorem IsLineOf.not_lt (h : lines.Pairwise (· < ·)) (hi : IsLineOf lines offset i)
    (hj : IsLineOf lines offset j) : ¬ i < j := by
  intro hij
  obtain ⟨b, hb, hble⟩ := hj.start
  have hlen : i + 1 < lines.length := by
    obtain ⟨hlt, -⟩ := List.getElem?_eq_some_iff.mp hb
    omega
  have hnext := hi.next _ (List.getElem?_eq_getElem hlen)
  have hle : lines[i + 1] ≤ b := by
    obtain heq | hlt := Nat.eq_or_lt_of_le (Nat.succ_le_of_lt hij)
    · subst heq
      rw [List.getElem?_eq_getElem hlen, Option.some.injEq] at hb
      exact hb.le
    · exact (lt_of_pairwise h hlt (List.getElem?_eq_getElem hlen) hb).le
  omega

theorem IsLineOf.unique (h : lines.Pairwise (· < ·)) (hi : IsLineOf lines offset i)
    (hj : IsLineOf lines offset j) : i = j :=
  Nat.le_antisymm (Nat.not_lt.mp (hj.not_lt h hi)) (Nat.not_lt.mp (hi.not_lt h hj))

/-- The search finds the line of an offset. -/
theorem isLineOf_partitionPoint (h : lines.Pairwise (· < ·)) (hzero : lines.head? = some 0)
    (offset : ℕ) :
    IsLineOf lines offset (partitionPoint (fun start => decide (start ≤ offset)) lines - 1) := by
  have hpart : Partitioned (fun start => decide (start ≤ offset)) lines :=
    h.imp fun hlt hle => by
      rw [decide_eq_true_eq] at hle ⊢
      omega
  rw [partitionPoint_eq_takeWhile hpart]
  generalize hpre : lines.takeWhile (fun start => decide (start ≤ offset)) = pre
  generalize hpost : lines.dropWhile (fun start => decide (start ≤ offset)) = post
  have hlines : lines = pre ++ post := by
    rw [← hpre, ← hpost, List.takeWhile_append_dropWhile]
  have hne : pre ≠ [] := by
    cases lines with
    | nil => cases hzero
    | cons first rest =>
      rw [List.head?_cons, Option.some.injEq] at hzero
      rw [← hpre, List.takeWhile_cons, if_pos (by simp [hzero])]
      exact List.cons_ne_nil _ _
  have hlen : 0 < pre.length := List.length_pos_iff.mpr hne
  constructor
  · have hlast : pre.length - 1 < pre.length := by omega
    refine ⟨pre[pre.length - 1], ?_, ?_⟩
    · rw [hlines, List.getElem?_append_left hlast, List.getElem?_eq_getElem hlast]
    · have hmem : pre[pre.length - 1] ∈ lines.takeWhile fun start => decide (start ≤ offset) := by
        rw [hpre]
        exact List.getElem_mem hlast
      simpa using List.mem_takeWhile_imp hmem
  · intro next hnext
    rw [Nat.sub_add_cancel hlen, hlines, List.getElem?_append_right le_rfl, Nat.sub_self,
      ← hpost] at hnext
    have hfalse := hpart.dropWhile_false next (List.mem_of_getElem? hnext)
    simpa using hfalse

end Lookup

namespace File

variable {π : Type*}

/-- There is none where the line starts behind the offset. -/
def columnNumber (file : File π) (offset : ℕ) : Option ℕ :=
  (file.lines[file.lineNumber offset]?).bind fun start =>
    if start ≤ offset then some (offset - start) else none

/-- What the readers of the table give for an offset. -/
structure LooksUp (file : File π) (offset : ℕ) : Prop where
  isLineOf_iff : ∀ i, IsLineOf file.lines offset i ↔ i = file.lineNumber offset
  start : ∃ start, file.getLineStartOffset (file.lineNumber offset) = some start ∧
    file.columnNumber offset = some (offset - start) ∧ start ≤ offset ∧
    ∃ stop, file.getLineEndOffset (file.lineNumber offset) = some stop ∧ start ≤ stop ∧
      ∀ next ∈ file.getLineStartOffset (file.lineNumber offset + 1), stop < next

variable {file : File π} {offset : ℕ}

theorem looksUp (h : file.contents.length < 2 ^ 32) (hoffset : offset ≤ file.size) :
    file.LooksUp offset := by
  have hsize : file.size = file.contents.length := Nat.mod_eq_of_lt h
  have hsorted : file.lines.Pairwise (· < ·) := pairwise_lineStarts h
  have hzero : file.lines.head? = some 0 := rfl
  have hline : IsLineOf file.lines offset (file.lineNumber offset) := by
    have hfound := isLineOf_partitionPoint hsorted hzero offset
    obtain ⟨start, hstart, -⟩ := hfound.start
    obtain ⟨hlt, -⟩ := List.getElem?_eq_some_iff.mp hstart
    have hcount : file.lines.length ≤ file.contents.length + 1 := length_lineStarts_le h
    rw [lineNumber, Nat.mod_eq_of_lt (by omega)]
    exact hfound
  obtain ⟨start, hstart, hle⟩ := hline.start
  refine ⟨fun i => ⟨fun hi => hi.unique hsorted hline, ?_⟩, start, hstart, ?_, hle, ?_⟩
  · rintro rfl
    exact hline
  · rw [columnNumber, hstart, Option.bind_some, if_pos hle]
  · cases hnext : file.lines[file.lineNumber offset + 1]? with
    | some next =>
      have hlt := lt_of_pairwise hsorted (Nat.lt_succ_self _) hstart hnext
      refine ⟨next - 1, by rw [getLineEndOffset, hnext], by omega, fun next' hnext' => ?_⟩
      rw [getLineStartOffset, hnext] at hnext'
      cases hnext'
      omega
    | none =>
      have hlast : file.lineNumber offset = file.lines.length - 1 := by
        obtain ⟨hlt, -⟩ := List.getElem?_eq_some_iff.mp hstart
        have hge := List.getElem?_eq_none_iff.mp hnext
        omega
      have hstop := le_length_of_mem h (List.mem_of_getElem? hstart)
      refine ⟨file.size, by rw [getLineEndOffset, hnext]; exact if_pos hlast, by omega, ?_⟩
      intro next hmem
      rw [getLineStartOffset, hnext] at hmem
      cases hmem

/-- The table and its readers, for the files whose offsets fit in 32 bits. -/
theorem lines_correct (file : File π) (h : file.contents.length < 2 ^ 32) :
    file.lines.Pairwise (· < ·) ∧ file.lines.head? = some 0 ∧
      (OneConvention file.contents →
        ∀ offset, offset ∈ file.lines.tail ↔ FollowsTerminator file.contents offset) ∧
      ∀ offset ≤ file.size, file.LooksUp offset :=
  ⟨pairwise_lineStarts h, rfl, fun hone => mem_tail_lineStarts_iff h hone,
    fun _ hoffset => looksUp h hoffset⟩

theorem lines_correct_two :
    let file : File Unit := ⟨[], .host, none, [97, 13, 10, 98]⟩
    file.lines.Pairwise (· < ·) ∧ file.lines.head? = some 0 ∧
      (OneConvention file.contents →
        ∀ offset, offset ∈ file.lines.tail ↔ FollowsTerminator file.contents offset) ∧
      ∀ offset ≤ file.size, file.LooksUp offset :=
  lines_correct ⟨[], .host, none, [97, 13, 10, 98]⟩ (by decide)

end File

/-! ## Truncated offsets -/

theorem lineBreak_replicate (n : ℕ) : lineBreak (List.replicate (n + 1) 10) = some 10 := by
  rw [List.replicate_succ, lineBreak, if_neg (by decide), if_pos rfl]

/-- A start beyond 32 bits is truncated to the start of the file. -/
theorem zero_mem_tail_lineStarts (n : ℕ) (h : 2 ^ 32 ≤ n + 1) :
    0 ∈ (lineStarts (List.replicate (n + 1) 10)).tail := by
  rw [lineStarts, lineBreak_replicate, List.tail_cons]
  refine List.mem_map.mpr ⟨2 ^ 32 - 1, mem_findIdxs_iff.mpr ?_, ?_⟩
  · rw [List.getElem?_replicate, if_pos (by omega)]
  · norm_num

/-- The table of `2 ^ 32` empty lines does not increase. -/
theorem lineStarts_wraps :
    OneConvention (List.replicate 4294967296 10) ∧
      ¬ (lineStarts (List.replicate 4294967296 10)).Pairwise (· < ·) := by
  constructor
  · refine OneConvention.lineFeed fun h => ?_
    exact absurd (List.eq_of_mem_replicate h) (by decide)
  · intro h
    have hzero := zero_mem_tail_lineStarts 4294967295 (by norm_num)
    exact absurd ((List.pairwise_cons.mp h).1 0 hzero) (lt_irrefl 0)

end Mago.Storage
