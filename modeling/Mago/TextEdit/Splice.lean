import Mago.TextEdit.Invariant

/-!
# Stitching as splicing

`stitch` copies the original once, from the front. On accepted edits this is the text that
arises when the edits are spliced into the original one at a time from the last to the first:
an edit leaves the offsets before it as they are.
-/
namespace Mago.Editing
open Library

/-- The text with one edit carried out. -/
def splice (edit : TextEdit) (text : Bytes) : Bytes :=
  text.take edit.range.start ++ edit.newText ++ text.drop edit.range.stop

/-- The edits carried out one at a time, the last of the list first. -/
def spliceAll (original : Bytes) (edits : List TextEdit) : Bytes := edits.foldr splice original

/-! ## The loop -/

/-- What the loop still emits when the original is copied up to `lastProcessed`. -/
def stitchFrom (original : Bytes) (lastProcessed : ℕ) : List TextEdit → Bytes
  | [] => original.drop lastProcessed
  | edit :: edits =>
    (original.drop lastProcessed).take (edit.range.start - lastProcessed) ++ edit.newText ++
      stitchFrom original edit.range.stop edits

theorem stitchEdit_eq (original : Bytes) (state : Bytes × ℕ) (edit : TextEdit) :
    stitchEdit original state edit =
      (state.1 ++ (original.drop state.2).take (edit.range.start - state.2) ++ edit.newText,
        edit.range.stop) := by
  unfold stitchEdit
  dsimp only
  split_ifs with h
  · rfl
  · rw [Nat.sub_eq_zero_of_le (by omega), List.take_zero, List.append_nil]

theorem foldl_stitchEdit (original : Bytes) (edits : List TextEdit) (state : Bytes × ℕ) :
    (edits.foldl (stitchEdit original) state).1 ++
        original.drop (edits.foldl (stitchEdit original) state).2 =
      state.1 ++ stitchFrom original state.2 edits := by
  induction edits generalizing state with
  | nil => rfl
  | cons edit edits ih =>
    rw [List.foldl_cons, ih, stitchEdit_eq, stitchFrom]
    simp only [List.append_assoc]

theorem stitch_eq_stitchFrom (original : Bytes) (edits : List TextEdit) :
    stitch original edits = stitchFrom original 0 edits := by
  have hfold := foldl_stitchEdit original edits ([], 0)
  unfold stitch
  dsimp only
  split_ifs with h
  · simpa using hfold
  · rw [List.drop_eq_nil_of_le (by omega)] at hfold
    simpa using hfold

/-! ## Splicing -/

/-- The invariant of the loop: with the original in front of the cursor, what is still emitted
is what splicing the remaining edits gives. -/
theorem take_append_stitchFrom {original : Bytes} {edits : List TextEdit} {lastProcessed : ℕ}
    (hstart : ∀ e ∈ edits, lastProcessed ≤ e.range.start)
    (hb : ∀ e ∈ edits, e.range.start ≤ e.range.stop ∧ e.range.stop ≤ original.length)
    (h : edits.Pairwise (Precedes startOf stopOf)) :
    original.take lastProcessed ++ stitchFrom original lastProcessed edits =
      spliceAll original edits := by
  induction edits generalizing lastProcessed with
  | nil => exact List.take_append_drop lastProcessed original
  | cons e es ih =>
    rw [List.pairwise_cons] at h
    obtain ⟨hle, hlen⟩ := hb e (by simp)
    have hlast := hstart e (by simp)
    have hrest : original.take e.range.stop ++ stitchFrom original e.range.stop es =
        spliceAll original es :=
      ih (fun e' he' => precedes_iff.mp (h.1 e' he')) (fun e' he' => hb e' (by simp [he'])) h.2
    have hcopied : original.take lastProcessed ++
        (original.drop lastProcessed).take (e.range.start - lastProcessed) =
          original.take e.range.start := by
      rw [← List.take_add, Nat.add_sub_cancel' hlast]
    have hwidth : (original.take e.range.stop).length = e.range.stop := by
      rw [List.length_take]
      omega
    have hbefore : (spliceAll original es).take e.range.start = original.take e.range.start := by
      rw [← hrest, List.take_append_of_le_length (by omega), List.take_take, min_eq_left hle]
    have hafter : (spliceAll original es).drop e.range.stop =
        stitchFrom original e.range.stop es := by
      rw [← hrest, List.drop_append_of_le_length (by omega), List.drop_eq_nil_of_le (by omega),
        List.nil_append]
    calc original.take lastProcessed ++ stitchFrom original lastProcessed (e :: es)
        = original.take e.range.start ++ e.newText ++ stitchFrom original e.range.stop es := by
          rw [stitchFrom, ← hcopied]
          simp only [List.append_assoc]
      _ = splice e (spliceAll original es) := by rw [splice, hbefore, hafter]

theorem stitch_eq_spliceAll {original : Bytes} {edits : List TextEdit}
    (h : Accepted original.length edits) : stitch original edits = spliceAll original edits := by
  have hfrom := take_append_stitchFrom (fun _ _ => Nat.zero_le _) h.inBounds h.precedes
  rw [stitch_eq_stitchFrom, ← hfrom]
  rfl

/-! ## Where the output comes from -/

/-- A part of the output: a byte of the original, by its offset, or the text of an edit. -/
inductive Source
  | kept (offset : ℕ)
  | replacement (edit : TextEdit)

namespace Source

def bytes (original : Bytes) : Source → Bytes
  | kept offset => original[offset]?.toList
  | replacement edit => edit.newText

def offset? : Source → Option ℕ
  | kept offset => some offset
  | replacement _ => none

def edit? : Source → Option TextEdit
  | kept _ => none
  | replacement edit => some edit

end Source

/-- Outside all edited ranges. -/
def Untouched (edits : List TextEdit) (offset : ℕ) : Prop :=
  ∀ e ∈ edits, offset < e.range.start ∨ e.range.stop ≤ offset

instance (edits : List TextEdit) (offset : ℕ) : Decidable (Untouched edits offset) :=
  inferInstanceAs (Decidable (∀ e ∈ edits, _))

/-- The output is made of these parts: the offsets outside all edited ranges, each once and in
order, and the edits, each once and in the order of the list. -/
structure MadeOf (original : Bytes) (edits : List TextEdit) (output : Bytes)
    (sources : List Source) : Prop where
  bytes : output = sources.flatMap (Source.bytes original)
  kept : sources.filterMap Source.offset? =
    (List.range original.length).filter fun offset => Untouched edits offset
  replaced : sources.filterMap Source.edit? = edits

/-- The parts of the output from the cursor on. -/
def sourcesFrom (len lastProcessed : ℕ) : List TextEdit → List Source
  | [] => (List.range' lastProcessed (len - lastProcessed)).map Source.kept
  | edit :: edits =>
    (List.range' lastProcessed (edit.range.start - lastProcessed)).map Source.kept ++
      Source.replacement edit :: sourcesFrom len edit.range.stop edits

theorem flatMap_bytes_kept (original : Bytes) (start count : ℕ) :
    ((List.range' start count).map Source.kept).flatMap (Source.bytes original) =
      (original.drop start).take count := by
  induction count generalizing start with
  | zero => simp
  | succ count ih =>
    rw [List.range'_succ, List.map_cons, List.flatMap_cons, ih, Source.bytes]
    cases h : original[start]? with
    | none =>
      rw [List.getElem?_eq_none_iff] at h
      simp [List.drop_eq_nil_of_le h, List.drop_eq_nil_of_le (h.trans (Nat.le_succ start))]
    | some byte =>
      rw [List.getElem?_eq_some_iff] at h
      obtain ⟨hlt, rfl⟩ := h
      rw [List.drop_eq_getElem_cons hlt, List.take_succ_cons]
      rfl

theorem flatMap_bytes_sourcesFrom (original : Bytes) (edits : List TextEdit) (lastProcessed : ℕ) :
    (sourcesFrom original.length lastProcessed edits).flatMap (Source.bytes original) =
      stitchFrom original lastProcessed edits := by
  induction edits generalizing lastProcessed with
  | nil =>
    rw [sourcesFrom, flatMap_bytes_kept, stitchFrom]
    exact List.take_of_length_le (by simp)
  | cons e es ih =>
    rw [sourcesFrom, List.flatMap_append, flatMap_bytes_kept, List.flatMap_cons, ih, stitchFrom,
      List.append_assoc]
    rfl

theorem edits_sourcesFrom (len lastProcessed : ℕ) (edits : List TextEdit) :
    (sourcesFrom len lastProcessed edits).filterMap Source.edit? = edits := by
  have hkept : ∀ offsets : List ℕ, (offsets.map Source.kept).filterMap Source.edit? = [] := by
    intro offsets
    rw [List.filterMap_map]
    exact List.filterMap_eq_nil_iff.mpr fun _ _ => rfl
  induction edits generalizing lastProcessed with
  | nil => exact hkept _
  | cons e es ih =>
    have htail : (Source.replacement e :: sourcesFrom len e.range.stop es).filterMap
        Source.edit? = e :: es := by
      rw [List.filterMap_cons, ih]
      rfl
    rw [sourcesFrom, List.filterMap_append, hkept, htail, List.nil_append]

theorem offsets_kept (offsets : List ℕ) :
    (offsets.map Source.kept).filterMap Source.offset? = offsets := by
  rw [List.filterMap_map]
  exact List.filterMap_some

theorem range'_split {low mid high : ℕ} (hlow : low ≤ mid) (hhigh : mid ≤ high) :
    List.range' low (high - low) = List.range' low (mid - low) ++ List.range' mid (high - mid) := by
  have happend := List.range'_append_1 (s := low) (m := mid - low) (n := high - mid)
  rw [show low + (mid - low) = mid by omega,
    show mid - low + (high - mid) = high - low by omega] at happend
  exact happend.symm

/-- From the cursor on, the offsets kept are those outside the remaining ranges. -/
theorem offsets_sourcesFrom {len lastProcessed : ℕ} {edits : List TextEdit}
    (hlast : lastProcessed ≤ len) (hstart : ∀ e ∈ edits, lastProcessed ≤ e.range.start)
    (hb : ∀ e ∈ edits, e.range.start ≤ e.range.stop ∧ e.range.stop ≤ len)
    (h : edits.Pairwise (Precedes startOf stopOf)) :
    (sourcesFrom len lastProcessed edits).filterMap Source.offset? =
      (List.range' lastProcessed (len - lastProcessed)).filter fun offset =>
        Untouched edits offset := by
  induction edits generalizing lastProcessed with
  | nil =>
    rw [sourcesFrom, offsets_kept]
    exact (List.filter_eq_self.mpr (by simp [Untouched])).symm
  | cons e es ih =>
    rw [List.pairwise_cons] at h
    obtain ⟨hle, hlen⟩ := hb e (by simp)
    have hat := hstart e (by simp)
    have hafter : ∀ e' ∈ es, e.range.stop ≤ e'.range.start :=
      fun e' he' => precedes_iff.mp (h.1 e' he')
    have hrest := ih hlen hafter (fun e' he' => hb e' (by simp [he'])) h.2
    -- before the range, inside it and after it
    have hsplit : List.range' lastProcessed (len - lastProcessed) =
        List.range' lastProcessed (e.range.start - lastProcessed) ++
          (List.range' e.range.start (e.range.stop - e.range.start) ++
            List.range' e.range.stop (len - e.range.stop)) := by
      rw [range'_split hat (hle.trans hlen), range'_split hle hlen]
    have hbefore : (List.range' lastProcessed (e.range.start - lastProcessed)).filter
        (fun offset => decide (Untouched (e :: es) offset)) =
          List.range' lastProcessed (e.range.start - lastProcessed) := by
      rw [List.filter_eq_self]
      intro offset ho
      rw [List.mem_range'_1] at ho
      rw [decide_eq_true_eq]
      intro e' he'
      rcases List.mem_cons.mp he' with rfl | he'
      · exact Or.inl (by omega)
      · have := hafter e' he'
        exact Or.inl (by omega)
    have hinside : (List.range' e.range.start (e.range.stop - e.range.start)).filter
        (fun offset => decide (Untouched (e :: es) offset)) = [] := by
      rw [List.filter_eq_nil_iff]
      intro offset ho
      rw [List.mem_range'_1] at ho
      rw [decide_eq_true_eq]
      intro hfree
      have := hfree e (by simp)
      omega
    have hbehind : (List.range' e.range.stop (len - e.range.stop)).filter
        (fun offset => decide (Untouched (e :: es) offset)) =
          (List.range' e.range.stop (len - e.range.stop)).filter fun offset =>
            decide (Untouched es offset) := by
      refine List.filter_congr fun offset ho => ?_
      rw [List.mem_range'_1] at ho
      have hfree : offset < e.range.start ∨ e.range.stop ≤ offset := Or.inr ho.1
      rw [decide_eq_decide]
      exact ⟨fun hall e' he' => hall e' (List.mem_cons_of_mem e he'),
        fun hall => List.forall_mem_cons.mpr ⟨hfree, hall⟩⟩
    rw [sourcesFrom, List.filterMap_append, offsets_kept, List.filterMap_cons_none rfl, hrest,
      hsplit, List.filter_append, List.filter_append, hbefore, hinside, hbehind, List.nil_append]

theorem madeOf_sourcesFrom {original : Bytes} {edits : List TextEdit}
    (h : Accepted original.length edits) :
    MadeOf original edits (stitch original edits) (sourcesFrom original.length 0 edits) := by
  refine ⟨?_, ?_, edits_sourcesFrom _ 0 edits⟩
  · rw [stitch_eq_stitchFrom, flatMap_bytes_sourcesFrom]
  · rw [offsets_sourcesFrom (Nat.zero_le _) (fun _ _ => Nat.zero_le _) h.inBounds h.precedes,
      List.range_eq_range', Nat.sub_zero]

/-- An editor whose edits are in bounds, sorted and free of conflict finishes with the text that
splicing them from last to first gives, and so with the untouched bytes of the original, each
once and in order, around the texts of the edits, each once and in order. -/
theorem finish_splices {t : TextEditor} (h : Accepted t.originalText.length t.edits) :
    t.finish = spliceAll t.originalText t.edits ∧
      ∃ sources, MadeOf t.originalText t.edits t.finish sources :=
  ⟨stitch_eq_spliceAll h, _, madeOf_sourcesFrom h⟩

/-- Two insertions at one offset, a replacement that touches them, and a deletion at the end. -/
theorem finish_splices_stacked :
    (TextEditor.mk hello 5 [.insert 1 [120], .insert 1 [121], .replace ⟨1, 3⟩ [122],
      .replace ⟨4, 5⟩ []] .Unsafe).finish = [104, 120, 121, 122, 108] := by
  rw [(finish_splices (by decide)).1]
  decide

end Mago.Editing
