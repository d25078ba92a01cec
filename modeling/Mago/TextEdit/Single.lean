import Mago.TextEdit.Commute

/-!
# Single edits, alone and as a batch

`apply` compares an edit with the one accepted edit that its binary search finds, a batch is
swept along all of them. The search misses no overlap; the sweep misses those masked by an
accepted insertion, and otherwise both do the same.
-/
namespace Mago.Editing
open Library

/-- The tests that come before the accepted edits are looked at. -/
def Admissible (t : TextEditor) (edit : TextEdit) : Prop :=
  t.checkSafety edit.safety = none ∧
    edit.range.start ≤ edit.range.stop ∧ edit.range.stop ≤ t.originalLen

instance (t : TextEditor) (edit : TextEdit) : Decidable (Admissible t edit) :=
  inferInstanceAs (Decidable (_ ∧ _))

/-- The edit that the search finds is the only one that has to be compared. -/
theorem searchIdx_overlaps_iff {t : TextEditor} (h : Accepted t.originalLen t.edits)
    {edit : TextEdit} (hb : edit.range.start ≤ edit.range.stop ∧ edit.range.stop ≤ t.originalLen) :
    (t.edits[searchIdx t edit]?.any fun existing => existing.range.overlaps edit.range) = true ↔
      ∃ o ∈ t.edits, o.range.overlaps edit.range = true := by
  rw [Option.any_eq_true]
  constructor
  · intro hfound
    obtain ⟨o, ho, hon⟩ := hfound
    exact ⟨o, List.mem_of_getElem? ho, hon⟩
  · intro hoverlap
    by_contra hnone
    obtain ⟨o, ho, hon⟩ := hoverlap
    have hfree : ∀ e, t.edits[searchIdx t edit]? = some e →
        e.range.overlaps edit.range = false := by
      intro e he
      by_contra hne
      exact hnone ⟨e, he, by simpa using hne⟩
    unfold searchIdx at hfree
    rw [getElem?_partitionPoint (h.partitioned _)] at hfree
    -- with the edit inserted the list is still free of conflict
    have hall := (h.insert hb hfree).conflictFree
    rw [← List.takeWhile_append_dropWhile (p := fun e => decide (e.range.stop ≤ edit.range.start))
      (l := t.edits)] at ho
    rw [List.pairwise_append] at hall
    rcases List.mem_append.mp ho with ho | ho
    · have hno := hall.2.2 o ho edit (by simp)
      rw [hon] at hno
      cases hno
    · have hno := overlaps_symm ((List.pairwise_cons.mp hall.2.1).1 o ho)
      rw [hon] at hno
      cases hno

theorem insertIdx_eq_sortEdits {t : TextEditor} (h : Accepted t.originalLen t.edits)
    {edit : TextEdit} (hb : edit.range.start ≤ edit.range.stop ∧ edit.range.stop ≤ t.originalLen)
    (hfree : ¬ ∃ o ∈ t.edits, o.range.overlaps edit.range = true) :
    t.edits.insertIdx (searchIdx t edit) edit = sortEdits (t.edits ++ [edit]) := by
  have hmerge := merge_eq_insertIdx h hb.1 fun e he => by
    by_contra hne
    exact hfree ⟨e, List.mem_of_getElem? he, by simpa using hne⟩
  have hsort : (t.edits.merge (sortEdits [edit]) fun o n => o.range.le n.range) =
      sortEdits (t.edits ++ sortEdits [edit]) := merge_eq_sortEdits h.sorted
  rw [← hmerge]
  exact hsort

/-- What `apply` does with accepted edits that keep the invariant. -/
theorem apply_eq {t : TextEditor} (h : Accepted t.originalLen t.edits) {edit : TextEdit}
    (hadm : Admissible t edit) (checker : Option (Bytes → Bool)) :
    t.apply edit checker =
      if ∃ o ∈ t.edits, o.range.overlaps edit.range = true then (.overlap, t)
      else if checkerRejects checker (stitchOne t.originalText t.edits edit) then (.rejected, t)
      else (.applied, { t with edits := sortEdits (t.edits ++ [edit]) }) := by
  obtain ⟨hsafe, hb⟩ := hadm
  unfold TextEditor.apply
  rw [hsafe]
  dsimp only
  rw [if_neg (by omega)]
  by_cases hfound : ∃ o ∈ t.edits, o.range.overlaps edit.range = true
  · rw [if_pos hfound]
    exact if_pos ((searchIdx_overlaps_iff h hb).mpr hfound)
  · rw [if_neg hfound, ← insertIdx_eq_sortEdits h hb hfound]
    exact if_neg fun hyes => hfound ((searchIdx_overlaps_iff h hb).mp hyes)

/-- What `applyBatch` does with one edit: the overlaps that a zero-width edit masks are missed. -/
theorem applyBatch_single_eq {t : TextEditor} (h : Accepted t.originalLen t.edits)
    {edit : TextEdit} (hadm : Admissible t edit) (checker : Option (Bytes → Bool)) :
    t.applyBatch [edit] checker =
      if (∃ o ∈ t.edits, o.range.overlaps edit.range = true) ∧ ¬ InsertedAt t.edits edit then
        (.overlap, t)
      else if checkerRejects checker (stitchOne t.originalText t.edits edit) then (.rejected, t)
      else (.applied, { t with edits := sortEdits (t.edits ++ [edit]) }) := by
  obtain ⟨hsafe, hb⟩ := hadm
  have hcheck : checkBatch t.originalLen none (sortEdits [edit]) = none := by
    change checkBatch t.originalLen none [edit] = none
    rw [checkBatch, if_neg (by omega)]
    rfl
  have hsweep := overlapsAccepted_sortEdits_iff h hcheck
  have hseen : overlapsAccepted t.edits (sortEdits [edit]) = true ↔
      (∃ o ∈ t.edits, o.range.overlaps edit.range = true) ∧ ¬ InsertedAt t.edits edit := by
    rw [hsweep]
    simp
  unfold TextEditor.applyBatch
  rw [if_neg (by simp), List.findSome?_cons, hsafe]
  dsimp only
  rw [List.findSome?_nil, hcheck]
  exact if_congr hseen rfl rfl

/-- Both refuse an edit that is not admissible, for the same reason. -/
theorem apply_eq_of_not_admissible {t : TextEditor} {edit : TextEdit}
    (hadm : ¬ Admissible t edit) (checker : Option (Bytes → Bool)) :
    t.apply edit checker = t.applyBatch [edit] checker := by
  unfold TextEditor.apply TextEditor.applyBatch
  rw [if_neg (show ¬ List.isEmpty [edit] = true by simp), List.findSome?_cons]
  cases hsafe : t.checkSafety edit.safety with
  | some rejection => rfl
  | none =>
    have hb : edit.range.stop > t.originalLen ∨ edit.range.start > edit.range.stop := by
      by_contra hb
      exact hadm ⟨hsafe, by omega, by omega⟩
    have hcheck : checkBatch t.originalLen none (sortEdits [edit]) = some .outOfBounds := by
      change checkBatch t.originalLen none [edit] = some .outOfBounds
      rw [checkBatch, if_pos hb]
    rw [List.findSome?_nil]
    dsimp only
    rw [hcheck, if_pos hb]

/-- From a state that keeps the invariant, `apply` and a batch of the same one edit agree on the
result and on the edits left, unless a zero-width edit masks an overlap. -/
theorem apply_eq_applyBatch_iff {t : TextEditor} (h : Accepted t.originalLen t.edits)
    (edit : TextEdit) (checker : Option (Bytes → Bool)) :
    t.apply edit checker = t.applyBatch [edit] checker ↔
      (Admissible t edit → ConflictsSeen t.edits [edit]) := by
  by_cases hadm : Admissible t edit
  · have hseen : ConflictsSeen t.edits [edit] ↔
        ((∃ o ∈ t.edits, o.range.overlaps edit.range = true) → ¬ InsertedAt t.edits edit) := by
      simp only [ConflictsSeen, List.mem_singleton, forall_eq, exists_eq_left]
      exact ⟨fun hall hyes => (hall hyes).2, fun hall hyes => ⟨hyes, hall hyes⟩⟩
    rw [apply_eq h hadm, applyBatch_single_eq h hadm, hseen]
    by_cases hoverlap : ∃ o ∈ t.edits, o.range.overlaps edit.range = true
    · by_cases hmask : InsertedAt t.edits edit
      · rw [if_pos hoverlap, if_neg fun hyes => hyes.2 hmask]
        refine iff_of_false ?_ fun hseen => hseen hadm hoverlap hmask
        split_ifs <;> simp
      · rw [if_pos hoverlap, if_pos ⟨hoverlap, hmask⟩]
        exact iff_of_true rfl fun _ _ => hmask
    · have hno : ¬ ((∃ o ∈ t.edits, o.range.overlaps edit.range = true) ∧
          ¬ InsertedAt t.edits edit) := fun hyes => hoverlap hyes.1
      rw [if_neg hoverlap, if_neg hno]
      exact iff_of_true rfl fun _ hyes => absurd hyes hoverlap
  · exact iff_of_true (apply_eq_of_not_admissible hadm checker) fun hyes => absurd hyes hadm

/-- In every state of a run whose batches have all their conflicts seen. -/
theorem single_edit_agrees {text : Bytes} {threshold : Safety} {t : TextEditor}
    (h : Run BatchConflictsSeen text threshold t) (edit : TextEdit)
    (checker : Option (Bytes → Bool)) :
    t.apply edit checker = t.applyBatch [edit] checker ↔
      (Admissible t edit → ConflictsSeen t.edits [edit]) :=
  apply_eq_applyBatch_iff h.accepted_originalLen edit checker

theorem single_edit_agrees_insertion :
    ((TextEditor.withSafety hello .Unsafe).perform insertThenReplace).2.apply
        (.insert 0 [122]) (some fun _ => true) =
      ((TextEditor.withSafety hello .Unsafe).perform insertThenReplace).2.applyBatch
        [.insert 0 [122]] (some fun _ => true) := by
  have hrun : Run BatchConflictsSeen hello .Unsafe
      ((TextEditor.withSafety hello .Unsafe).perform insertThenReplace).2 :=
    .perform .start (by decide)
  exact (single_edit_agrees hrun (.insert 0 [122]) (some fun _ => true)).mpr (by decide)

/-- After an insertion at `0` and a replacement of `0..5`, `apply` refuses `0..3` and the batch
accepts it. -/
theorem masked_single_edit_disagrees :
    ∃ t, Run (fun _ _ => True) hello .Unsafe t ∧
      (t.apply (.replace ⟨0, 3⟩ [122]) none).1 ≠ (t.applyBatch [.replace ⟨0, 3⟩ [122]] none).1 :=
  ⟨((TextEditor.withSafety hello .Unsafe).perform maskingBatch).2, .perform .start trivial,
    by decide⟩

end Mago.Editing
