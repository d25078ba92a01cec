import Mago.TextEdit.Simulation

/-!
# Batches in either order

A batch without a checker is applied exactly when it passes its own checks and overlaps no
accepted edit, provided its conflicts are seen. Both conditions are symmetric in two batches,
and the sorted result is determined by the ties, so the order of two batches shows only where
both insert at one offset.
-/
namespace Mago.Editing
open Library

def Apart (edits newEdits : List TextEdit) : Prop :=
  ∀ o ∈ edits, ∀ n ∈ newEdits, o.range.overlaps n.range = false

theorem Apart.symm {edits newEdits : List TextEdit} (h : Apart edits newEdits) :
    Apart newEdits edits :=
  fun n hn o ho => overlaps_symm (h o ho n hn)

theorem apart_sortEdits_append_iff {edits newEdits later : List TextEdit} :
    Apart (sortEdits (edits ++ sortEdits newEdits)) later ↔
      Apart edits later ∧ Apart newEdits later := by
  simp only [Apart, mem_sortEdits, List.mem_append, or_imp, forall_and]

theorem sortEdits_nil : sortEdits [] = [] := rfl

/-- A sorted list is kept by the sort. -/
theorem sortEdits_eq_self {edits : List TextEdit}
    (h : edits.Pairwise fun a b => a.range.le b.range = true) : sortEdits edits = edits :=
  List.Pairwise.insertionSort_eq h

theorem overlapsAccepted_eq_false_iff {t : TextEditor} (h : Accepted t.originalLen t.edits)
    {newEdits : List TextEdit} (hseen : ConflictsSeen t.edits newEdits)
    (hcheck : checkBatch t.originalLen none (sortEdits newEdits) = none) :
    overlapsAccepted t.edits (sortEdits newEdits) = false ↔ Apart t.edits newEdits := by
  rw [← Bool.not_eq_true, overlapsAccepted_sortEdits_iff h hcheck]
  constructor
  · intro hno o ho n hn
    by_contra hon
    exact hno (hseen n hn ⟨o, ho, by simpa using hon⟩)
  · intro hapart hyes
    obtain ⟨n, hn, ⟨o, ho, hon⟩, -⟩ := hyes
    rw [hapart o ho n hn] at hon
    exact Bool.noConfusion hon

/-- Everything a batch without a checker can do: it is applied exactly when it passes its own
checks and the sweep. -/
theorem applyBatch_none_cases {t : TextEditor} (h : Accepted t.originalLen t.edits)
    (newEdits : List TextEdit) :
    (Fits t newEdits ∧ overlapsAccepted t.edits (sortEdits newEdits) = false ∧
      t.applyBatch newEdits none =
        (.applied, { t with edits := sortEdits (t.edits ++ sortEdits newEdits) })) ∨
    (¬ (Fits t newEdits ∧ overlapsAccepted t.edits (sortEdits newEdits) = false) ∧
      (t.applyBatch newEdits none).1 ≠ .applied) := by
  unfold TextEditor.applyBatch
  by_cases hnil : newEdits = []
  · subst hnil
    have hself : sortEdits t.edits = t.edits := sortEdits_eq_self h.sorted
    exact .inl ⟨⟨rfl, rfl⟩, by cases t.edits <;> rfl, by simp [sortEdits_nil, hself]⟩
  rw [if_neg (by simpa using hnil)]
  split
  · rename_i rejection hsafe
    obtain ⟨edit, -, hedit⟩ := List.exists_of_findSome?_eq_some hsafe
    exact .inr ⟨by simp [Fits, hsafe], (checkSafety_eq_some hedit).1⟩
  · rename_i hsafe
    dsimp only
    split
    · rename_i rejection hbatch
      exact .inr ⟨by simp [Fits, hbatch], (checkBatch_eq_some hbatch).1⟩
    · rename_i hbatch
      split_ifs with ho hr
      · exact .inr ⟨by simp [ho], by simp⟩
      · simp [checkerRejects] at hr
      · exact .inl ⟨⟨hsafe, hbatch⟩, by simpa using ho, rfl⟩

theorem applyBatch_applied_iff {t : TextEditor} (h : Accepted t.originalLen t.edits)
    {newEdits : List TextEdit} (hseen : BatchSeen t newEdits) :
    (t.applyBatch newEdits none).1 = .applied ↔ Fits t newEdits ∧ Apart t.edits newEdits := by
  have hsweep := fun hfits : Fits t newEdits =>
    overlapsAccepted_eq_false_iff h (hseen hfits) hfits.2
  rcases applyBatch_none_cases h newEdits with ⟨hfits, hno, heq⟩ | ⟨hnot, hne⟩
  · simp [heq, hfits, (hsweep hfits).mp hno]
  · refine iff_of_false hne fun happlied => hnot ⟨happlied.1, ?_⟩
    exact (hsweep happlied.1).mpr happlied.2

theorem applyBatch_of_applied {t : TextEditor} (h : Accepted t.originalLen t.edits)
    {newEdits : List TextEdit} (happlied : (t.applyBatch newEdits none).1 = .applied) :
    (t.applyBatch newEdits none).2 =
      { t with edits := sortEdits (t.edits ++ sortEdits newEdits) } := by
  rcases applyBatch_none_cases h newEdits with ⟨-, -, heq⟩ | ⟨-, hne⟩
  · rw [heq]
  · exact absurd happlied hne

/-! ## Two batches -/

/-- Both batches are applied, `first` before `second`. -/
def BothApplied (t : TextEditor) (first second : List TextEdit) : Prop :=
  (t.applyBatch first none).1 = .applied ∧
    ((t.applyBatch first none).2.applyBatch second none).1 = .applied

/-- The bytes after both batches. -/
def finishBoth (t : TextEditor) (first second : List TextEdit) : Bytes :=
  ((t.applyBatch first none).2.applyBatch second none).2.finish

/-- No two zero-width edits of the batches share their offset. -/
def NoSharedInsertion (first second : List TextEdit) : Prop :=
  ∀ a ∈ first, ∀ b ∈ second, a.range.isEmpty = true → b.range.isEmpty = true →
    a.range.start ≠ b.range.start

/-- The conflicts of both batches are seen where each is applied. -/
structure PairConflictsSeen (t : TextEditor) (first second : List TextEdit) : Prop where
  seenFirst : BatchSeen t first
  seenSecond : BatchSeen (t.applyBatch first none).2 second

structure OrderIndependent (t : TextEditor) (first second : List TextEdit) : Prop where
  acceptance : BothApplied t first second ↔ BothApplied t second first
  output : BothApplied t first second → NoSharedInsertion first second →
    finishBoth t first second = finishBoth t second first

theorem bothApplied_iff {t : TextEditor} (h : Accepted t.originalLen t.edits)
    {first second : List TextEdit} (hseen : PairConflictsSeen t first second) :
    BothApplied t first second ↔ (Fits t first ∧ Fits t second) ∧
      Apart t.edits first ∧ Apart t.edits second ∧ Apart first second := by
  unfold BothApplied
  by_cases happlied : (t.applyBatch first none).1 = .applied
  · have hsecond := hseen.seenSecond
    have hkept := applyBatch_accepted h hseen.seenFirst none
    rw [applyBatch_of_applied h happlied] at hsecond hkept ⊢
    have hfits : Fits { t with edits := sortEdits (t.edits ++ sortEdits first) } second ↔
        Fits t second := Iff.rfl
    rw [applyBatch_applied_iff hkept hsecond, hfits, apart_sortEdits_append_iff]
    have hfirst := (applyBatch_applied_iff h hseen.seenFirst).mp happlied
    simp [happlied, hfirst]
  · have hfirst := mt (applyBatch_applied_iff h hseen.seenFirst).mpr happlied
    simp only [happlied, false_and, false_iff]
    exact fun hall => hfirst ⟨hall.1.1, hall.2.1⟩

theorem finishBoth_eq {t : TextEditor} (h : Accepted t.originalLen t.edits)
    {first second : List TextEdit} (hseen : BatchSeen t first)
    (happlied : BothApplied t first second) :
    finishBoth t first second = stitch t.originalText
      (sortEdits (sortEdits (t.edits ++ sortEdits first) ++ sortEdits second)) := by
  have hkept := applyBatch_accepted h hseen none
  have hsecond := happlied.2
  unfold finishBoth
  rw [applyBatch_of_applied h happlied.1] at hkept hsecond ⊢
  rw [applyBatch_of_applied hkept hsecond]
  rfl

/-- Edits with equal ranges are tied; unless they are insertions they conflict. -/
theorem not_tie {a b : TextEdit} (ha : a.range.start ≤ a.range.stop)
    (hapart : a.range.overlaps b.range = false)
    (hne : a.range.isEmpty = true → b.range.isEmpty = true → a.range.start ≠ b.range.start)
    (z : TextEdit) (haz : tie (fun a b : TextEdit => a.range.le b.range) z a = true) :
    tie (fun a b : TextEdit => a.range.le b.range) z b = false := by
  rw [← Bool.not_eq_true]
  intro hbz
  have hno : ¬ Conflict startOf stopOf a b := by
    rw [← overlaps_iff, hapart]
    simp
  simp only [tie, Bool.and_eq_true, le_iff, SpanLe, startOf, stopOf] at haz hbz
  simp only [TextRange.isEmpty, beq_iff_eq] at hne
  rw [conflict_iff] at hno
  omega

theorem filter_tie_sortEdits (z : TextEdit) (edits : List TextEdit) :
    (sortEdits edits).filter (tie (fun a b : TextEdit => a.range.le b.range) z) =
      edits.filter (tie (fun a b : TextEdit => a.range.le b.range) z) :=
  filter_insertionSort textRange_le_trans z edits

/-- Two batches without tied edits sort to the same list in either order. -/
theorem sortEdits_append_comm {edits first second : List TextEdit}
    (hb : ∀ a ∈ first, a.range.start ≤ a.range.stop) (hapart : Apart first second)
    (hshared : NoSharedInsertion first second) :
    sortEdits (sortEdits (edits ++ sortEdits first) ++ sortEdits second) =
      sortEdits (sortEdits (edits ++ sortEdits second) ++ sortEdits first) := by
  refine eq_of_ties textRange_le_total (sortEdits_pairwise _) (sortEdits_pairwise _) fun z => ?_
  simp only [filter_tie_sortEdits, List.filter_append, List.append_assoc]
  congr 1
  set tied := tie (fun a b : TextEdit => a.range.le b.range) z with htied
  by_cases hany : ∃ a ∈ first, tied a = true
  · obtain ⟨a, ha, haz⟩ := hany
    have hnone : second.filter tied = [] := by
      refine List.filter_eq_nil_iff.mpr fun b hbm => ?_
      rw [htied, not_tie (hb a ha) (hapart a ha b hbm) (hshared a ha b hbm) z haz]
      simp
    simp [hnone]
  · have hnone : first.filter tied = [] :=
      List.filter_eq_nil_iff.mpr fun a ha haz => hany ⟨a, ha, haz⟩
    simp [hnone]

/-- In every run whose batches have all their conflicts seen, two batches whose conflicts are
seen in both orders are applied together in one order exactly when in the other, with the
same bytes when they insert at different offsets. -/
theorem orderIndependent_of_run {text : Bytes} {threshold : Safety} {t : TextEditor}
    (h : Run BatchConflictsSeen text threshold t) {first second : List TextEdit}
    (hseen : PairConflictsSeen t first second) (hseen' : PairConflictsSeen t second first) :
    OrderIndependent t first second := by
  have haccepted := h.accepted_originalLen
  have hiff : BothApplied t first second ↔ BothApplied t second first := by
    rw [bothApplied_iff haccepted hseen, bothApplied_iff haccepted hseen']
    constructor
    · intro hboth
      exact ⟨hboth.1.symm, hboth.2.2.1, hboth.2.1, hboth.2.2.2.symm⟩
    · intro hboth
      exact ⟨hboth.1.symm, hboth.2.2.1, hboth.2.1, hboth.2.2.2.symm⟩
  refine ⟨hiff, fun hboth hshared => ?_⟩
  obtain ⟨hfits, -, -, hapart⟩ := (bothApplied_iff haccepted hseen).mp hboth
  rw [finishBoth_eq haccepted hseen.seenFirst hboth,
    finishBoth_eq haccepted hseen'.seenFirst (hiff.mp hboth)]
  refine congrArg _ (sortEdits_append_comm (fun a ha => ?_) hapart hshared)
  exact ((accepted_sortEdits_of_checkBatch hfits.1.2).inBounds a (mem_sortEdits.mpr ha)).1

instance (t : TextEditor) (first second : List TextEdit) :
    Decidable (PairConflictsSeen t first second) :=
  decidable_of_iff (BatchSeen t first ∧ BatchSeen (t.applyBatch first none).2 second)
    ⟨fun h => ⟨h.1, h.2⟩, fun h => ⟨h.1, h.2⟩⟩

instance (t : TextEditor) (first second : List TextEdit) :
    Decidable (BothApplied t first second) := inferInstanceAs (Decidable (_ ∧ _))

theorem orderIndependent_of_run_insertions :
    OrderIndependent ((TextEditor.withSafety hello .Unsafe).perform insertThenReplace).2
      [.insert 3 [122], .insert 3 [33]] [.replace ⟨3, 5⟩ [], .insert 2 [45]] := by
  have hfirst : Run BatchConflictsSeen hello .Unsafe
      ((TextEditor.withSafety hello .Unsafe).perform insertThenReplace).2 :=
    .perform .start (by decide)
  exact orderIndependent_of_run hfirst (by decide) (by decide)

/-- Behind the insertion at `0` the replacement of `0..3` is not compared with `0..5`; in the
other order the sweep meets both. -/
theorem masked_batch_order_dependent :
    ∃ t first second, Run (fun _ _ => True) hello .Unsafe t ∧
      ¬ OrderIndependent t first second := by
  refine ⟨.withSafety hello .Unsafe, [.insert 0 [120], .replace ⟨0, 5⟩ [121]],
    [.replace ⟨0, 3⟩ [122]], .start, ?_⟩
  intro h
  exact absurd h.acceptance (by decide)

end Mago.Editing
