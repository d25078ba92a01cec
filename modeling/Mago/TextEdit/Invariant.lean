import Mago.TextEdit.Editor

/-!
# The invariant of the accepted edits

The accepted edits stay in bounds, sorted and free of conflict along every run in which
the merge sweep of a batch meets no masked conflict only: a new edit that starts where an
accepted insertion stands is never compared with the accepted edits after that insertion.
-/
namespace Mago.Editing
open Library

def startOf (e : TextEdit) : ℕ := e.range.start

def stopOf (e : TextEdit) : ℕ := e.range.stop

theorem conflict_iff {a b : TextEdit} : Conflict startOf stopOf a b ↔
    a.range.start < b.range.stop ∧ b.range.start < a.range.stop := Iff.rfl

theorem precedes_iff {a b : TextEdit} :
    Precedes startOf stopOf a b ↔ a.range.stop ≤ b.range.start := Iff.rfl

theorem overlaps_iff (a b : TextEdit) :
    a.range.overlaps b.range = true ↔ Conflict startOf stopOf a b := by
  simp only [TextRange.overlaps, TextRange.isEmpty, conflict_iff]
  split <;> simp_all only [beq_iff_eq, beq_eq_false_iff_ne, Bool.and_eq_true, decide_eq_true_eq,
    Bool.false_eq_true, false_iff] <;> omega

theorem overlaps_symm {a b : TextEdit} (h : a.range.overlaps b.range = false) :
    b.range.overlaps a.range = false := by
  by_contra hba
  have hc := ((overlaps_iff b a).mp (by simpa using hba)).symm
  rw [(overlaps_iff a b).mpr hc] at h
  exact Bool.noConfusion h

theorem le_iff (a b : TextEdit) :
    a.range.le b.range = true ↔ SpanLe startOf stopOf a b := by
  simp [TextRange.le, SpanLe, startOf, stopOf]

/-- What a caller may rely on about the list returned by `get_edits`. -/
structure Accepted (len : ℕ) (edits : List TextEdit) : Prop where
  inBounds : ∀ e ∈ edits, e.range.start ≤ e.range.stop ∧ e.range.stop ≤ len
  sorted : edits.Pairwise fun a b => a.range.le b.range = true
  conflictFree : edits.Pairwise fun a b => a.range.overlaps b.range = false

instance (len : ℕ) (edits : List TextEdit) : Decidable (Accepted len edits) :=
  decidable_of_iff ((∀ e ∈ edits, e.range.start ≤ e.range.stop ∧ e.range.stop ≤ len) ∧
    (edits.Pairwise fun a b => a.range.le b.range = true) ∧
    edits.Pairwise fun a b => a.range.overlaps b.range = false)
    ⟨fun h => ⟨h.1, h.2.1, h.2.2⟩, fun h => ⟨h.1, h.2, h.3⟩⟩

theorem Accepted.precedes {len : ℕ} {edits : List TextEdit} (h : Accepted len edits) :
    edits.Pairwise (Precedes startOf stopOf) := by
  refine (pairwise_precedes_iff fun e he => (h.inBounds e he).1).mpr ⟨?_, ?_⟩
  · exact h.sorted.imp fun hab => (le_iff _ _).mp hab
  · exact h.conflictFree.imp fun hab hc => by simp [(overlaps_iff _ _).mpr hc] at hab

theorem Accepted.of_precedes {len : ℕ} {edits : List TextEdit}
    (hb : ∀ e ∈ edits, e.range.start ≤ e.range.stop ∧ e.range.stop ≤ len)
    (h : edits.Pairwise (Precedes startOf stopOf)) : Accepted len edits := by
  obtain ⟨hle, hc⟩ := (pairwise_precedes_iff fun e he => (hb e he).1).mp h
  refine ⟨hb, hle.imp fun hab => (le_iff _ _).mpr hab, hc.imp fun {a b} hab => ?_⟩
  by_contra ho
  exact hab ((overlaps_iff a b).mp (by simpa using ho))

theorem Accepted.nil (len : ℕ) : Accepted len [] :=
  .of_precedes (by simp) List.Pairwise.nil

/-! ## Single edits -/

/-- The ends of the accepted edits are ordered, so `apply` may search them by bisection. -/
theorem Accepted.partitioned {len : ℕ} {edits : List TextEdit} (h : Accepted len edits) (x : ℕ) :
    Partitioned (fun e : TextEdit => decide (e.range.stop ≤ x)) edits := by
  refine h.precedes.imp_of_mem fun {a b} _ hb hab hx => ?_
  have hab' : a.range.stop ≤ b.range.start := hab
  have := (h.inBounds b hb).1
  simp only [decide_eq_true_eq] at hx ⊢
  omega

theorem Accepted.insert {len : ℕ} {edits : List TextEdit} (h : Accepted len edits)
    {edit : TextEdit} (hb : edit.range.start ≤ edit.range.stop ∧ edit.range.stop ≤ len)
    (hfree : ∀ e, (edits.dropWhile fun e => decide (e.range.stop ≤ edit.range.start)).head? = some e →
      e.range.overlaps edit.range = false) :
    Accepted len ((edits.takeWhile fun e => decide (e.range.stop ≤ edit.range.start)) ++
      edit :: edits.dropWhile fun e => decide (e.range.stop ≤ edit.range.start)) := by
  set p : TextEdit → Bool := fun e => decide (e.range.stop ≤ edit.range.start) with hp
  have hsplit : edits.takeWhile p ++ edits.dropWhile p = edits :=
    List.takeWhile_append_dropWhile
  have hmem : ∀ e ∈ edits.dropWhile p, e ∈ edits := fun e he =>
    hsplit ▸ List.mem_append_right _ he
  have hprec := h.precedes
  rw [← hsplit, List.pairwise_append] at hprec
  obtain ⟨hpre, hpost, hcross⟩ := hprec
  have hbefore : ∀ e ∈ edits.takeWhile p, Precedes startOf stopOf e edit := by
    intro e he
    simpa [hp, precedes_iff] using List.mem_takeWhile_imp he
  have hafter : ∀ e ∈ edits.dropWhile p, Precedes startOf stopOf edit e := by
    cases hd : edits.dropWhile p with
    | nil => simp
    | cons x xs =>
      -- the first edit that ends after `edit` starts must begin after `edit` ends
      have hx : edit.range.stop ≤ x.range.start := by
        have hmx : x ∈ edits.dropWhile p := by rw [hd]; exact List.mem_cons_self
        have hlt : p x = false := (h.partitioned _).dropWhile_false x hmx
        have hno : ¬ Conflict startOf stopOf x edit := fun hc => by
          have hf := hfree x (by rw [hd]; rfl)
          rw [(overlaps_iff x edit).mpr hc] at hf
          exact Bool.noConfusion hf
        simp only [hp, decide_eq_false_iff_not] at hlt
        rw [conflict_iff] at hno
        omega
      intro e he
      rcases List.mem_cons.mp he with rfl | he
      · exact hx
      · have hwx := (h.inBounds x (hmem x (by simp [hd]))).1
        rw [hd] at hpost
        have hxe : x.range.stop ≤ e.range.start := (List.pairwise_cons.mp hpost).1 e he
        exact hx.trans (hwx.trans hxe)
  apply Accepted.of_precedes
  · intro e he
    rcases List.mem_append.mp he with he | he
    · exact h.inBounds e (hsplit ▸ List.mem_append_left _ he)
    · rcases List.mem_cons.mp he with rfl | he
      · exact hb
      · exact h.inBounds e (hmem e he)
  · refine List.pairwise_append.mpr ⟨hpre, List.pairwise_cons.mpr ⟨hafter, hpost⟩, ?_⟩
    intro e he e' he'
    rcases List.mem_cons.mp he' with rfl | he'
    · exact hbefore e he
    · exact hcross e he e' he'

/-! ## Batches -/

theorem sortEdits_perm (edits : List TextEdit) : (sortEdits edits).Perm edits :=
  List.perm_insertionSort _ _

theorem mem_sortEdits {edits : List TextEdit} {e : TextEdit} :
    e ∈ sortEdits edits ↔ e ∈ edits := (sortEdits_perm edits).mem_iff

theorem sortEdits_sorted (edits : List TextEdit) :
    (sortEdits edits).Pairwise (SpanLe startOf stopOf) := by
  have : IsTrans TextEdit fun a b => a.range.le b.range = true :=
    ⟨fun a b c hab hbc => (le_iff a c).mpr (((le_iff a b).mp hab).trans ((le_iff b c).mp hbc))⟩
  have : Std.Total fun a b : TextEdit => a.range.le b.range = true :=
    ⟨fun a b => by simpa only [le_iff] using SpanLe.total a b⟩
  exact (List.pairwise_insertionSort _ edits).imp fun h => (le_iff _ _).mp h

theorem checkBatch_eq_none {len : ℕ} {edits : List TextEdit} {previous : Option TextEdit}
    (h : checkBatch len previous edits = none) :
    (∀ e ∈ edits, e.range.start ≤ e.range.stop ∧ e.range.stop ≤ len) ∧
      (previous.toList ++ edits).IsChain fun a b => ¬ Conflict startOf stopOf a b := by
  induction edits generalizing previous with
  | nil => cases previous <;> simp
  | cons e es ih =>
    simp only [checkBatch] at h
    split_ifs at h with hbounds hoverlap
    obtain ⟨hes, hchain⟩ := ih h
    refine ⟨?_, ?_⟩
    · intro e' he'
      rcases List.mem_cons.mp he' with rfl | he'
      · omega
      · exact hes e' he'
    · cases previous with
      | none => simpa using hchain
      | some q =>
        simp only [Option.toList_some, List.singleton_append, List.isChain_cons_cons]
        refine ⟨fun hc => hoverlap ?_, by simpa using hchain⟩
        simpa using (overlaps_iff q e).mpr hc

theorem overlapsAccepted_iff {len : ℕ} {accepted batch : List TextEdit}
    (h : Accepted len accepted) (hbatch : Accepted len batch) :
    overlapsAccepted accepted batch = true ↔
      ∃ o ∈ accepted, ∃ n ∈ batch, o.range.overlaps n.range = true ∧
        ¬ Masked startOf stopOf accepted n := by
  simp only [overlaps_iff]
  exact sweep_eq_true_iff overlaps_iff (fun _ _ => decide_eq_true_iff)
    (fun e he => (h.inBounds e he).1) (fun e he => (hbatch.inBounds e he).1)
    h.precedes hbatch.precedes

/-- A batch that passes its own checks is a valid list of edits. -/
theorem accepted_sortEdits_of_checkBatch {len : ℕ} {edits : List TextEdit}
    (h : checkBatch len none (sortEdits edits) = none) : Accepted len (sortEdits edits) := by
  obtain ⟨hb, hchain⟩ := checkBatch_eq_none h
  refine .of_precedes hb ?_
  exact pairwise_precedes_of_isChain (fun e he => (hb e he).1) (sortEdits_sorted edits)
    (by simpa using hchain)

theorem accepted_sortEdits_append_iff {len : ℕ} {accepted batch : List TextEdit}
    (h : Accepted len accepted) (hbatch : Accepted len batch) :
    Accepted len (sortEdits (accepted ++ batch)) ↔
      ∀ o ∈ accepted, ∀ n ∈ batch, o.range.overlaps n.range = false := by
  have hperm : (sortEdits (accepted ++ batch)).Pairwise
        (fun a b => a.range.overlaps b.range = false) ↔
      (accepted ++ batch).Pairwise fun a b => a.range.overlaps b.range = false :=
    (sortEdits_perm _).pairwise_iff overlaps_symm
  constructor
  · intro hall
    exact (List.pairwise_append.mp (hperm.mp hall.conflictFree)).2.2
  · intro hcross
    refine ⟨?_, (sortEdits_sorted _).imp fun hab => (le_iff _ _).mpr hab, hperm.mpr ?_⟩
    · intro e he
      rcases List.mem_append.mp (mem_sortEdits.mp he) with he | he
      · exact h.inBounds e he
      · exact hbatch.inBounds e he
    · exact List.pairwise_append.mpr ⟨h.conflictFree, hbatch.conflictFree, hcross⟩

/-! ## Steps and runs -/

/-- A zero-width edit is accepted exactly where `edit` starts. -/
def InsertedAt (accepted : List TextEdit) (edit : TextEdit) : Prop :=
  ∃ e ∈ accepted, e.range.isEmpty = true ∧ e.range.start = edit.range.start

/-- Whenever an edit of the batch overlaps an accepted edit, some overlapping edit of the
batch starts where no zero-width edit is accepted. -/
def ConflictsSeen (accepted batch : List TextEdit) : Prop :=
  ∀ n ∈ batch, (∃ o ∈ accepted, o.range.overlaps n.range = true) →
    ∃ n' ∈ batch, (∃ o ∈ accepted, o.range.overlaps n'.range = true) ∧ ¬ InsertedAt accepted n'

instance (accepted : List TextEdit) (edit : TextEdit) : Decidable (InsertedAt accepted edit) :=
  inferInstanceAs (Decidable (∃ e ∈ accepted, _ ∧ _))

instance (accepted batch : List TextEdit) : Decidable (ConflictsSeen accepted batch) :=
  inferInstanceAs (Decidable (∀ n ∈ batch, _ → _))

/-- The checks of a batch that do not look at the accepted edits. -/
def Fits (t : TextEditor) (newEdits : List TextEdit) : Prop :=
  (newEdits.findSome? fun edit => t.checkSafety edit.safety) = none ∧
    checkBatch t.originalLen none (sortEdits newEdits) = none

instance (t : TextEditor) (newEdits : List TextEdit) : Decidable (Fits t newEdits) :=
  inferInstanceAs (Decidable (_ ∧ _))

/-- The conflicts of a batch are seen, unless its own checks refuse it. -/
def BatchSeen (t : TextEditor) (newEdits : List TextEdit) : Prop :=
  Fits t newEdits → ConflictsSeen t.edits newEdits

instance (t : TextEditor) (newEdits : List TextEdit) : Decidable (BatchSeen t newEdits) :=
  inferInstanceAs (Decidable (_ → _))

/-- The condition on an operation and the state before it. -/
def BatchConflictsSeen (t : TextEditor) : Operation → Prop
  | .apply _ _ => True
  | .applyBatch newEdits _ => BatchSeen t newEdits
  | .applyUniqueBatch newEdits _ => BatchSeen t (newEdits.filter fun edit => !t.isAccepted edit)

instance (t : TextEditor) (op : Operation) : Decidable (BatchConflictsSeen t op) :=
  match op with
  | .apply _ _ => isTrue trivial
  | .applyBatch newEdits _ => inferInstanceAs (Decidable (BatchSeen t newEdits))
  | .applyUniqueBatch newEdits _ => inferInstanceAs (Decidable (BatchSeen t (newEdits.filter _)))

theorem masked_iff (accepted : List TextEdit) (edit : TextEdit) :
    Masked startOf stopOf accepted edit ↔ InsertedAt accepted edit := by
  simp only [Masked, InsertedAt, startOf, stopOf, TextRange.isEmpty, beq_iff_eq]
  refine exists_congr fun e => and_congr_right fun _ => ?_
  omega

/-- Everything `apply` can do: keep the state, or insert an edit that fits. -/
theorem apply_cases (t : TextEditor) (edit : TextEdit) (checker : Option (Bytes → Bool)) :
    (t.apply edit checker).2 = t ∨
      ∃ i, i = partitionPoint (fun e => decide (e.range.stop ≤ edit.range.start)) t.edits ∧
        edit.range.start ≤ edit.range.stop ∧ edit.range.stop ≤ t.originalLen ∧
        (∀ e, t.edits[i]? = some e → e.range.overlaps edit.range = false) ∧
        (t.apply edit checker).2 = { t with edits := t.edits.insertIdx i edit } := by
  unfold TextEditor.apply
  split
  · exact .inl rfl
  · dsimp only
    split_ifs with hb ho
    · exact .inl rfl
    · exact .inl rfl
    · exact .inl rfl
    · refine .inr ⟨_, rfl, by omega, by omega, fun e he => ?_, rfl⟩
      rw [he] at ho
      simpa using ho

/-- Everything `applyBatch` can do: keep the state, or merge a batch that passes its own
checks and the sweep. -/
theorem applyBatch_cases (t : TextEditor) (newEdits : List TextEdit)
    (checker : Option (Bytes → Bool)) :
    (t.applyBatch newEdits checker).2 = t ∨
      Fits t newEdits ∧
        overlapsAccepted t.edits (sortEdits newEdits) = false ∧
        (t.applyBatch newEdits checker).2 =
          { t with edits := sortEdits (t.edits ++ sortEdits newEdits) } := by
  unfold TextEditor.applyBatch
  split_ifs with hnil
  · exact .inl rfl
  · split
    · exact .inl rfl
    · rename_i hsafe
      dsimp only
      split
      · exact .inl rfl
      · rename_i hcheck
        split_ifs with ho
        · exact .inl rfl
        · exact .inl rfl
        · exact .inr ⟨⟨hsafe, hcheck⟩, by simpa using ho, rfl⟩

theorem apply_accepted {t : TextEditor} (h : Accepted t.originalLen t.edits) (edit : TextEdit)
    (checker : Option (Bytes → Bool)) :
    Accepted t.originalLen (t.apply edit checker).2.edits := by
  rcases apply_cases t edit checker with heq | ⟨i, rfl, hle, hlen, hfree, heq⟩
  · rwa [heq]
  · rw [heq]
    dsimp only
    rw [insertIdx_partitionPoint (h.partitioned _)]
    refine h.insert ⟨hle, hlen⟩ fun e he => hfree e ?_
    rwa [getElem?_partitionPoint (h.partitioned _)]

theorem overlapsAccepted_sortEdits_iff {t : TextEditor} (h : Accepted t.originalLen t.edits)
    {newEdits : List TextEdit}
    (hcheck : checkBatch t.originalLen none (sortEdits newEdits) = none) :
    overlapsAccepted t.edits (sortEdits newEdits) = true ↔
      ∃ n ∈ newEdits, (∃ o ∈ t.edits, o.range.overlaps n.range = true) ∧
        ¬ InsertedAt t.edits n := by
  rw [overlapsAccepted_iff h (accepted_sortEdits_of_checkBatch hcheck)]
  simp only [mem_sortEdits, masked_iff]
  constructor
  · rintro ⟨o, ho, n, hn, hon, hm⟩
    exact ⟨n, hn, ⟨o, ho, hon⟩, hm⟩
  · rintro ⟨n, hn, ⟨o, ho, hon⟩, hm⟩
    exact ⟨o, ho, n, hn, hon, hm⟩

/-- A committed batch keeps the invariant exactly when all its conflicts were seen. -/
theorem accepted_commit_iff {t : TextEditor} (h : Accepted t.originalLen t.edits)
    {newEdits : List TextEdit}
    (hcheck : checkBatch t.originalLen none (sortEdits newEdits) = none)
    (hsweep : overlapsAccepted t.edits (sortEdits newEdits) = false) :
    Accepted t.originalLen (sortEdits (t.edits ++ sortEdits newEdits)) ↔
      ConflictsSeen t.edits newEdits := by
  have hunseen : ¬ ∃ n ∈ newEdits, (∃ o ∈ t.edits, o.range.overlaps n.range = true) ∧
      ¬ InsertedAt t.edits n := by
    rw [← overlapsAccepted_sortEdits_iff h hcheck]
    simp [hsweep]
  rw [accepted_sortEdits_append_iff h (accepted_sortEdits_of_checkBatch hcheck)]
  simp only [mem_sortEdits]
  constructor
  · rintro hfree n hn ⟨o, ho, hon⟩
    rw [hfree o ho n hn] at hon
    exact Bool.noConfusion hon
  · intro hseen o ho n hn
    by_contra hon
    exact hunseen (hseen n hn ⟨o, ho, by simpa using hon⟩)

theorem applyBatch_accepted {t : TextEditor} (h : Accepted t.originalLen t.edits)
    {newEdits : List TextEdit} (hseen : BatchSeen t newEdits) (checker : Option (Bytes → Bool)) :
    Accepted t.originalLen (t.applyBatch newEdits checker).2.edits := by
  rcases applyBatch_cases t newEdits checker with heq | ⟨hfits, hsweep, heq⟩
  · rwa [heq]
  · rw [heq]
    exact (accepted_commit_iff h hfits.2 hsweep).mpr (hseen hfits)

theorem perform_accepted {t : TextEditor} (h : Accepted t.originalLen t.edits) {op : Operation}
    (hop : BatchConflictsSeen t op) : Accepted t.originalLen (t.perform op).2.edits := by
  cases op with
  | apply edit checker => exact apply_accepted h edit checker
  | applyBatch newEdits checker => exact applyBatch_accepted h hop checker
  | applyUniqueBatch newEdits checker => exact applyBatch_accepted h hop checker

/-- No operation changes the text, its recorded length or the threshold. -/
theorem perform_frame (t : TextEditor) (op : Operation) :
    ∃ edits, (t.perform op).2 = { t with edits := edits } := by
  have hbatch : ∀ newEdits checker,
      ∃ edits, (t.applyBatch newEdits checker).2 = { t with edits := edits } := by
    intro newEdits checker
    rcases applyBatch_cases t newEdits checker with heq | ⟨_, _, heq⟩
    · exact ⟨t.edits, heq⟩
    · exact ⟨_, heq⟩
  cases op with
  | apply edit checker =>
    rcases apply_cases t edit checker with heq | ⟨_, _, _, _, _, heq⟩
    · exact ⟨t.edits, heq⟩
    · exact ⟨_, heq⟩
  | applyBatch newEdits checker => exact hbatch newEdits checker
  | applyUniqueBatch newEdits checker => exact hbatch _ checker

theorem Run.frame {ok : TextEditor → Operation → Prop} {text : Bytes} {threshold : Safety}
    {t : TextEditor} (h : Run ok text threshold t) :
    t.originalText = text ∧ t.originalLen = text.length % 2 ^ 32 ∧
      t.safetyThreshold = threshold := by
  induction h with
  | start => exact ⟨rfl, rfl, rfl⟩
  | @perform t op _ _ ih =>
    obtain ⟨edits, heq⟩ := perform_frame t op
    rw [heq]
    exact ih

theorem Accepted.mono {len len' : ℕ} {edits : List TextEdit} (h : Accepted len edits)
    (hle : len ≤ len') : Accepted len' edits :=
  ⟨fun e he => ⟨(h.inBounds e he).1, (h.inBounds e he).2.trans hle⟩, h.sorted, h.conflictFree⟩

theorem Run.accepted_originalLen {text : Bytes} {threshold : Safety} {t : TextEditor}
    (h : Run BatchConflictsSeen text threshold t) : Accepted t.originalLen t.edits := by
  induction h with
  | start => exact .nil _
  | @perform t op _ step ih =>
    obtain ⟨edits, heq⟩ := perform_frame t op
    have hlen : (t.perform op).2.originalLen = t.originalLen := by rw [heq]
    rw [hlen]
    exact perform_accepted ih step

/-- In every run whose batches have all their conflicts seen, every state keeps the accepted
edits in bounds, sorted and pairwise free of conflict. -/
theorem accepted_of_run {text : Bytes} {threshold : Safety} {t : TextEditor}
    (h : Run BatchConflictsSeen text threshold t) : Accepted text.length t.edits := by
  refine h.accepted_originalLen.mono ?_
  rw [h.frame.2.1]
  exact Nat.mod_le _ _

/-- The text of the concrete runs below, `hello`. -/
def hello : Bytes := [104, 101, 108, 108, 111]

def insertThenReplace : Operation :=
  .applyBatch [.replace ⟨0, 2⟩ [120], .insert 0 [121]] none

def shareInsertion : Operation :=
  .applyUniqueBatch [.insert 0 [121], .replace ⟨2, 5⟩ []] none

theorem accepted_of_run_shared_insertion :
    Accepted hello.length (((TextEditor.withSafety hello .Unsafe).perform
      insertThenReplace).2.perform shareInsertion).2.edits := by
  have hfirst : Run BatchConflictsSeen hello .Unsafe
      ((TextEditor.withSafety hello .Unsafe).perform insertThenReplace).2 :=
    .perform .start (by decide)
  exact accepted_of_run (.perform hfirst (by decide))

def maskingBatch : Operation := .applyBatch [.insert 0 [120], .replace ⟨0, 5⟩ [121]] none

def maskedBatch : Operation := .applyBatch [.replace ⟨0, 3⟩ [122]] none

/-- The sweep compares the batch `0..3` with the insertion at `0` only, so it is accepted
beside `0..5`. -/
theorem masked_conflict_accepted :
    ∃ t, Run (fun _ _ => True) hello .Unsafe t ∧ ¬ Accepted hello.length t.edits := by
  refine ⟨(((TextEditor.withSafety hello .Unsafe).perform maskingBatch).2.perform
    maskedBatch).2, ?_, by decide⟩
  exact .perform (.perform .start trivial) trivial

end Mago.Editing
