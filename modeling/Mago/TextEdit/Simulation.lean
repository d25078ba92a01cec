import Mago.Library.StableSort
import Mago.TextEdit.Invariant

/-!
# The simulation shown to a checker

A checker sees the accepted edits merged with the new ones before they are committed. The
bytes it sees are those of the editor after the commit, and the buffer they are built in is
sized without underflow, along every run whose batches have all their conflicts seen.
-/
namespace Mago.Editing
open Library

/-- The length computed for the buffer of the simulation; `none` is an underflow. -/
def mergedLen : ℕ → List TextEdit → Option ℕ
  | n, [] => some n
  | n, e :: es => if e.range.len ≤ n then mergedLen (n - e.range.len + e.newText.length) es else none

def Operation.withChecker (checker : Option (Bytes → Bool)) : Operation → Operation
  | .apply edit _ => .apply edit checker
  | .applyBatch newEdits _ => .applyBatch newEdits checker
  | .applyUniqueBatch newEdits _ => .applyUniqueBatch newEdits checker

namespace TextEditor

/-- A checker is consulted where one that accepts nothing would reject. -/
def consults (t : TextEditor) (op : Operation) : Bool :=
  (t.perform (op.withChecker (some fun _ => false))).1 == .rejected

/-- The editor after an operation without a checker. -/
def committed (t : TextEditor) (op : Operation) : TextEditor :=
  (t.perform (op.withChecker none)).2

/-- The sorted new edits of an operation. -/
def merged (t : TextEditor) : Operation → List TextEdit
  | .apply edit _ => [edit]
  | .applyBatch newEdits _ => sortEdits newEdits
  | .applyUniqueBatch newEdits _ => sortEdits (newEdits.filter fun edit => !t.isAccepted edit)

end TextEditor

/-- The outcome depends on a checker through its verdict on the bytes of the committed editor
only, and these are the bytes of the merged edits. -/
structure SimulationFaithful (t : TextEditor) (op : Operation) : Prop where
  agrees : t.consults op = true → ∀ check, t.perform (op.withChecker (some check)) =
    if check (t.committed op).finish then (.applied, t.committed op) else (.rejected, t)
  unconsulted : t.consults op = false → ∀ check,
    t.perform (op.withChecker (some check)) = t.perform (op.withChecker none)
  simulated : t.consults op = true →
    (t.committed op).finish = stitchMerged t.originalText t.edits (t.merged op)
  capacity : t.consults op = true →
    (mergedLen t.originalText.length (t.edits ++ t.merged op)).isSome = true

/-! ## What a consulted checker decides -/

theorem checkSafety_eq_some {t : TextEditor} {safety : Safety} {rejection : ApplyResult}
    (h : t.checkSafety safety = some rejection) : rejection ≠ .applied ∧ rejection ≠ .rejected := by
  unfold TextEditor.checkSafety at h
  split_ifs at h
  rw [Option.some_inj] at h
  subst h
  cases safety <;> simp

theorem checkBatch_eq_some {len : ℕ} {previous : Option TextEdit} {edits : List TextEdit}
    {rejection : ApplyResult} (h : checkBatch len previous edits = some rejection) :
    rejection ≠ .applied ∧ rejection ≠ .rejected := by
  induction edits generalizing previous with
  | nil => simp [checkBatch] at h
  | cons e es ih =>
    rw [checkBatch] at h
    split_ifs at h
    · rw [Option.some_inj] at h
      subst h
      simp
    · rw [Option.some_inj] at h
      subst h
      simp
    · exact ih h

/-- Where `apply` inserts an edit. -/
def searchIdx (t : TextEditor) (edit : TextEdit) : ℕ :=
  partitionPoint (fun e => decide (e.range.stop ≤ edit.range.start)) t.edits

theorem apply_of_rejected {t : TextEditor} {edit : TextEdit}
    (h : (t.apply edit (some fun _ => false)).1 = .rejected) :
    (edit.range.start ≤ edit.range.stop ∧ edit.range.stop ≤ t.originalLen) ∧
      (∀ e, t.edits[searchIdx t edit]? = some e → e.range.overlaps edit.range = false) ∧
      ∀ checker, t.apply edit checker =
        if checkerRejects checker (stitchOne t.originalText t.edits edit) then (.rejected, t)
        else (.applied, { t with edits := t.edits.insertIdx (searchIdx t edit) edit }) := by
  unfold TextEditor.apply at h ⊢
  cases hsafe : t.checkSafety edit.safety with
  | some rejection =>
    rw [hsafe] at h
    exact absurd h (checkSafety_eq_some hsafe).2
  | none =>
    rw [hsafe] at h
    dsimp only at h ⊢
    split_ifs at h with hb ho hr
    · refine ⟨by omega, fun e he => ?_, fun checker => ?_⟩
      · unfold searchIdx at he
        rw [he] at ho
        simpa using ho
      · rw [if_neg hb, if_neg ho, searchIdx]

theorem apply_of_ne_rejected {t : TextEditor} {edit : TextEdit}
    (h : (t.apply edit (some fun _ => false)).1 ≠ .rejected) (checker : Option (Bytes → Bool)) :
    t.apply edit checker = t.apply edit none := by
  unfold TextEditor.apply at h ⊢
  split
  · rfl
  · rename_i hsafe
    rw [hsafe] at h
    dsimp only at h ⊢
    by_cases hb : edit.range.stop > t.originalLen ∨ edit.range.start > edit.range.stop
    · rw [if_pos hb, if_pos hb]
    rw [if_neg hb] at h ⊢
    split
    · rfl
    · rename_i ho
      rw [if_neg ho] at h
      exact absurd rfl h

theorem applyBatch_of_rejected {t : TextEditor} {newEdits : List TextEdit}
    (h : (t.applyBatch newEdits (some fun _ => false)).1 = .rejected) :
    Fits t newEdits ∧ overlapsAccepted t.edits (sortEdits newEdits) = false ∧
      ∀ checker, t.applyBatch newEdits checker =
        if checkerRejects checker (stitchMerged t.originalText t.edits (sortEdits newEdits)) then
          (.rejected, t)
        else (.applied, { t with edits := sortEdits (t.edits ++ sortEdits newEdits) }) := by
  unfold TextEditor.applyBatch at h ⊢
  by_cases hnil : newEdits.isEmpty = true
  · rw [if_pos hnil] at h
    simp at h
  rw [if_neg hnil] at h
  simp only [if_neg hnil]
  cases hsafe : newEdits.findSome? fun edit => t.checkSafety edit.safety with
  | some rejection =>
    rw [hsafe] at h
    obtain ⟨edit, -, hedit⟩ := List.exists_of_findSome?_eq_some hsafe
    exact absurd h (checkSafety_eq_some hedit).2
  | none =>
    rw [hsafe] at h
    dsimp only at h ⊢
    cases hbatch : checkBatch t.originalLen none (sortEdits newEdits) with
    | some rejection =>
      rw [hbatch] at h
      exact absurd h (checkBatch_eq_some hbatch).2
    | none =>
      rw [hbatch] at h
      dsimp only at h ⊢
      split_ifs at h with ho hr
      · exact ⟨⟨hsafe, hbatch⟩, by simpa using ho, fun _ => if_neg ho⟩

theorem applyBatch_of_ne_rejected {t : TextEditor} {newEdits : List TextEdit}
    (h : (t.applyBatch newEdits (some fun _ => false)).1 ≠ .rejected)
    (checker : Option (Bytes → Bool)) :
    t.applyBatch newEdits checker = t.applyBatch newEdits none := by
  unfold TextEditor.applyBatch at h ⊢
  split_ifs at h ⊢ with hnil
  · rfl
  · split
    · rfl
    · rename_i hsafe
      rw [hsafe] at h
      dsimp only at h ⊢
      split
      · rfl
      · rename_i hbatch
        rw [hbatch] at h
        dsimp only at h
        split
        · rfl
        · rename_i ho
          rw [if_neg ho] at h
          exact absurd rfl h

/-! ## The merged edits -/

theorem textRange_le_total (a b : TextEdit) :
    a.range.le b.range = true ∨ b.range.le a.range = true := by
  simpa only [le_iff] using SpanLe.total a b

theorem textRange_le_trans (a b c : TextEdit) (hab : a.range.le b.range = true)
    (hbc : b.range.le c.range = true) : a.range.le c.range = true :=
  (le_iff a c).mpr (((le_iff a b).mp hab).trans ((le_iff b c).mp hbc))

theorem sortEdits_pairwise (edits : List TextEdit) :
    (sortEdits edits).Pairwise fun a b => a.range.le b.range = true :=
  (sortEdits_sorted edits).imp fun h => (le_iff _ _).mpr h

/-- The merge of a batch is the list that the commit sorts. -/
theorem merge_eq_sortEdits {edits newEdits : List TextEdit}
    (h : edits.Pairwise fun a b => a.range.le b.range = true) :
    (edits.merge (sortEdits newEdits) fun o n => o.range.le n.range) =
      sortEdits (edits ++ sortEdits newEdits) :=
  merge_eq_insertionSort textRange_le_total textRange_le_trans h (sortEdits_pairwise newEdits)

/-- The merge of a single edit is the list that `apply` inserts into. -/
theorem merge_eq_insertIdx {t : TextEditor} (h : Accepted t.originalLen t.edits)
    {edit : TextEdit} (hb : edit.range.start ≤ edit.range.stop)
    (hfree : ∀ e, t.edits[searchIdx t edit]? = some e → e.range.overlaps edit.range = false) :
    (t.edits.merge [edit] fun o n => o.range.le n.range) =
      t.edits.insertIdx (searchIdx t edit) edit := by
  unfold searchIdx at hfree ⊢
  rw [getElem?_partitionPoint (h.partitioned _)] at hfree
  rw [insertIdx_partitionPoint (h.partitioned _)]
  set p : TextEdit → Bool := fun e => decide (e.range.stop ≤ edit.range.start) with hp
  conv_lhs => rw [← List.takeWhile_append_dropWhile (p := p) (l := t.edits)]
  refine merge_singleton (fun e he => ?_) fun e he => ?_
  · have hstop : e.range.stop ≤ edit.range.start := by
      simpa [hp] using List.mem_takeWhile_imp he
    have := (h.inBounds e (List.takeWhile_subset _ he)).1
    rw [le_iff]
    simp only [SpanLe, startOf, stopOf]
    omega
  · have hstop : ¬ e.range.stop ≤ edit.range.start := by
      have := List.head?_dropWhile_not p t.edits
      rw [he] at this
      simpa [hp] using this
    have hnot : ¬ Conflict startOf stopOf e edit := by
      rw [← overlaps_iff, hfree e he]
      simp
    rw [conflict_iff] at hnot
    rw [← Bool.not_eq_true, le_iff]
    simp only [SpanLe, startOf, stopOf]
    omega

/-! ## The length of the simulation -/

theorem mergedLen_isSome {edits : List TextEdit} {n : ℕ}
    (h : (edits.map fun e => e.range.len).sum ≤ n) : (mergedLen n edits).isSome = true := by
  induction edits generalizing n with
  | nil => rfl
  | cons e es ih =>
    rw [List.map_cons, List.sum_cons] at h
    rw [mergedLen, if_pos (by omega)]
    exact ih (by omega)

/-- Edits without conflict replace disjoint parts of the text. -/
theorem sum_len_le {edits : List TextEdit} {low len : ℕ} (hlow : low ≤ len)
    (hstart : ∀ e ∈ edits, low ≤ e.range.start)
    (hb : ∀ e ∈ edits, e.range.start ≤ e.range.stop ∧ e.range.stop ≤ len)
    (h : edits.Pairwise (Precedes startOf stopOf)) :
    (edits.map fun e => e.range.len).sum + low ≤ len := by
  induction edits generalizing low with
  | nil => simpa using hlow
  | cons e es ih =>
    rw [List.pairwise_cons] at h
    have he := hb e (by simp)
    have hes := ih he.2 (fun e' he' => precedes_iff.mp (h.1 e' he'))
      (fun e' he' => hb e' (by simp [he'])) h.2
    have := hstart e (by simp)
    simp only [List.map_cons, List.sum_cons, TextRange.len] at hes ⊢
    omega

theorem Accepted.mergedLen_isSome {len : ℕ} {edits newEdits all : List TextEdit}
    (h : Accepted len all) (hperm : all.Perm (edits ++ newEdits)) {n : ℕ} (hn : len ≤ n) :
    (mergedLen n (edits ++ newEdits)).isSome = true := by
  refine Editing.mergedLen_isSome ?_
  have hsum := (hperm.map fun e => e.range.len).sum_eq
  have := sum_len_le (Nat.zero_le len) (by simp) h.inBounds h.precedes
  omega

/-! ## Runs -/

theorem consults_iff {t : TextEditor} {op : Operation} :
    t.consults op = true ↔ (t.perform (op.withChecker (some fun _ => false))).1 = .rejected :=
  beq_iff_eq

/-- An operation whose commit is the merge of its edits shows the checker the committed bytes. -/
theorem SimulationFaithful.of_commit {t : TextEditor} {op : Operation} (edits : List TextEdit)
    (hrejected : t.consults op = true → (∀ checker, t.perform (op.withChecker checker) =
        if checkerRejects checker (stitchMerged t.originalText t.edits (t.merged op)) then
          (.rejected, t)
        else (.applied, { t with edits := edits })) ∧
      (t.edits.merge (t.merged op) fun o n => o.range.le n.range) = edits ∧
      Accepted t.originalLen edits)
    (hkept : (t.perform (op.withChecker (some fun _ => false))).1 ≠ .rejected → ∀ check,
      t.perform (op.withChecker (some check)) = t.perform (op.withChecker none))
    (hlen : t.originalLen ≤ t.originalText.length) : SimulationFaithful t op := by
  have hcommitted : t.consults op = true → t.committed op = { t with edits := edits } ∧
      (t.committed op).finish = stitchMerged t.originalText t.edits (t.merged op) := by
    intro hconsults
    obtain ⟨hperform, hmerge, -⟩ := hrejected hconsults
    have hcommit : t.committed op = { t with edits := edits } := by
      rw [TextEditor.committed, hperform none]
      rfl
    exact ⟨hcommit, by rw [hcommit, TextEditor.finish, stitchMerged, hmerge]⟩
  constructor
  · intro hconsults check
    obtain ⟨hcommit, hfinish⟩ := hcommitted hconsults
    rw [(hrejected hconsults).1, hfinish, hcommit]
    cases hcheck : check (stitchMerged t.originalText t.edits (t.merged op)) <;>
      simp [checkerRejects, hcheck]
  · exact fun hconsults => hkept fun hno => by simp [consults_iff.mpr hno] at hconsults
  · exact fun hconsults => (hcommitted hconsults).2
  · intro hconsults
    obtain ⟨-, hmerge, hall⟩ := hrejected hconsults
    refine hall.mergedLen_isSome ?_ hlen
    rw [← hmerge]
    exact List.merge_perm_append _

theorem apply_faithful {t : TextEditor} (h : Accepted t.originalLen t.edits)
    (hlen : t.originalLen ≤ t.originalText.length) (edit : TextEdit)
    (checker : Option (Bytes → Bool)) : SimulationFaithful t (.apply edit checker) := by
  refine .of_commit (t.edits.insertIdx (searchIdx t edit) edit) (fun hconsults => ?_)
    (fun hkept check => apply_of_ne_rejected hkept _) hlen
  obtain ⟨hb, hfree, hperform⟩ := apply_of_rejected (consults_iff.mp hconsults)
  have hall := apply_accepted h edit none
  rw [hperform none] at hall
  exact ⟨hperform, merge_eq_insertIdx h hb.1 hfree, hall⟩

theorem applyBatch_faithful {t : TextEditor} (h : Accepted t.originalLen t.edits)
    (hlen : t.originalLen ≤ t.originalText.length) {newEdits : List TextEdit}
    (hseen : BatchSeen t newEdits) (checker : Option (Bytes → Bool)) :
    SimulationFaithful t (.applyBatch newEdits checker) := by
  refine .of_commit (sortEdits (t.edits ++ sortEdits newEdits)) (fun hconsults => ?_)
    (fun hkept check => applyBatch_of_ne_rejected hkept _) hlen
  obtain ⟨-, -, hperform⟩ := applyBatch_of_rejected (consults_iff.mp hconsults)
  have hall := applyBatch_accepted h hseen none
  rw [hperform none] at hall
  exact ⟨hperform, merge_eq_sortEdits h.sorted, hall⟩

/-- In every run whose batches have all their conflicts seen, the checker of an operation
with that property sees the bytes of the editor after the commit. -/
theorem simulation_faithful_of_run {text : Bytes} {threshold : Safety} {t : TextEditor}
    (h : Run BatchConflictsSeen text threshold t) {op : Operation}
    (hop : BatchConflictsSeen t op) : SimulationFaithful t op := by
  have haccepted := h.accepted_originalLen
  have hlen : t.originalLen ≤ t.originalText.length := by
    rw [h.frame.1, h.frame.2.1]
    exact Nat.mod_le _ _
  cases op with
  | apply edit checker => exact apply_faithful haccepted hlen edit checker
  | applyBatch newEdits checker => exact applyBatch_faithful haccepted hlen hop checker
  | applyUniqueBatch newEdits checker =>
    have hbatch := applyBatch_faithful haccepted hlen hop checker
    exact ⟨hbatch.agrees, hbatch.unconsulted, hbatch.simulated, hbatch.capacity⟩

/-- A checker that accepts everything, on an insertion behind the batch of the first run. -/
def checkedInsertion : Operation := .applyBatch [.insert 5 [33]] (some fun _ => true)

theorem simulation_faithful_of_run_checked_insertion :
    SimulationFaithful ((TextEditor.withSafety hello .Unsafe).perform insertThenReplace).2
      checkedInsertion := by
  have hfirst : Run BatchConflictsSeen hello .Unsafe
      ((TextEditor.withSafety hello .Unsafe).perform insertThenReplace).2 :=
    .perform .start (by decide)
  exact simulation_faithful_of_run hfirst (by decide)

def maskedCheckedBatch : Operation := .applyBatch [.replace ⟨0, 3⟩ [122]] (some fun _ => true)

/-- The merged length underflows at `0..5`, when `0..3` has left four bytes. -/
theorem masked_simulation_underflows :
    ∃ t op, Run (fun _ _ => True) hello .Unsafe t ∧ ¬ SimulationFaithful t op := by
  refine ⟨((TextEditor.withSafety hello .Unsafe).perform maskingBatch).2, maskedCheckedBatch,
    .perform .start trivial, ?_⟩
  intro h
  exact absurd (h.capacity (by decide)) (by decide)

end Mago.Editing
