import Mago.Reporting.Agreement

/-!
# Pruning a baseline

Pruning keeps what a baseline and a collection of issues share. A strict baseline loses the
rows that no issue reports. A loose one caps the count of each row and sorts the rows, while
filtering takes the count of the last row of a group.
-/
namespace Mago.Reporting
open Library Storage

variable {π : Type*}

/-! ## Strict baselines -/

namespace StrictBaseline

/-- Whether a row is in the entry of a file. -/
def lists (b : StrictBaseline) (path : Text) (row : StrictBaselineIssue) : Bool :=
  match b.entries.get? path with
  | some entry => decide (row ∈ entry.issues)
  | none => false

theorem lists_iff {b : StrictBaseline} {path : Text} {row : StrictBaselineIssue} :
    b.lists path row = true ↔ ListedIn b.entries (path, row) := by
  unfold lists ListedIn
  cases b.entries.get? path <;> simp

/-- The rows of a file that a current baseline lists, unless there are none. -/
def keptEntry (current : StrictBaseline) (path : Text) (entry : StrictBaselineEntry) :
    Option StrictBaselineEntry :=
  let kept := entry.issues.filter (current.lists path)
  if kept.isEmpty then none else some ⟨kept⟩

/-- The baseline without stale rows and the number of these. -/
def pruneOutdatedEntries (b : StrictBaseline) (issues : IssueCollection) (db : ReadDatabase π) :
    StrictBaseline × ℕ :=
  let current := generateFromIssues issues db
  (⟨b.entries.filterMapValues current.keptEntry⟩,
    (b.entries.entries.map fun e => e.2.issues.countP fun row => !current.lists e.1 row).sum)

theorem listedIn_keptEntry {current b : StrictBaseline} {row : Text × StrictBaselineIssue} :
    ListedIn (b.entries.filterMapValues current.keptEntry) row ↔
      ListedIn b.entries row ∧ ListedIn current.entries row := by
  rw [← lists_iff (b := current)]
  unfold ListedIn
  rw [SortedMap.get?_filterMapValues]
  cases b.entries.get? row.1 with
  | none => simp
  | some entry =>
    simp only [Option.bind_some, keptEntry, Option.some_inj, exists_eq_left']
    split_ifs with hempty
    · rw [List.isEmpty_iff, List.filter_eq_nil_iff] at hempty
      simpa using hempty row.2
    · simp

section Prune

variable (b : StrictBaseline) (issues : IssueCollection) (db : ReadDatabase π)

theorem listedIn_pruneOutdatedEntries {row : Text × StrictBaselineIssue} :
    ListedIn (b.pruneOutdatedEntries issues db).1.entries row ↔
      ListedIn b.entries row ∧ Reported db issues row := by
  rw [← listedIn_generateFromIssues]
  exact listedIn_keptEntry

/-- Filtering looks only at the rows that the issues report. -/
theorem filterIssues_congr {b b' : StrictBaseline} {issues : IssueCollection}
    {db : ReadDatabase π}
    (h : ∀ row, Reported db issues row → (ListedIn b.entries row ↔ ListedIn b'.entries row)) :
    b.filterIssues issues db = b'.filterIssues issues db := by
  refine List.filter_congr fun issue hissue => ?_
  cases hfound : locate db issue with
  | none => rfl
  | some found =>
    have hrow : strictRow db issue =
        some (normalizePath found.2.name, strictIssue found.1 found.2 issue) := by
      rw [strictRow, hfound, Option.map_some]
    have hiff := h _ ⟨issue, hissue, hrow⟩
    have hlists := Bool.eq_iff_iff.mpr (lists_iff.trans (hiff.trans lists_iff.symm))
    unfold lists at hlists
    cases hget : b.entries.get? (normalizePath found.2.name) with
    | none =>
      cases hget' : b'.entries.get? (normalizePath found.2.name) with
      | none => simp [hget, hget']
      | some entry' => simpa [hget, hget'] using hlists
    | some entry =>
      cases hget' : b'.entries.get? (normalizePath found.2.name) <;>
        simpa [hget, hget'] using hlists

theorem filterIssues_pruneOutdatedEntries :
    (b.pruneOutdatedEntries issues db).1.filterIssues issues db = b.filterIssues issues db := by
  refine filterIssues_congr fun row hrow => ?_
  rw [listedIn_pruneOutdatedEntries]
  exact and_iff_left hrow

theorem removedIssues_pruneOutdatedEntries (order : VisitOrder) :
    ((b.pruneOutdatedEntries issues db).1.compareWithIssues order issues db).removedIssues =
      [] := by
  rw [removedIssues_eq_nil_iff]
  intro row hrow
  exact (listedIn_pruneOutdatedEntries b issues db |>.mp hrow).2

/-- Nothing is stale exactly when every row is reported. -/
theorem pruneOutdatedEntries_count_eq_zero_iff :
    (b.pruneOutdatedEntries issues db).2 = 0 ↔
      ∀ row, ListedIn b.entries row → Reported db issues row := by
  simp only [← listedIn_generateFromIssues]
  rw [forall_listedIn_iff (P := fun path row => ListedIn (generateFromIssues issues db).entries
    (path, row))]
  simp only [pruneOutdatedEntries, List.sum_eq_zero_iff, List.mem_map, forall_exists_index,
    and_imp, forall_apply_eq_imp_iff₂, List.countP_eq_zero, Bool.not_eq_true', lists_iff,
    Bool.not_eq_false]

theorem pruneOutdatedEntries_twice :
    ((b.pruneOutdatedEntries issues db).1.pruneOutdatedEntries issues db).2 = 0 := by
  rw [pruneOutdatedEntries_count_eq_zero_iff]
  intro row hrow
  exact (listedIn_pruneOutdatedEntries b issues db |>.mp hrow).2

end Prune

end StrictBaseline

/-! ## Loose baselines -/

/-- The largest count in the rows of a group, zero for a group without one. -/
def largestCount (rows : List LooseBaselineIssue) (key : LooseKey) : ℕ :=
  ((rows.filter fun row => decide (row.key = key)).map LooseBaselineIssue.count).foldr max 0

theorem largestCount_le_iff {rows : List LooseBaselineIssue} {key : LooseKey} {n : ℕ} :
    largestCount rows key ≤ n ↔ ∀ row ∈ rows, row.key = key → row.count ≤ n := by
  unfold largestCount
  induction rows with
  | nil => simp
  | cons row rows ih =>
    by_cases hkey : row.key = key
    · simp [hkey, ← ih]
    · simp [hkey, ← ih]

namespace LooseBaseline

/-- A row with its count capped. -/
def capped (current : OrderedMap LooseKey ℕ) (row : LooseBaselineIssue) : LooseBaselineIssue :=
  { row with count := min row.count (countOf current row.key) }

/-- The baseline with capped counts and the number of occurrences taken off. -/
def pruneOutdatedEntries (order : VisitOrder) (b : LooseBaseline) (issues : IssueCollection)
    (db : ReadDatabase π) : LooseBaseline × ℕ :=
  let current := (generateFromIssues order issues db).counts
  let kept := (b.issues.map (capped current)).filter fun row => decide (0 < row.count)
  (⟨kept.insertionSort (· ≤ ·)⟩,
    (b.issues.map fun row => row.count - (capped current row).count).sum)

/-! ### What filtering takes out -/

theorem filterLoop_cons_of_none {db : ReadDatabase π} {issue : Issue}
    (h : looseGroup db issue = none) (remaining : OrderedMap LooseKey ℕ)
    (issues : IssueCollection) :
    filterLoop db remaining (issue :: issues) = issue :: filterLoop db remaining issues := by
  rw [looseGroup, Option.map_eq_none_iff] at h
  rw [filterLoop, h]

theorem filterLoop_cons_of_some {db : ReadDatabase π} {issue : Issue} {key : LooseKey}
    (h : looseGroup db issue = some key) (remaining : OrderedMap LooseKey ℕ)
    (issues : IssueCollection) :
    filterLoop db remaining (issue :: issues) =
      if countOf remaining key = 0 then issue :: filterLoop db remaining issues
      else filterLoop db (remaining.insert key (countOf remaining key - 1)) issues := by
  rw [looseGroup, Option.map_eq_some_iff] at h
  obtain ⟨found, hfound, rfl⟩ := h
  rw [filterLoop, hfound]
  unfold countOf
  cases hget : remaining.get? (looseKey found.2 issue) with
  | none => simp [hget]
  | some count => cases count <;> simp [hget]

/-- Of a group the loop keeps the issues above the count that remains. -/
theorem occurrences_filterLoop (db : ReadDatabase π) (issues : IssueCollection)
    (remaining : OrderedMap LooseKey ℕ) (key : LooseKey) :
    occurrences db (filterLoop db remaining issues) key =
      occurrences db issues key - countOf remaining key := by
  induction issues generalizing remaining with
  | nil => simp [filterLoop, occurrences]
  | cons issue issues ih =>
    rw [occurrences_cons]
    cases hgroup : looseGroup db issue with
    | none => simp [filterLoop_cons_of_none hgroup, occurrences_cons, hgroup, ih]
    | some group =>
      rw [filterLoop_cons_of_some hgroup]
      by_cases hzero : countOf remaining group = 0
      · rw [if_pos hzero, occurrences_cons, ih, hgroup]
        simp only [Option.some_inj]
        split_ifs with hkey
        · subst hkey
          omega
        · rfl
      · rw [if_neg hzero, ih, countOf_insert]
        simp only [Option.some_inj]
        split_ifs with hkey hgroup' hgroup'
        · subst hkey
          omega
        · exact absurd hkey.symm hgroup'
        · exact absurd hgroup'.symm hkey
        · rfl

/-- Two maps of counts take the same issues out exactly when they agree up to the number of
issues in each group. -/
theorem filterLoop_eq_iff (db : ReadDatabase π) (issues : IssueCollection)
    (remaining remaining' : OrderedMap LooseKey ℕ) :
    filterLoop db remaining issues = filterLoop db remaining' issues ↔
      ∀ key, min (countOf remaining key) (occurrences db issues key) =
        min (countOf remaining' key) (occurrences db issues key) := by
  constructor
  · intro h key
    have hkept := congrArg (fun kept => occurrences db kept key) h
    simp only [occurrences_filterLoop] at hkept
    omega
  · intro h
    induction issues generalizing remaining remaining' with
    | nil => rfl
    | cons issue issues ih =>
      simp only [occurrences_cons] at h
      cases hgroup : looseGroup db issue with
      | none =>
        rw [filterLoop_cons_of_none hgroup, filterLoop_cons_of_none hgroup]
        simp only [hgroup, reduceCtorEq, if_false, Nat.add_zero] at h
        rw [ih _ _ h]
      | some group =>
        rw [filterLoop_cons_of_some hgroup, filterLoop_cons_of_some hgroup]
        simp only [hgroup, Option.some_inj] at h
        have hself := h group
        rw [if_pos rfl] at hself
        by_cases hzero : countOf remaining group = 0
        · have hzero' : countOf remaining' group = 0 := by omega
          rw [if_pos hzero, if_pos hzero', ih]
          intro key
          have hkey := h key
          split_ifs at hkey with hgroup'
          · subst hgroup'
            rw [hzero, hzero']
          · exact hkey
        · have hzero' : countOf remaining' group ≠ 0 := by omega
          rw [if_neg hzero, if_neg hzero']
          refine ih _ _ fun key => ?_
          have hkey := h key
          rw [countOf_insert, countOf_insert]
          split_ifs with hgroup'
          · rw [if_pos hgroup'.symm, hgroup'] at hkey
            rw [hgroup']
            omega
          · rwa [if_neg (Ne.symm hgroup')] at hkey

/-! ### The counts of a pruned baseline -/

theorem counts_append (rows : List LooseBaselineIssue) (row : LooseBaselineIssue) :
    counts ⟨rows ++ [row]⟩ = (counts ⟨rows⟩).insert row.key row.count := by
  simp [counts, OrderedMap.ofList, OrderedMap.extend]

theorem largestCount_append (rows : List LooseBaselineIssue) (row : LooseBaselineIssue)
    (key : LooseKey) : largestCount (rows ++ [row]) key =
      max (largestCount rows key) (if row.key = key then row.count else 0) := by
  refine eq_of_forall_ge_iff fun n => ?_
  rw [max_le_iff, largestCount_le_iff, largestCount_le_iff, List.forall_mem_append]
  split_ifs with hkey <;> simp [hkey]

/-- A row of the same group with a smaller count stands before. -/
theorem count_le_of_le {row row' : LooseBaselineIssue} (h : row ≤ row')
    (hkey : row.key = row'.key) : row.count ≤ row'.count := by
  have hle : row.toLexicographic ≤ row'.toLexicographic := h
  simp only [LooseBaselineIssue.key, Prod.mk.injEq] at hkey
  obtain ⟨hfile, hcode, hmessage⟩ := hkey
  simpa [LooseBaselineIssue.toLexicographic, Prod.Lex.toLex_le_toLex, hfile, hcode,
    hmessage] using hle

/-- In sorted rows the last count of a group is its largest. -/
theorem countOf_counts_of_sorted {rows : List LooseBaselineIssue}
    (h : rows.Pairwise (· ≤ ·)) (key : LooseKey) :
    countOf (counts ⟨rows⟩) key = largestCount rows key := by
  induction rows using List.reverseRecOn with
  | nil => rfl
  | append_singleton rows row ih =>
    obtain ⟨hrows, -, hlast⟩ := List.pairwise_append.mp h
    rw [counts_append, countOf_insert, largestCount_append, ih hrows]
    by_cases hkey : key = row.key
    · have hle : largestCount rows key ≤ row.count := by
        rw [largestCount_le_iff]
        intro other hother hsame
        exact count_le_of_le (hlast other hother row (by simp)) (hsame.trans hkey)
      rw [if_pos hkey, if_pos hkey.symm, max_eq_right hle]
    · rw [if_neg hkey, if_neg (Ne.symm hkey), Nat.max_zero]

theorem countOf_counts_of_nodup {b : LooseBaseline}
    (h : (b.issues.map LooseBaselineIssue.key).Nodup) (key : LooseKey) :
    countOf b.counts key = largestCount b.issues key := by
  have hperm := List.perm_insertionSort (· ≤ ·) b.issues
  have hkeys : ((b.issues.map fun row => (row.key, row.count)).map Prod.fst).Nodup := by
    rwa [List.map_map]
  have hget : b.counts.get? key = (counts ⟨b.issues.insertionSort (· ≤ ·)⟩).get? key := by
    ext count
    rw [counts, counts, OrderedMap.get?_ofList hkeys, OrderedMap.get?_ofList]
    · exact ((hperm.map _).mem_iff).symm
    · exact ((hperm.map _).map _).nodup_iff.mpr hkeys
  have hcount : countOf b.counts key =
      countOf (counts ⟨b.issues.insertionSort (· ≤ ·)⟩) key := by
    rw [countOf, countOf, hget]
  rw [hcount, countOf_counts_of_sorted (List.pairwise_insertionSort _ _)]
  refine eq_of_forall_ge_iff fun n => ?_
  simp only [largestCount_le_iff, hperm.mem_iff]

section Prune

variable (order order' : VisitOrder) (b : LooseBaseline) (issues : IssueCollection)
  (db : ReadDatabase π)

theorem mem_pruneOutdatedEntries {row : LooseBaselineIssue} :
    row ∈ (b.pruneOutdatedEntries order issues db).1.issues ↔
      0 < row.count ∧ ∃ old ∈ b.issues,
        { old with count := min old.count (occurrences db issues old.key % 2 ^ 32) } = row := by
  simp only [pruneOutdatedEntries, List.mem_insertionSort, List.mem_filter, List.mem_map, capped,
    counts_generateFromIssues, decide_eq_true_eq]
  exact and_comm

theorem largestCount_pruneOutdatedEntries (key : LooseKey) :
    largestCount (b.pruneOutdatedEntries order issues db).1.issues key =
      min (largestCount b.issues key) (occurrences db issues key % 2 ^ 32) := by
  refine eq_of_forall_ge_iff fun n => ?_
  rw [min_le_iff, largestCount_le_iff, largestCount_le_iff]
  simp only [mem_pruneOutdatedEntries]
  constructor
  · intro h
    rw [or_iff_not_imp_right]
    intro hn row hrow hkey
    subst hkey
    by_contra hcount
    have := h { row with count := min row.count (occurrences db issues row.key % 2 ^ 32) }
      ⟨by dsimp only; omega, row, hrow, rfl⟩ rfl
    dsimp only at this
    omega
  · intro h row hrow hkey
    obtain ⟨-, old, hold, rfl⟩ := hrow
    have hkey' : old.key = key := hkey
    dsimp only
    rw [hkey', min_le_iff]
    exact h.imp_left fun hall => hall old hold hkey'

theorem countOf_pruneOutdatedEntries (key : LooseKey) :
    countOf (b.pruneOutdatedEntries order issues db).1.counts key =
      min (largestCount b.issues key) (occurrences db issues key % 2 ^ 32) := by
  rw [← largestCount_pruneOutdatedEntries order]
  exact countOf_counts_of_sorted (List.pairwise_insertionSort _ _) key

theorem filterIssues_pruneOutdatedEntries_iff :
    (b.pruneOutdatedEntries order issues db).1.filterIssues issues db =
        b.filterIssues issues db ↔
      ∀ key, min (countOf b.counts key) (occurrences db issues key) =
        min (largestCount b.issues key) (occurrences db issues key % 2 ^ 32) := by
  rw [filterIssues, filterIssues, filterLoop_eq_iff]
  refine forall_congr' fun key => ?_
  have hmod := Nat.mod_le (occurrences db issues key) (2 ^ 32)
  rw [countOf_pruneOutdatedEntries]
  omega

theorem removedIssues_pruneOutdatedEntries :
    ((b.pruneOutdatedEntries order issues db).1.compareWithIssues order' issues
      db).removedIssues = [] := by
  simp only [compareWithIssues, excess_eq_nil_iff, counts_generateFromIssues,
    countOf_pruneOutdatedEntries]
  exact fun key => min_le_right _ _

theorem pruneOutdatedEntries_twice :
    ((b.pruneOutdatedEntries order issues db).1.pruneOutdatedEntries order' issues db).2 = 0 := by
  rw [pruneOutdatedEntries, List.sum_eq_zero_iff]
  simp only [List.mem_map, mem_pruneOutdatedEntries, capped, counts_generateFromIssues]
  intro taken h
  obtain ⟨row, ⟨-, old, -, rfl⟩, rfl⟩ := h
  have hkey : LooseBaselineIssue.key
      { old with count := min old.count (occurrences db issues old.key % 2 ^ 32) } =
        old.key := rfl
  dsimp only
  rw [hkey]
  omega

end Prune

end LooseBaseline

/-! ## Either variant -/

/-- The baseline without what is outdated and the number of occurrences removed. -/
def Baseline.pruneOutdatedEntries (order : VisitOrder) (b : Baseline) (issues : IssueCollection)
    (db : ReadDatabase π) : Baseline × ℕ :=
  match b with
  | strict b =>
    let pruned := b.pruneOutdatedEntries issues db
    (strict pruned.1, pruned.2)
  | loose b =>
    let pruned := b.pruneOutdatedEntries order issues db
    (loose pruned.1, pruned.2)

/-- Pruning removes dead rows only: the issues are filtered as before, and for the pruned
baseline nothing is removed, whatever the order in which later maps are visited. -/
structure PrunesDeadRows (order : VisitOrder) (b : Baseline) (issues : IssueCollection)
    (db : ReadDatabase π) : Prop where
  filterIssues : (b.pruneOutdatedEntries order issues db).1.filterIssues issues db =
    b.filterIssues issues db
  removedIssues : ∀ order', ((b.pruneOutdatedEntries order issues db).1.compareWithIssues order'
    issues db).removedIssues = []
  again : ∀ order',
    ((b.pruneOutdatedEntries order issues db).1.pruneOutdatedEntries order' issues db).2 = 0

/-- The last row of a group in a loose baseline counts as many of its issues as the row with
the largest count, where the counter of the group is what pruning goes by. -/
def LastRowIsLargest (db : ReadDatabase π) (issues : IssueCollection) : Baseline → Prop
  | .strict _ => True
  | .loose b => ∀ key, min (countOf b.counts key) (occurrences db issues key) =
      min (largestCount b.issues key) (occurrences db issues key % 2 ^ 32)

theorem prunesDeadRows_iff (order : VisitOrder) (b : Baseline) (issues : IssueCollection)
    (db : ReadDatabase π) :
    PrunesDeadRows order b issues db ↔ LastRowIsLargest db issues b := by
  cases b with
  | strict b =>
    refine iff_of_true ⟨?_, fun order' => ?_, fun order' => ?_⟩ trivial
    · exact b.filterIssues_pruneOutdatedEntries issues db
    · exact b.removedIssues_pruneOutdatedEntries issues db order'
    · exact b.pruneOutdatedEntries_twice issues db
  | loose b =>
    have hfilter := b.filterIssues_pruneOutdatedEntries_iff order issues db
    constructor
    · intro h
      exact hfilter.mp h.filterIssues
    · intro h
      exact ⟨hfilter.mpr h,
        fun order' => b.removedIssues_pruneOutdatedEntries order order' issues db,
        fun order' => b.pruneOutdatedEntries_twice order order' issues db⟩

/-- A baseline with one row for each group, as a generated one has, is filtered as before when
the counters fit. -/
theorem lastRowIsLargest_of_nodup {b : LooseBaseline} {issues : IssueCollection}
    {db : ReadDatabase π} (hrows : (b.issues.map LooseBaselineIssue.key).Nodup)
    (hfit : CountsFit db issues) : LastRowIsLargest db issues (.loose b) := by
  intro key
  rw [LooseBaseline.countOf_counts_of_nodup hrows, Nat.mod_eq_of_lt (hfit key)]

/-! Two rows of one group, as after two baselines were joined by hand: the last one counts one
issue, the other one five. -/

def joinedRows : LooseBaseline :=
  ⟨[⟨['a'], ['E'], ['m'], 5⟩, ⟨['a'], ['E'], ['m'], 1⟩]⟩

/-- Filtering takes out one of two issues, and both of them after pruning. -/
theorem joined_rows_filter_more : ¬ PrunesDeadRows listOrder (.loose joinedRows)
    (oneIssue ++ oneIssue) oneFile := by
  intro h
  have hkept := congrArg List.length h.filterIssues
  revert hkept
  decide

end Mago.Reporting
