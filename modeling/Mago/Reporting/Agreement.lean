import Mago.Reporting.Baseline

/-!
# Filtering and comparing with a baseline

Both operations of a strict baseline depend on the rows it lists for each file, except for
the flag of the comparison, which looks at the lists themselves. Both operations of a loose
baseline compare the number of issues in a group with the count of the group.
-/
namespace Mago.Reporting
open Library Storage

variable {π : Type*}

/-- An issue with a baseline annotation in a known file. -/
def Located (db : ReadDatabase π) (issue : Issue) : Prop := (locate db issue).isSome = true

/-! ## Strict baselines -/

/-- The file and the row of an issue in a strict baseline. -/
def strictRow (db : ReadDatabase π) (issue : Issue) : Option (Text × StrictBaselineIssue) :=
  (locate db issue).map fun found =>
    (normalizePath found.2.name, strictIssue found.1 found.2 issue)

theorem located_iff_strictRow {db : ReadDatabase π} {issue : Issue} :
    Located db issue ↔ ∃ row, strictRow db issue = some row := by
  simp [Located, strictRow, Option.isSome_iff_exists]

/-- The rows of the issues of a collection. -/
def Reported (db : ReadDatabase π) (issues : IssueCollection) (row : Text × StrictBaselineIssue) :
    Prop := ∃ issue ∈ issues, strictRow db issue = some row

/-- The rows in the entries of a map. -/
def ListedIn (entries : SortedMap Text StrictBaselineEntry) (row : Text × StrictBaselineIssue) :
    Prop := ∃ entry, entries.get? row.1 = some entry ∧ row.2 ∈ entry.issues

/-- The form in which baselines are generated: no file without an issue, the issues of a file
in order and without repetition. -/
def Canonical (entries : SortedMap Text StrictBaselineEntry) : Prop :=
  ∀ path entry, entries.get? path = some entry → entry.issues ≠ [] ∧ entry.issues.SortedLT

/-- Canonical maps that list the same rows are equal. -/
theorem Canonical.eq_of_listedIn {entries others : SortedMap Text StrictBaselineEntry}
    (h : Canonical entries) (hothers : Canonical others)
    (hlisted : ∀ row, ListedIn entries row ↔ ListedIn others row) : entries = others := by
  have hsub : ∀ {m m'}, Canonical m → (∀ row, ListedIn m row ↔ ListedIn m' row) →
      ∀ {path entry}, m.get? path = some entry → ∃ entry', m'.get? path = some entry' := by
    intro m m' hm hrows path entry hentry
    obtain ⟨row, hrow⟩ := List.exists_mem_of_ne_nil _ (hm path entry hentry).1
    obtain ⟨entry', hentry', -⟩ := (hrows (path, row)).mp ⟨entry, hentry, hrow⟩
    exact ⟨entry', hentry'⟩
  refine SortedMap.ext_get? fun path => ?_
  cases hget : entries.get? path with
  | none =>
    cases hget' : others.get? path with
    | none => rfl
    | some entry' =>
      obtain ⟨entry, hentry⟩ := hsub hothers (fun row => (hlisted row).symm) hget'
      simp [hget] at hentry
  | some entry =>
    obtain ⟨entry', hget'⟩ := hsub h hlisted hget
    have hmem : ∀ row, row ∈ entry.issues ↔ row ∈ entry'.issues := by
      intro row
      have := hlisted (path, row)
      simpa [ListedIn, hget, hget'] using this
    have heq := (h path entry hget).2.eq_of_mem_iff (hothers path entry' hget').2 hmem
    rw [hget']
    cases entry
    cases entry'
    simpa using heq

namespace StrictBaseline

/-- What the loop of the generator keeps: no entry is empty or repeats an issue. -/
def Distinct (entries : SortedMap Text StrictBaselineEntry) : Prop :=
  ∀ path entry, entries.get? path = some entry → entry.issues ≠ [] ∧ entry.issues.Nodup

theorem distinct_empty : Distinct SortedMap.empty := by simp [Distinct]

theorem distinct_record (db : ReadDatabase π) {entries : SortedMap Text StrictBaselineEntry}
    (h : Distinct entries) (issue : Issue) : Distinct (record db entries issue) := by
  unfold record
  split
  · exact h
  · rename_i a file _
    intro path entry hentry
    by_cases hpath : path = normalizePath file.name
    · subst hpath
      rw [SortedMap.get?_alter_self, Option.some_inj] at hentry
      subst hentry
      have hnodup : ((entries.get? (normalizePath file.name)).getD ⟨[]⟩).issues.Nodup := by
        cases hget : entries.get? (normalizePath file.name) with
        | none => exact List.nodup_nil
        | some entry => exact (h _ _ hget).2
      dsimp only
      split_ifs with hmem
      · exact ⟨List.ne_nil_of_mem hmem, hnodup⟩
      · refine ⟨by simp, ?_⟩
        exact List.nodup_append_comm.mp (List.nodup_cons.mpr ⟨hmem, hnodup⟩)
    · rw [SortedMap.get?_alter_of_ne _ hpath] at hentry
      exact h path entry hentry

theorem listedIn_record {db : ReadDatabase π} {entries : SortedMap Text StrictBaselineEntry}
    {issue : Issue} {row : Text × StrictBaselineIssue} :
    ListedIn (record db entries issue) row ↔
      ListedIn entries row ∨ strictRow db issue = some row := by
  unfold record strictRow
  cases locate db issue with
  | none => simp
  | some found =>
    obtain ⟨a, file⟩ := found
    obtain ⟨path, baselineIssue⟩ := row
    simp only [ListedIn, Option.map_some, Option.some_inj, Prod.mk.injEq]
    by_cases hpath : path = normalizePath file.name
    · subst hpath
      rw [SortedMap.get?_alter_self]
      cases hget : entries.get? (normalizePath file.name) with
      | none => simp [eq_comm]
      | some entry =>
        by_cases hmem : strictIssue a file issue ∈ entry.issues
        · have hself : strictIssue a file issue = baselineIssue →
              baselineIssue ∈ entry.issues := fun heq => heq ▸ hmem
          simpa [hmem] using hself
        · simp [hmem, eq_comm]
    · rw [SortedMap.get?_alter_of_ne _ hpath]
      simp [Ne.symm hpath]

theorem record_foldl (db : ReadDatabase π) (issues : IssueCollection)
    {entries : SortedMap Text StrictBaselineEntry} (h : Distinct entries) :
    Distinct (issues.foldl (record db) entries) ∧
      ∀ row, ListedIn (issues.foldl (record db) entries) row ↔
        ListedIn entries row ∨ Reported db issues row := by
  induction issues generalizing entries with
  | nil => exact ⟨h, fun row => by simp [Reported]⟩
  | cons issue issues ih =>
    obtain ⟨hdistinct, hlisted⟩ := ih (distinct_record db h issue)
    refine ⟨hdistinct, fun row => ?_⟩
    rw [List.foldl_cons, hlisted, listedIn_record]
    simp [Reported, or_assoc]

theorem canonical_generateFromIssues (issues : IssueCollection) (db : ReadDatabase π) :
    Canonical (generateFromIssues issues db).entries := by
  intro path entry hentry
  have hdistinct := (record_foldl db issues distinct_empty).1
  simp only [generateFromIssues, SortedMap.get?_mapValues, Option.map_eq_some_iff] at hentry
  obtain ⟨raw, hraw, rfl⟩ := hentry
  obtain ⟨hne, hnodup⟩ := hdistinct path raw hraw
  refine ⟨fun hnil => hne ?_, ?_⟩
  · exact List.perm_nil.mp (hnil ▸ (List.perm_insertionSort (· ≤ ·) raw.issues).symm)
  · refine List.sortedLT_iff_nodup_and_sortedLE.mpr ⟨?_, ?_⟩
    · exact (List.perm_insertionSort _ _).nodup_iff.mpr hnodup
    · exact (List.pairwise_insertionSort _ _).sortedLE

theorem listedIn_generateFromIssues {issues : IssueCollection} {db : ReadDatabase π}
    {row : Text × StrictBaselineIssue} :
    ListedIn (generateFromIssues issues db).entries row ↔ Reported db issues row := by
  have hlisted := (record_foldl db issues distinct_empty).2 row
  have hempty : ¬ ListedIn SortedMap.empty row := by simp [ListedIn]
  rw [or_iff_right hempty] at hlisted
  rw [← hlisted]
  simp [ListedIn, generateFromIssues, SortedMap.get?_mapValues]

theorem difference_eq_nil_iff {order : VisitOrder} {issues others : List StrictBaselineIssue} :
    difference order issues others = [] ↔ ∀ issue ∈ issues, issue ∈ others := by
  simp [difference, List.filter_eq_nil_iff, (order.perm _).mem_iff]

theorem newIn_eq_nil_iff {order : VisitOrder} {b : StrictBaseline}
    {e : Text × StrictBaselineEntry} (he : e.2.issues ≠ []) :
    newIn order b e = [] ↔ ∀ row ∈ e.2.issues, ListedIn b.entries (e.1, row) := by
  unfold newIn ListedIn
  cases hget : b.entries.get? e.1 with
  | none =>
    obtain ⟨row, hrow⟩ := List.exists_mem_of_ne_nil _ he
    simpa [he, hget] using ⟨row, hrow⟩
  | some entry => simp [hget, difference_eq_nil_iff]

theorem removedIn_eq_nil_iff {order : VisitOrder} {b : StrictBaseline}
    {e : Text × StrictBaselineEntry} : removedIn order b e = [] ↔
      ∀ row, ListedIn b.entries (e.1, row) → row ∈ e.2.issues := by
  unfold removedIn ListedIn
  cases hget : b.entries.get? e.1 <;> simp [hget, difference_eq_nil_iff]

theorem removedWith_eq_nil_iff {current : StrictBaseline} {e : Text × StrictBaselineEntry} :
    removedWith current e = [] ↔ current.entries.get? e.1 = none → e.2.issues = [] := by
  unfold removedWith
  cases hget : current.entries.get? e.1 <;> simp

theorem forall_listedIn_iff {entries : SortedMap Text StrictBaselineEntry}
    {P : Text → StrictBaselineIssue → Prop} : (∀ row, ListedIn entries row → P row.1 row.2) ↔
      ∀ e ∈ entries.entries, ∀ issue ∈ e.2.issues, P e.1 issue := by
  simp only [ListedIn, SortedMap.get?_eq_some_iff]
  constructor
  · intro h e he issue hissue
    exact h (e.1, issue) ⟨e.2, he, hissue⟩
  · intro h row hrow
    obtain ⟨entry, he, hissue⟩ := hrow
    exact h (row.1, entry) he row.2 hissue

section Compare

variable (order : VisitOrder) (b : StrictBaseline) (issues : IssueCollection)
  (db : ReadDatabase π)

theorem newIssues_eq_nil_iff : (b.compareWithIssues order issues db).newIssues = [] ↔
    ∀ row, Reported db issues row → ListedIn b.entries row := by
  have hcanonical := canonical_generateFromIssues issues db
  simp only [← listedIn_generateFromIssues]
  unfold compareWithIssues
  dsimp only
  split_ifs with heq
  · simp [heq]
  · dsimp only
    rw [List.flatMap_eq_nil_iff, forall_listedIn_iff (P := fun path row => ListedIn b.entries (path, row))]
    refine forall₂_congr fun e he => newIn_eq_nil_iff ?_
    exact (hcanonical e.1 e.2 (SortedMap.get?_eq_some_iff.mpr he)).1

theorem removedIssues_eq_nil_iff : (b.compareWithIssues order issues db).removedIssues = [] ↔
    ∀ row, ListedIn b.entries row → Reported db issues row := by
  simp only [← listedIn_generateFromIssues]
  unfold compareWithIssues
  dsimp only
  split_ifs with heq
  · simp [heq]
  · dsimp only
    rw [List.append_eq_nil_iff, List.flatMap_eq_nil_iff, List.flatMap_eq_nil_iff]
    simp only [removedIn_eq_nil_iff, removedWith_eq_nil_iff]
    constructor
    · intro h row hrow
      obtain ⟨entry, hentry, hissue⟩ := hrow
      cases hget : (generateFromIssues issues db).entries.get? row.1 with
      | none =>
        have hnil := h.2 (row.1, entry) (SortedMap.get?_eq_some_iff.mp hentry) hget
        rw [hnil] at hissue
        exact absurd hissue List.not_mem_nil
      | some current =>
        exact ⟨current, hget, h.1 (row.1, current) (SortedMap.get?_eq_some_iff.mp hget) row.2
          ⟨entry, hentry, hissue⟩⟩
    · intro h
      refine ⟨fun e he row hrow => ?_, fun e he hnone => ?_⟩
      · obtain ⟨current, hcurrent, hissue⟩ := h (e.1, row) hrow
        rw [SortedMap.get?_eq_some_iff.mpr he, Option.some_inj] at hcurrent
        rwa [hcurrent]
      · refine List.eq_nil_iff_forall_not_mem.mpr fun row hrow => ?_
        obtain ⟨current, hcurrent, -⟩ := h (e.1, row)
          ⟨e.2, SortedMap.get?_eq_some_iff.mpr he, hrow⟩
        simp [hnone] at hcurrent

/-- The flag is set exactly for the entries that would be generated. -/
theorem isUpToDate_iff : (b.compareWithIssues order issues db).isUpToDate = true ↔
    b.entries = (generateFromIssues issues db).entries := by
  unfold compareWithIssues
  dsimp only
  split_ifs with heq <;> simp [heq]

/-- The flag agrees with the two lists exactly when a baseline that lists the rows of the
issues is canonical. -/
theorem isUpToDate_agrees_iff :
    ((b.compareWithIssues order issues db).isUpToDate = true ↔
      (b.compareWithIssues order issues db).newIssues = [] ∧
        (b.compareWithIssues order issues db).removedIssues = []) ↔
      ((∀ row, ListedIn b.entries row ↔ Reported db issues row) → Canonical b.entries) := by
  have hcanonical := canonical_generateFromIssues issues db
  have hsame : ((b.compareWithIssues order issues db).newIssues = [] ∧
      (b.compareWithIssues order issues db).removedIssues = []) ↔
      ∀ row, ListedIn b.entries row ↔ Reported db issues row := by
    rw [newIssues_eq_nil_iff, removedIssues_eq_nil_iff, ← forall_and]
    exact forall_congr' fun row => ⟨fun h => ⟨h.2, h.1⟩, fun h => ⟨h.2, h.1⟩⟩
  rw [hsame, isUpToDate_iff]
  constructor
  · intro h hrows
    rw [h.mpr hrows]
    exact hcanonical
  · intro h
    constructor
    · intro heq row
      rw [heq, listedIn_generateFromIssues]
    · intro hrows
      refine (h hrows).eq_of_listedIn hcanonical fun row => ?_
      rw [hrows, listedIn_generateFromIssues]

theorem mem_filterIssues {issue : Issue} : issue ∈ b.filterIssues issues db ↔
    issue ∈ issues ∧ ∀ row, strictRow db issue = some row → ¬ ListedIn b.entries row := by
  rw [filterIssues, List.mem_filter]
  refine and_congr_right fun _ => ?_
  unfold strictRow ListedIn
  cases locate db issue with
  | none => simp
  | some found => cases hget : b.entries.get? (normalizePath found.2.name) <;> simp [hget]

theorem filterIssues_removes_iff : (∀ issue ∈ b.filterIssues issues db, ¬ Located db issue) ↔
    ∀ row, Reported db issues row → ListedIn b.entries row := by
  simp only [mem_filterIssues, located_iff_strictRow]
  constructor
  · intro h row hrow
    obtain ⟨issue, hissue, hissueRow⟩ := hrow
    by_contra hno
    refine h issue ⟨hissue, fun row' hrow' => ?_⟩ ⟨row, hissueRow⟩
    obtain rfl : row = row' := Option.some_inj.mp (hissueRow.symm.trans hrow')
    exact hno
  · intro h issue hissue hrow
    obtain ⟨row, hrow⟩ := hrow
    exact hissue.2 row hrow (h row ⟨issue, hissue.1, hrow⟩)

end Compare

end StrictBaseline

/-! ## Loose baselines -/

def looseGroup (db : ReadDatabase π) (issue : Issue) : Option LooseKey :=
  (locate db issue).map fun found => looseKey found.2 issue

theorem located_iff_looseGroup {db : ReadDatabase π} {issue : Issue} :
    Located db issue ↔ ∃ key, looseGroup db issue = some key := by
  rw [Located, ← Option.isSome_iff_exists, looseGroup, Option.isSome_map]

/-- The number of issues in a group. -/
def occurrences (db : ReadDatabase π) (issues : IssueCollection) (key : LooseKey) : ℕ :=
  issues.countP fun issue => decide (looseGroup db issue = some key)

/-- The count of a group, zero for a group without one. -/
def countOf (counts : OrderedMap LooseKey ℕ) (key : LooseKey) : ℕ := (counts.get? key).getD 0

theorem countOf_insert (counts : OrderedMap LooseKey ℕ) (key key' : LooseKey) (n : ℕ) :
    countOf (counts.insert key n) key' = if key' = key then n else countOf counts key' := by
  unfold countOf
  rw [OrderedMap.get?_insert]
  split_ifs <;> rfl

@[simp] theorem countOf_empty (key : LooseKey) : countOf OrderedMap.empty key = 0 := rfl

namespace LooseBaseline

theorem occurrences_cons (db : ReadDatabase π) (issue : Issue) (issues : IssueCollection)
    (key : LooseKey) : occurrences db (issue :: issues) key =
      occurrences db issues key + if looseGroup db issue = some key then 1 else 0 := by
  simp [occurrences, List.countP_cons]

theorem countOf_record (db : ReadDatabase π) {counts : OrderedMap LooseKey ℕ} {key : LooseKey}
    (h : countOf counts key < 2 ^ 32) (issue : Issue) : countOf (record db counts issue) key =
      (countOf counts key + if looseGroup db issue = some key then 1 else 0) % 2 ^ 32 := by
  unfold record looseGroup
  cases locate db issue with
  | none => exact (Nat.mod_eq_of_lt h).symm
  | some found =>
    simp only [Option.map_some, Option.some_inj, countOf_insert]
    by_cases hkey : key = looseKey found.2 issue
    · rw [if_pos hkey, if_pos hkey.symm, hkey]
      rfl
    · rw [if_neg hkey, if_neg (Ne.symm hkey), Nat.add_zero, Nat.mod_eq_of_lt h]

theorem countOf_foldl_record (db : ReadDatabase π) (issues : IssueCollection)
    {counts : OrderedMap LooseKey ℕ} {key : LooseKey} (h : countOf counts key < 2 ^ 32) :
    countOf (issues.foldl (record db) counts) key =
      (countOf counts key + occurrences db issues key) % 2 ^ 32 := by
  induction issues generalizing counts with
  | nil => exact (Nat.mod_eq_of_lt h).symm
  | cons issue issues ih =>
    have hstep := countOf_record db h issue
    rw [List.foldl_cons, ih (hstep ▸ Nat.mod_lt _ (by norm_num)), hstep, occurrences_cons,
      Nat.mod_add_mod]
    ring_nf

/-- The rows of a generated baseline are the entries of its counters. -/
theorem counts_generateFromIssues (order : VisitOrder) (issues : IssueCollection)
    (db : ReadDatabase π) (key : LooseKey) :
    countOf (generateFromIssues order issues db).counts key =
      occurrences db issues key % 2 ^ 32 := by
  set counters := issues.foldl (record db) OrderedMap.empty with hcounters
  have hempty : countOf OrderedMap.empty key < 2 ^ 32 := by simp
  have hcount : countOf counters key = occurrences db issues key % 2 ^ 32 := by
    simpa using countOf_foldl_record db issues hempty
  have hperm : ((generateFromIssues order issues db).issues.map fun issue =>
      (issue.key, issue.count)).Perm counters.entries := by
    refine ((List.perm_insertionSort _ _).map _).trans ?_
    rw [List.map_map]
    refine .trans ?_ (order.perm counters.entries)
    rw [← List.map_id (order.visit counters.entries), List.map_map]
    exact .of_eq (List.map_congr_left fun e _ => rfl)
  have hnodup := (hperm.map Prod.fst).nodup_iff.mpr counters.nodup
  have hget : (generateFromIssues order issues db).counts.get? key = counters.get? key := by
    ext n
    rw [counts, OrderedMap.get?_ofList hnodup, OrderedMap.get?_eq_some_iff, hperm.mem_iff]
  rw [← hcount, countOf, hget]
  rfl

theorem excess_eq_nil_iff {order : VisitOrder} {counts others : OrderedMap LooseKey ℕ} :
    excess order counts others = [] ↔ ∀ key, countOf counts key ≤ countOf others key := by
  simp only [excess, List.flatMap_eq_nil_iff, List.replicate_eq_nil_iff, Nat.sub_eq_zero_iff_le,
    (order.perm _).mem_iff]
  constructor
  · intro h key
    cases hget : counts.get? key with
    | none => simp [countOf, hget]
    | some n =>
      have := h (key, n) (OrderedMap.get?_eq_some_iff.mp hget)
      simpa [countOf, hget] using this
  · intro h e he
    have := h e.1
    rwa [countOf, OrderedMap.get?_eq_some_iff.mpr he] at this

/-- The loop keeps an issue of a group exactly when the group has more issues than remain. -/
theorem exists_mem_filterLoop_iff (db : ReadDatabase π) (issues : IssueCollection)
    (remaining : OrderedMap LooseKey ℕ) (key : LooseKey) :
    (∃ issue ∈ filterLoop db remaining issues, looseGroup db issue = some key) ↔
      countOf remaining key < occurrences db issues key := by
  induction issues generalizing remaining with
  | nil => simp [filterLoop, occurrences]
  | cons issue issues ih =>
    rw [occurrences_cons]
    unfold filterLoop
    cases hfound : locate db issue with
    | none =>
      have hgroup : looseGroup db issue = none := by simp [looseGroup, hfound]
      simpa [hgroup] using ih remaining
    | some found =>
      have hgroup : looseGroup db issue = some (looseKey found.2 issue) := by
        simp [looseGroup, hfound]
      have hkept : countOf remaining (looseKey found.2 issue) = 0 →
          ((∃ i ∈ issue :: filterLoop db remaining issues, looseGroup db i = some key) ↔
            countOf remaining key < occurrences db issues key +
              if looseGroup db issue = some key then 1 else 0) := by
        intro hzero
        simp only [hgroup, Option.some_inj]
        split_ifs with hkey
        · subst hkey
          exact iff_of_true ⟨issue, by simp, hgroup⟩ (by omega)
        · simpa [hgroup, hkey] using ih remaining
      dsimp only
      split
      · rename_i count hcount
        simp only [ih, countOf_insert, hgroup, Option.some_inj]
        by_cases hkey : key = looseKey found.2 issue
        · have hone : countOf remaining key = count + 1 := by rw [countOf, hkey, hcount]; rfl
          rw [if_pos hkey, if_pos hkey.symm, hone, Nat.add_lt_add_iff_right]
        · rw [if_neg hkey, if_neg (Ne.symm hkey), Nat.add_zero]
      · rename_i hcount
        refine hkept ?_
        cases hget : remaining.get? (looseKey found.2 issue) with
        | none => simp [countOf, hget]
        | some n =>
          cases n with
          | zero => simp [countOf, hget]
          | succ count => exact absurd hget (hcount count)

theorem filterIssues_removes_iff (b : LooseBaseline) (issues : IssueCollection)
    (db : ReadDatabase π) : (∀ issue ∈ b.filterIssues issues db, ¬ Located db issue) ↔
      ∀ key, occurrences db issues key ≤ countOf b.counts key := by
  simp only [located_iff_looseGroup, ← not_lt, ← exists_mem_filterLoop_iff, filterIssues]
  constructor
  · intro h key hkept
    obtain ⟨issue, hissue, hkey⟩ := hkept
    exact h issue hissue ⟨key, hkey⟩
  · intro h issue hissue hgroup
    obtain ⟨key, hkey⟩ := hgroup
    exact h key ⟨issue, hissue, hkey⟩

theorem newIssues_eq_nil_iff (order : VisitOrder) (b : LooseBaseline) (issues : IssueCollection)
    (db : ReadDatabase π) : (b.compareWithIssues order issues db).newIssues = [] ↔
      ∀ key, occurrences db issues key % 2 ^ 32 ≤ countOf b.counts key := by
  simp only [compareWithIssues, excess_eq_nil_iff, counts_generateFromIssues]

/-- Filtering against the generated baseline removes everything that has a place in it when
no counter wraps. -/
theorem generated_removes_iff (order : VisitOrder) (issues : IssueCollection)
    (db : ReadDatabase π) :
    (∀ issue ∈ (generateFromIssues order issues db).filterIssues issues db, ¬ Located db issue) ↔
      ∀ key, occurrences db issues key < 2 ^ 32 := by
  simp only [filterIssues_removes_iff, counts_generateFromIssues]
  refine forall_congr' fun key => ⟨fun h => ?_, fun h => (Nat.mod_eq_of_lt h).ge⟩
  exact h.trans_lt (Nat.mod_lt _ (by norm_num))

end LooseBaseline

/-! ## Either variant -/

/-- Filtering, comparing and generating agree about a baseline and a collection. -/
structure Agrees (order : VisitOrder) (b : Baseline) (issues : IssueCollection)
    (db : ReadDatabase π) : Prop where
  newIssues : (b.compareWithIssues order issues db).newIssues = [] ↔
    ∀ issue ∈ b.filterIssues issues db, ¬ Located db issue
  isUpToDate : (b.compareWithIssues order issues db).isUpToDate = true ↔
    (b.compareWithIssues order issues db).newIssues = [] ∧
      (b.compareWithIssues order issues db).removedIssues = []
  generated : ∀ variant, ∀ issue ∈
    (Baseline.generateFromIssues order issues db variant).filterIssues issues db,
    ¬ Located db issue

/-- The issues of a group fit a counter. -/
def CountsFit (db : ReadDatabase π) (issues : IssueCollection) : Prop :=
  ∀ key, occurrences db issues key < 2 ^ 32

/-- A strict baseline that lists exactly the rows of the issues lists them in the form in
which baselines are generated. -/
def CanonicalWhenComplete (db : ReadDatabase π) (issues : IssueCollection) : Baseline → Prop
  | .strict b => (∀ row, ListedIn b.entries row ↔ Reported db issues row) → Canonical b.entries
  | .loose _ => True

/-- Filtering and comparing agree exactly when no counter wraps and a strict baseline without
new or removed issues has no empty, unsorted or repeating entry. -/
theorem baseline_agrees_iff (order : VisitOrder) (b : Baseline) (issues : IssueCollection)
    (db : ReadDatabase π) :
    Agrees order b issues db ↔ CountsFit db issues ∧ CanonicalWhenComplete db issues b := by
  have hgenerated : (∀ variant, ∀ issue ∈
      (Baseline.generateFromIssues order issues db variant).filterIssues issues db,
      ¬ Located db issue) ↔ CountsFit db issues := by
    constructor
    · intro h
      exact (LooseBaseline.generated_removes_iff order issues db).mp (h .loose)
    · intro h variant
      cases variant with
      | strict =>
        refine (StrictBaseline.filterIssues_removes_iff _ issues db).mpr fun row hrow => ?_
        exact StrictBaseline.listedIn_generateFromIssues.mpr hrow
      | loose => exact (LooseBaseline.generated_removes_iff order issues db).mpr h
  constructor
  · intro h
    refine ⟨hgenerated.mp h.generated, ?_⟩
    cases b with
    | strict b => exact (StrictBaseline.isUpToDate_agrees_iff order b issues db).mp h.isUpToDate
    | loose b => trivial
  · intro h
    obtain ⟨hfit, hcanonical⟩ := h
    cases b with
    | strict b =>
      refine ⟨?_, (StrictBaseline.isUpToDate_agrees_iff order b issues db).mpr hcanonical,
        hgenerated.mpr hfit⟩
      exact (StrictBaseline.newIssues_eq_nil_iff order b issues db).trans
        (StrictBaseline.filterIssues_removes_iff b issues db).symm
    | loose b =>
      refine ⟨?_, ?_, hgenerated.mpr hfit⟩
      · refine (LooseBaseline.newIssues_eq_nil_iff order b issues db).trans
          (.trans ?_ (LooseBaseline.filterIssues_removes_iff b issues db).symm)
        exact forall_congr' fun key => by rw [Nat.mod_eq_of_lt (hfit key)]
      · simp [Baseline.compareWithIssues, LooseBaseline.compareWithIssues]

/-! The file `a` with one issue on its first line, and a baseline that lists the row twice, as
after a merge. -/

def oneFile : ReadDatabase Empty :=
  ⟨[⟨[97], .host, none, [60, 10]⟩], OrderedMap.ofList [(7, 0)]⟩

def oneIssue : IssueCollection := [⟨some ['E'], ['m'], [⟨.primary, ⟨7, 0, 1⟩⟩]⟩]

def repeatedRow : StrictBaseline :=
  ⟨SortedMap.empty.alter ['a'] fun _ => ⟨[⟨['E'], 0, 0⟩, ⟨['E'], 0, 0⟩]⟩⟩

def listOrder : VisitOrder := ⟨fun entries => entries, fun _ => .refl _⟩

/-- The lists are compared as they are, so the repeated row is out of date, but nothing is new
and nothing is removed. -/
theorem repeated_row_not_up_to_date : ¬ Agrees listOrder (.strict repeatedRow) oneIssue oneFile := by
  intro h
  have hflag := h.isUpToDate
  revert hflag
  decide

end Mago.Reporting
