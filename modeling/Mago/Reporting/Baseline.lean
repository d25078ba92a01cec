import Mago.Library.SortedMap
import Mago.Library.Utf8
import Mago.Storage.Database

/-!
# Baselines

A strict baseline lists the issues of each file with their lines, a loose one counts the
issues with the same file, code and message. Both are generated from a collection of issues,
filter a collection and are compared with one. A hash map is visited in an order that is not
specified, so the functions that visit one take that order as an argument.
-/
namespace Mago.Reporting
open Library Storage

/-! ## Paths as text -/

def normalizePath (path : Bytes) : Text :=
  (fromUtf8Lossy path).map fun c => if c = '\\' then '/' else c

example : normalizePath [0x61, 0x5C, 0xC3, 0xA9, 0xE2, 0x82, 0x2F] =
    ['a', '/', 'é', Char.ofNat 0xFFFD, '/'] := by decide

/-! ## Issues -/

inductive AnnotationKind
  | primary
  | secondary
  deriving DecidableEq, Repr

structure Span where
  fileId : FileId
  start : ℕ
  stop : ℕ
  deriving DecidableEq, Repr

structure Annotation where
  kind : AnnotationKind
  span : Span
  deriving DecidableEq, Repr

def Annotation.isPrimary (a : Annotation) : Bool := a.kind == .primary

structure Issue where
  code : Option Text
  message : Text
  annotations : List Annotation
  deriving DecidableEq, Repr

abbrev IssueCollection := List Issue

/-- The first primary annotation, or the first one. -/
def baselineAnnotation (issue : Issue) : Option Annotation :=
  (issue.annotations.find? Annotation.isPrimary).or issue.annotations.head?

/-- The code of an issue in a baseline, `unknown` without one. -/
def Issue.baselineCode (issue : Issue) : Text :=
  issue.code.getD ['u', 'n', 'k', 'n', 'o', 'w', 'n']

variable {π : Type*}

/-- The annotation and the file that a baseline uses for an issue. -/
def locate (db : ReadDatabase π) (issue : Issue) : Option ( Annotation × File π) :=
  match baselineAnnotation issue with
  | none => none
  | some a =>
    match db.get a.span.fileId with
    | .error _ => none
    | .ok file => some (a, file)

structure BaselineChangeEntry where
  file : Text
  code : Text
  startLine : ℕ
  endLine : ℕ
  deriving DecidableEq, Repr

structure BaselineComparisonResult where
  isUpToDate : Bool
  newIssues : List BaselineChangeEntry
  removedIssues : List BaselineChangeEntry
  filesWithChangesCount : ℕ
  deriving DecidableEq, Repr

/-! ## Strict baselines -/

structure StrictBaselineIssue where
  code : Text
  startLine : ℕ
  endLine : ℕ
  deriving DecidableEq, Repr

namespace StrictBaselineIssue

/-- The derived order compares the fields in their order. -/
def toLexicographic (issue : StrictBaselineIssue) : Text ×ₗ ℕ ×ₗ ℕ :=
  toLex (issue.code, toLex (issue.startLine, issue.endLine))

theorem toLexicographic_injective : Function.Injective toLexicographic := by
  intro a b h
  cases a
  cases b
  simpa [toLexicographic] using h

instance : LinearOrder StrictBaselineIssue :=
  LinearOrder.lift' toLexicographic toLexicographic_injective

def change (file : Text) (issue : StrictBaselineIssue) : BaselineChangeEntry :=
  ⟨file, issue.code, issue.startLine, issue.endLine⟩

end StrictBaselineIssue

structure StrictBaselineEntry where
  issues : List StrictBaselineIssue
  deriving DecidableEq, Repr

structure StrictBaseline where
  entries : SortedMap Text StrictBaselineEntry

def strictIssue (a : Annotation) (file : File π) (issue : Issue) : StrictBaselineIssue :=
  ⟨issue.baselineCode, file.lineNumber a.span.start, file.lineNumber a.span.stop⟩

namespace StrictBaseline

/-- An issue is added to the entry of its file unless it is listed there. -/
def record (db : ReadDatabase π) (entries : SortedMap Text StrictBaselineEntry) (issue : Issue) :
    SortedMap Text StrictBaselineEntry :=
  match locate db issue with
  | none => entries
  | some (a, file) =>
    entries.alter (normalizePath file.name) fun entry =>
      let issues := (entry.getD ⟨[]⟩).issues
      let baselineIssue := strictIssue a file issue
      if baselineIssue ∈ issues then ⟨issues⟩ else ⟨issues ++ [baselineIssue]⟩

def generateFromIssues (issues : IssueCollection) (db : ReadDatabase π) : StrictBaseline :=
  ⟨(issues.foldl (record db) SortedMap.empty).mapValues fun entry =>
    ⟨entry.issues.insertionSort (· ≤ ·)⟩⟩

def filterIssues (b : StrictBaseline) (issues : IssueCollection) (db : ReadDatabase π) :
    IssueCollection :=
  issues.filter fun issue =>
    match locate db issue with
    | none => true
    | some (a, file) =>
      match b.entries.get? (normalizePath file.name) with
      | none => true
      | some entry => decide (strictIssue a file issue ∉ entry.issues)

/-- The members of one set of issues that are not in another. -/
def difference (order : VisitOrder) (issues others : List StrictBaselineIssue) :
    List StrictBaselineIssue :=
  (order.visit issues.dedup).filter fun issue => decide (issue ∉ others)

/-- The new issues of a file of the current baseline. -/
def newIn (order : VisitOrder) (b : StrictBaseline) (e : Text × StrictBaselineEntry) :
    List BaselineChangeEntry :=
  match b.entries.get? e.1 with
  | some entry => (difference order e.2.issues entry.issues).map (·.change e.1)
  | none => e.2.issues.map (·.change e.1)

/-- The removed issues of a file that is in both baselines. -/
def removedIn (order : VisitOrder) (b : StrictBaseline) (e : Text × StrictBaselineEntry) :
    List BaselineChangeEntry :=
  match b.entries.get? e.1 with
  | some entry => (difference order entry.issues e.2.issues).map (·.change e.1)
  | none => []

/-- The removed issues of a file that the current baseline does not have. -/
def removedWith (current : StrictBaseline) (e : Text × StrictBaselineEntry) :
    List BaselineChangeEntry :=
  match current.entries.get? e.1 with
  | some _ => []
  | none => e.2.issues.map (·.change e.1)

/-- Whether a file of the current baseline is counted as changed. -/
def changed (order : VisitOrder) (b : StrictBaseline) (e : Text × StrictBaselineEntry) : Bool :=
  match b.entries.get? e.1 with
  | some _ => !(newIn order b e).isEmpty || !(removedIn order b e).isEmpty
  | none => true

def compareWithIssues (order : VisitOrder) (b : StrictBaseline) (issues : IssueCollection)
    (db : ReadDatabase π) : BaselineComparisonResult :=
  let current := generateFromIssues issues db
  if b.entries = current.entries then ⟨true, [], [], 0⟩
  else
    ⟨false, current.entries.entries.flatMap (newIn order b),
      current.entries.entries.flatMap (removedIn order b) ++
        b.entries.entries.flatMap (removedWith current),
      current.entries.entries.countP (changed order b) +
        b.entries.entries.countP fun e => (current.entries.get? e.1).isNone⟩

end StrictBaseline

/-! ## Loose baselines -/

/-- The file, code and message by which a loose baseline groups issues. -/
abbrev LooseKey := Text × Text × Text

structure LooseBaselineIssue where
  file : Text
  code : Text
  message : Text
  count : ℕ
  deriving DecidableEq, Repr

namespace LooseBaselineIssue

def toLexicographic (issue : LooseBaselineIssue) : Text ×ₗ Text ×ₗ Text ×ₗ ℕ :=
  toLex (issue.file, toLex (issue.code, toLex (issue.message, issue.count)))

theorem toLexicographic_injective : Function.Injective toLexicographic := by
  intro a b h
  cases a
  cases b
  simpa [toLexicographic] using h

instance : LinearOrder LooseBaselineIssue :=
  LinearOrder.lift' toLexicographic toLexicographic_injective

def key (issue : LooseBaselineIssue) : LooseKey := (issue.file, issue.code, issue.message)

end LooseBaselineIssue

structure LooseBaseline where
  issues : List LooseBaselineIssue

def looseKey (file : File π) (issue : Issue) : LooseKey :=
  (normalizePath file.name, issue.baselineCode, issue.message)

namespace LooseBaseline

/-- The counter of an issue's group goes up by one, modulo the width of the counter. -/
def record (db : ReadDatabase π) (counts : OrderedMap LooseKey ℕ) (issue : Issue) :
    OrderedMap LooseKey ℕ :=
  match locate db issue with
  | none => counts
  | some (_, file) =>
    let key := looseKey file issue
    counts.insert key (((counts.get? key).getD 0 + 1) % 2 ^ 32)

def generateFromIssues (order : VisitOrder) (issues : IssueCollection) (db : ReadDatabase π) :
    LooseBaseline :=
  let issueCounts := issues.foldl (record db) OrderedMap.empty
  let baselineIssues := (order.visit issueCounts.entries).map fun e =>
    (⟨e.1.1, e.1.2.1, e.1.2.2, e.2⟩ : LooseBaselineIssue)
  ⟨baselineIssues.insertionSort (· ≤ ·)⟩

/-- The counts by group; the last row of a group counts. -/
def counts (b : LooseBaseline) : OrderedMap LooseKey ℕ :=
  OrderedMap.ofList (b.issues.map fun issue => (issue.key, issue.count))

/-- The filter loop over the issues with the counts that remain. -/
def filterLoop (db : ReadDatabase π) : OrderedMap LooseKey ℕ → IssueCollection → IssueCollection
  | _, [] => []
  | remaining, issue :: issues =>
    match locate db issue with
    | none => issue :: filterLoop db remaining issues
    | some (_, file) =>
      let key := looseKey file issue
      match remaining.get? key with
      | some (count + 1) => filterLoop db (remaining.insert key count) issues
      | _ => issue :: filterLoop db remaining issues

def filterIssues (b : LooseBaseline) (issues : IssueCollection) (db : ReadDatabase π) :
    IssueCollection := filterLoop db b.counts issues

/-- The groups that one map counts more often than another, once for each excess. -/
def excess (order : VisitOrder) (counts others : OrderedMap LooseKey ℕ) :
    List BaselineChangeEntry :=
  (order.visit counts.entries).flatMap fun e =>
    List.replicate (e.2 - (others.get? e.1).getD 0) ⟨e.1.1, e.1.2.1, 0, 0⟩

def compareWithIssues (order : VisitOrder) (b : LooseBaseline) (issues : IssueCollection)
    (db : ReadDatabase π) : BaselineComparisonResult :=
  let current := generateFromIssues order issues db
  let newIssues := excess order current.counts b.counts
  let removedIssues := excess order b.counts current.counts
  ⟨newIssues.isEmpty && removedIssues.isEmpty, newIssues, removedIssues,
    ((newIssues ++ removedIssues).map BaselineChangeEntry.file).dedup.length⟩

end LooseBaseline

/-! ## Either variant -/

inductive BaselineVariant
  | strict
  | loose
  deriving DecidableEq, Repr

inductive Baseline
  | strict (b : StrictBaseline)
  | loose (b : LooseBaseline)

namespace Baseline

def generateFromIssues (order : VisitOrder) (issues : IssueCollection) (db : ReadDatabase π) :
    BaselineVariant → Baseline
  | .strict => strict (.generateFromIssues issues db)
  | .loose => loose (.generateFromIssues order issues db)

def filterIssues (b : Baseline) (issues : IssueCollection) (db : ReadDatabase π) :
    IssueCollection :=
  match b with
  | strict b => b.filterIssues issues db
  | loose b => b.filterIssues issues db

def compareWithIssues (order : VisitOrder) (b : Baseline) (issues : IssueCollection)
    (db : ReadDatabase π) : BaselineComparisonResult :=
  match b with
  | strict b => b.compareWithIssues order issues db
  | loose b => b.compareWithIssues order issues db

end Baseline

end Mago.Reporting
