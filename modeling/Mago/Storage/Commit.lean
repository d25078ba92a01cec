import Mago.Storage.Database

/-!
# The disk after a commit

The operations of a commit run in any order, so the disk agrees with memory after every order
exactly when the operations on each path end alike: they only write the contents that are
left in memory, or they delete as often as anything can be deleted.
-/
namespace Mago.Storage
open Library

variable {π : Type*}

namespace FilesystemOperation

def path : FilesystemOperation π → π
  | write path _ => path
  | delete path => path

def effect : FilesystemOperation π → CellEffect Bytes
  | write _ contents => .write contents
  | delete _ => .delete

def cell (op : FilesystemOperation π) : π × CellEffect Bytes := (op.path, op.effect)

def ofCell : π × CellEffect Bytes → FilesystemOperation π
  | (path, .write contents) => .write path contents
  | (path, .delete) => .delete path

@[simp] theorem ofCell_cell (op : FilesystemOperation π) : ofCell op.cell = op := by
  cases op <;> rfl

@[simp] theorem cell_ofCell (c : π × CellEffect Bytes) : (ofCell c).cell = c := by
  obtain ⟨path, effect⟩ := c
  cases effect <;> rfl

theorem perm_map_cell_iff {order : List (π × CellEffect Bytes)}
    {ops : List (FilesystemOperation π)} :
    order.Perm (ops.map cell) ↔ (order.map ofCell).Perm ops := by
  constructor
  · intro h
    simpa [Function.comp_def] using h.map ofCell
  · intro h
    simpa [Function.comp_def] using h.map cell

variable [DecidableEq π]

theorem execute_eq_run (op : FilesystemOperation π) (disk : Disk π) :
    op.execute disk = (op.effect.run (disk op.path)).map (Function.update disk op.path) := by
  cases op with
  | write path contents => rfl
  | delete path =>
    simp only [execute, effect, FilesystemOperation.path]
    cases disk path <;> rfl

/-- Executing operations is running their effects on the cells of the disk. -/
theorem executeAll_eq_runAll (ops : List (FilesystemOperation π)) (disk : Disk π) :
    executeAll ops disk = runAll (ops.map cell) disk := by
  induction ops generalizing disk with
  | nil => rfl
  | cons op ops ih =>
    rw [executeAll, execute_eq_run, List.map_cons, runAll]
    cases h : op.effect.run (disk op.path) <;> simp [cell, ih, h]

end FilesystemOperation

namespace Database

variable (hash : Bytes → FileId)

/-- The database after the changes. -/
def after (db : Database π) (changes : List (Change π)) : Database π :=
  changes.foldl (fun db change => db.perform hash change) db

/-- The operations of the changes, each from the database that the change meets. -/
def operations (db : Database π) : List (Change π) → List (FilesystemOperation π)
  | [] => []
  | change :: changes =>
    (db.operation change).toList ++ operations (db.perform hash change) changes

theorem commit_fold (db : Database π) (changes : List (Change π))
    (queued : List (FilesystemOperation π)) :
    changes.foldl (fun state change => (state.1.perform hash change,
      state.2 ++ (state.1.operation change).toList)) (db, queued) =
    (db.after hash changes, queued ++ db.operations hash changes) := by
  induction changes generalizing db queued with
  | nil => simp [after, operations]
  | cons change changes ih =>
    rw [List.foldl_cons, ih]
    simp [after, operations]

theorem commit_eq_ok_iff {db db' : Database π} {log : ChangeLog π}
    {ops : List (FilesystemOperation π)} : db.commit hash log true = .ok (db', ops) ↔
      log.inUse = false ∧ log.poisoned = false ∧ db' = db.after hash log.changes ∧
        ops = db.operations hash log.changes := by
  simp only [commit, ChangeLog.intoInner, if_true, commit_fold]
  cases log.inUse <;> cases log.poisoned <;>
    simp [bind, Except.bind, pure, Except.pure, eq_comm]

def touched (db : Database π) (changes : List (Change π)) : List π :=
  (db.operations hash changes).map FilesystemOperation.path

variable [DecidableEq π]

/-- What the changes do to a path, in the order of the log. -/
def effectsOn (db : Database π) (changes : List (Change π)) (path : π) :
    List (CellEffect Bytes) :=
  effectsAt path ((db.operations hash changes).map FilesystemOperation.cell)

/-- The contents of the files in memory with a path. -/
def held (db : Database π) (path : π) : List Bytes :=
  (db.files.values.filter fun file => decide (file.path = some path)).map File.contents

end Database

variable [DecidableEq π]

/-- Every file in memory with a path has its contents on the disk. -/
def InSync (db : Database π) (disk : Disk π) : Prop :=
  ∀ file ∈ db.files.values, ∀ path ∈ file.path, disk path = some file.contents

/-- The disk holds what the file in memory with that path holds, or nothing without one. -/
def AgreesAt (db : Database π) (disk : Disk π) (path : π) : Prop :=
  (∀ contents ∈ db.held path, disk path = some contents) ∧ (db.held path = [] → disk path = none)

/-- Whatever the order of the operations, a commit that returns without an error leaves the
disk in agreement with memory at every path that the log touches. -/
def CommitAgrees (hash : Bytes → FileId) (db : Database π) (disk : Disk π) (log : ChangeLog π) :
    Prop :=
  ∀ db' disk', Committed hash db log disk db' disk' →
    ∀ path ∈ db.touched hash log.changes, AgreesAt db' disk' path

/-- The operations on a path are all writes of the one contents that memory keeps there, or
the path is deleted as often as it is written, plus once if it was on the disk, and memory
keeps no file there. -/
def SettledAt (hash : Bytes → FileId) (db : Database π) (disk : Disk π) (log : ChangeLog π)
    (path : π) : Prop :=
  EndsAlike (db.effectsOn hash log.changes path) (disk path)
    ((db.after hash log.changes).held path)

/-- No order of the operations succeeds: the log cannot be consumed, or a path is deleted
more often than it is there. -/
def NeverCommits (hash : Bytes → FileId) (db : Database π) (disk : Disk π) (log : ChangeLog π) :
    Prop :=
  log.inUse = true ∨ log.poisoned = true ∨ ∃ path,
    present (disk path) + (writes (db.effectsOn hash log.changes path)).length <
      deletions (db.effectsOn hash log.changes path)

theorem committed_iff {hash : Bytes → FileId} {db db' : Database π} {log : ChangeLog π}
    {disk disk' : Disk π} : Committed hash db log disk db' disk' ↔
      (log.inUse = false ∧ log.poisoned = false ∧ db' = db.after hash log.changes) ∧
        ∃ order, order.Perm ((db.operations hash log.changes).map FilesystemOperation.cell) ∧
          runAll order disk = some disk' := by
  simp only [Committed, Database.commit_eq_ok_iff, FilesystemOperation.executeAll_eq_runAll]
  constructor
  · intro h
    obtain ⟨_, order, ⟨hu, hp, hdb, rfl⟩, hperm, hrun⟩ := h
    exact ⟨⟨hu, hp, hdb⟩, _, hperm.map _, hrun⟩
  · intro h
    obtain ⟨⟨hu, hp, hdb⟩, order, hperm, hrun⟩ := h
    refine ⟨_, order.map FilesystemOperation.ofCell, ⟨hu, hp, hdb, rfl⟩,
      FilesystemOperation.perm_map_cell_iff.mp hperm, ?_⟩
    simpa [Function.comp_def] using hrun

/-- The disk agrees with memory after every commit that returns without an error exactly when
no order succeeds or every touched path is settled. -/
theorem commitAgrees_iff (hash : Bytes → FileId) (db : Database π) (disk : Disk π)
    (log : ChangeLog π) : CommitAgrees hash db disk log ↔
      NeverCommits hash db disk log ∨
        ∀ path ∈ db.touched hash log.changes, SettledAt hash db disk log path := by
  have htouched : db.touched hash log.changes =
      ((db.operations hash log.changes).map FilesystemOperation.cell).map Prod.fst := by
    simp [Database.touched, FilesystemOperation.cell, Function.comp_def]
  by_cases hconsumed : log.inUse = false ∧ log.poisoned = false
  · have hsplit : CommitAgrees hash db disk log ↔
        EveryOrderLeaves ((db.operations hash log.changes).map FilesystemOperation.cell) disk
          (db.after hash log.changes).held := by
      simp only [CommitAgrees, committed_iff, EveryOrderLeaves, ← htouched]
      constructor
      · intro h order hperm disk' hrun
        exact h _ disk' ⟨⟨hconsumed.1, hconsumed.2, rfl⟩, order, hperm, hrun⟩
      · intro h db' disk' hcommit
        obtain ⟨⟨-, -, rfl⟩, order, hperm, hrun⟩ := hcommit
        exact h order hperm disk' hrun
    rw [hsplit, everyOrderLeaves_iff, ← htouched]
    simp [NeverCommits, SettledAt, Database.effectsOn, hconsumed]
  · refine iff_of_true (fun db' disk' hcommit => ?_) (.inl ?_)
    · obtain ⟨⟨hu, hp, -⟩, -⟩ := committed_iff.mp hcommit
      exact absurd ⟨hu, hp⟩ hconsumed
    · unfold NeverCommits
      by_cases hu : log.inUse = true
      · exact .inl hu
      · exact .inr (.inl (by simpa [hu] using hconsumed))

/-- A database of one file, in step with the disk. -/
def oneFile : Database String :=
  ⟨OrderedMap.ofList [([97], ⟨[97], .host, some "a.php", [1]⟩)], OrderedMap.ofList [(7, [97])]⟩

def oneFileDisk : Disk String := fun path => if path = "a.php" then some [1] else none

def twoUpdates : ChangeLog String := ⟨[.update 7 [2], .update 7 [3]], false, false⟩

/-- Memory keeps the second contents of a file that is updated twice, the disk may keep the
first. -/
theorem two_updates_disagree :
    InSync oneFile oneFileDisk ∧ ¬ CommitAgrees (fun _ => 7) oneFile oneFileDisk twoUpdates := by
  constructor
  · intro file hfile path hpath
    obtain rfl : file = ⟨[97], .host, some "a.php", [1]⟩ := by
      simpa [oneFile, OrderedMap.values] using hfile
    obtain rfl : "a.php" = path := by simpa using hpath
    rfl
  · intro h
    have hcommit : Committed (fun _ => 7) oneFile twoUpdates oneFileDisk
        ((oneFile.update 7 [2]).update 7 [3])
        (Function.update (Function.update oneFileDisk "a.php" (some [3])) "a.php" (some [2])) :=
      ⟨[.write "a.php" [2], .write "a.php" [3]], [.write "a.php" [3], .write "a.php" [2]], rfl,
        List.Perm.swap _ _ _, rfl⟩
    have := (h _ _ hcommit "a.php" (by decide)).1 [3] (by decide)
    simp at this

end Mago.Storage
