import Mago.Library.Cells
import Mago.Library.OrderedMap
import Mago.Storage.File

/-!
# The file database

Files by name, names by identity, and the changes of a log. A commit applies the changes one
after the other in memory and collects a filesystem operation for each change of a file with
a path; the operations then run in parallel.
-/
namespace Mago.Storage
open Library

structure Database (π : Type*) where
  files : OrderedMap Bytes (File π)
  idToName : OrderedMap FileId Bytes

inductive Change (π : Type*)
  | add (file : File π)
  | update (id : FileId) (newContents : Bytes)
  | delete (id : FileId)
  deriving DecidableEq, Repr

inductive DatabaseError
  | fileNotFound
  | changeLogInUse
  | poisonedLogMutex
  deriving DecidableEq, Repr

/-- The recorded changes, whether another reference to the log is left and whether a thread
panicked while it held the lock. -/
structure ChangeLog (π : Type*) where
  changes : List (Change π)
  inUse : Bool
  poisoned : Bool

def ChangeLog.intoInner {π : Type*} (log : ChangeLog π) : Except DatabaseError (List (Change π)) :=
  if log.inUse then .error .changeLogInUse
  else if log.poisoned then .error .poisonedLogMutex
  else .ok log.changes

inductive FilesystemOperation (π : Type*)
  | write (path : π) (contents : Bytes)
  | delete (path : π)
  deriving DecidableEq, Repr

/-- The contents on the disk by path. -/
abbrev Disk (π : Type*) := π → Option Bytes

variable {π : Type*}

namespace Database

variable (hash : Bytes → FileId)

def get (db : Database π) (id : FileId) : Except DatabaseError (File π) :=
  match db.idToName.get? id with
  | none => .error .fileNotFound
  | some name =>
    match db.files.get? name with
    | none => .error .fileNotFound
    | some file => .ok file

def add (db : Database π) (file : File π) : Database π :=
  let idToName :=
    match db.files.get? file.name with
    | some oldFile => db.idToName.erase (oldFile.id hash)
    | none => db.idToName
  ⟨db.files.insert file.name file, idToName.insert (file.id hash) file.name⟩

/-- Whether the stored file is shared with a snapshot only decides where the new contents are
written. -/
def update (db : Database π) (id : FileId) (newContents : Bytes) : Database π :=
  match db.idToName.get? id with
  | none => db
  | some name =>
    match db.files.get? name with
    | none => db
    | some file => { db with files := db.files.insert name { file with contents := newContents } }

def delete (db : Database π) (id : FileId) : Database π :=
  match db.idToName.get? id with
  | none => db
  | some name => ⟨db.files.erase name, db.idToName.erase id⟩

/-- The operation that is queued for a change, from the database before the change. -/
def operation (db : Database π) : Change π → Option (FilesystemOperation π)
  | .add file => file.path.map fun path => .write path file.contents
  | .update id contents =>
    match db.get id with
    | .ok file => file.path.map fun path => .write path contents
    | .error _ => none
  | .delete id =>
    match db.get id with
    | .ok file => file.path.map fun path => .delete path
    | .error _ => none

def perform (db : Database π) : Change π → Database π
  | .add file => db.add hash file
  | .update id contents => db.update id contents
  | .delete id => db.delete id

/-- The sequential part of a commit: the database and the queued operations. -/
def commit (db : Database π) (log : ChangeLog π) (writeToDisk : Bool) :
    Except DatabaseError (Database π × List (FilesystemOperation π)) := do
  let changes ← log.intoInner
  return changes.foldl
    (fun state change => (state.1.perform hash change,
      if writeToDisk then state.2 ++ (state.1.operation change).toList else state.2))
    (db, [])

end Database

/-- A snapshot: the files and the position of each by its identity. -/
structure ReadDatabase (π : Type*) where
  files : List (File π)
  idToIndex : OrderedMap FileId ℕ

def ReadDatabase.get (db : ReadDatabase π) (id : FileId) : Except DatabaseError (File π) :=
  match db.idToIndex.get? id with
  | none => .error .fileNotFound
  | some index =>
    match db.files[index]? with
    | none => .error .fileNotFound
    | some file => .ok file

namespace FilesystemOperation

variable [DecidableEq π]

/-- A write creates or overwrites the file, a deletion fails without one. -/
def execute (disk : Disk π) : FilesystemOperation π → Option (Disk π)
  | write path contents => some (Function.update disk path (some contents))
  | delete path =>
    match disk path with
    | some _ => some (Function.update disk path none)
    | none => none

def executeAll : List (FilesystemOperation π) → Disk π → Option (Disk π)
  | [], disk => some disk
  | op :: ops, disk => (op.execute disk).bind (executeAll ops)

end FilesystemOperation

/-- A commit to disk returns without an error: every queued operation is executed, in some
order. -/
def Committed [DecidableEq π] (hash : Bytes → FileId) (db : Database π) (log : ChangeLog π)
    (disk : Disk π) (db' : Database π) (disk' : Disk π) : Prop :=
  ∃ ops order, db.commit hash log true = .ok (db', ops) ∧ order.Perm ops ∧
    FilesystemOperation.executeAll order disk = some disk'

end Mago.Storage
