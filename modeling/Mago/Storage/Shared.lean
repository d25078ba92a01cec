import Mago.Library.Heap
import Mago.Storage.Database

/-!
# Shared files

The files of a database are reference-counted cells that snapshots, clones of the database and
callers share. An update writes into the cell of a file when nobody else refers to it, and
puts the new contents into a new cell otherwise.
-/
namespace Mago.Storage
open Library

variable {π : Type*}

/-- A file in memory, with what is derived from its name and its contents. -/
structure StoredFile (π : Type*) where
  id : FileId
  name : Bytes
  path : Option π
  fileType : FileType
  contents : Bytes
  size : ℕ
  lines : List ℕ
  deriving DecidableEq, Repr

def StoredFile.new (hash : Bytes → FileId) (name : Bytes) (fileType : FileType) (path : Option π)
    (contents : Bytes) : StoredFile π :=
  ⟨hash name, name, path, fileType, contents, contents.length % 2 ^ 32, lineStarts contents⟩

def File.stored (hash : Bytes → FileId) (file : File π) : StoredFile π :=
  .new hash file.name file.fileType file.path file.contents

/-- The contents are replaced in the cell, with the size and the lines. -/
def StoredFile.setContents (file : StoredFile π) (newContents : Bytes) : StoredFile π :=
  { file with
    contents := newContents
    size := newContents.length % 2 ^ 32
    lines := lineStarts newContents }

/-- A reference that was found, an error without one. -/
def orNotFound : Option Ref → Except DatabaseError Ref
  | none => .error .fileNotFound
  | some r => .ok r

theorem orNotFound_eq_ok_iff {found : Option Ref} {r : Ref} :
    orNotFound found = .ok r ↔ found = some r := by
  cases found <;> simp [orNotFound]

structure SharedDatabase where
  files : OrderedMap Bytes Ref
  idToName : OrderedMap FileId Bytes

/-- A snapshot. The index by name is built by the first query that needs it. -/
structure Snapshot where
  files : List Ref
  idToIndex : OrderedMap FileId ℕ
  nameToIndex : Option (OrderedMap Bytes ℕ)

namespace SharedDatabase

variable (hash : Bytes → FileId) (heap : Heap (StoredFile π))

def empty : SharedDatabase := ⟨OrderedMap.empty, OrderedMap.empty⟩

def add (db : SharedDatabase) (file : StoredFile π) : Heap (StoredFile π) × SharedDatabase × FileId :=
  let new := heap.alloc file
  let idToName :=
    match (db.files.get? file.name).bind heap.read with
    | some oldFile => db.idToName.erase oldFile.id
    | none => db.idToName
  (new.1, ⟨db.files.insert file.name new.2, idToName.insert file.id file.name⟩, file.id)

/-- The database with new contents for a file, and whether the file was found. -/
def update (unique : Ref → Bool) (db : SharedDatabase) (id : FileId) (newContents : Bytes) :
    Heap (StoredFile π) × SharedDatabase × Bool :=
  match db.idToName.get? id with
  | none => (heap, db, false)
  | some name =>
    match db.files.get? name with
    | none => (heap, db, false)
    | some r =>
      match heap.read r with
      | none => (heap, db, false)
      | some file =>
        if unique r then (heap.write r (file.setContents newContents), db, true)
        else
          let new := heap.alloc (.new hash file.name file.fileType file.path newContents)
          (new.1, { db with files := db.files.insert name new.2 }, true)

def delete (db : SharedDatabase) (id : FileId) : SharedDatabase × Bool :=
  match db.idToName.get? id with
  | none => (db, false)
  | some name => (⟨db.files.erase name, db.idToName.erase id⟩, db.files.containsKey name)

/-- A file of the base is moved unless its name is taken, with its name from the base. -/
def mergeEntry (state : SharedDatabase × OrderedMap FileId Bytes) (e : Bytes × Ref) :
    SharedDatabase × OrderedMap FileId Bytes :=
  if state.1.files.containsKey e.1 then state
  else
    match heap.read e.2 with
    | none => state
    | some file =>
      let idName := (state.2.get? file.id).getD e.1
      (⟨state.1.files.insert e.1 e.2, state.1.idToName.insert file.id idName⟩,
        state.2.erase file.id)

def mergeBase (order : VisitOrder) (db base : SharedDatabase) : SharedDatabase :=
  ((order.visit base.files.entries).foldl (mergeEntry heap) (db, base.idToName)).1

def get (db : SharedDatabase) (id : FileId) : Except DatabaseError Ref :=
  orNotFound ((db.idToName.get? id).bind db.files.get?)

def getId (db : SharedDatabase) (name : Bytes) : Option FileId :=
  ((db.files.get? name).bind heap.read).map StoredFile.id

def getByName (db : SharedDatabase) (name : Bytes) : Except DatabaseError Ref :=
  orNotFound (db.files.get? name)

def len (db : SharedDatabase) : ℕ := db.files.len

/-- The files with their identities. -/
def entries (db : SharedDatabase) : List ( FileId × Ref) :=
  db.files.values.filterMap fun r => (heap.read r).map fun file => (file.id, r)

/-- The files sorted by their identities. -/
def sorted (order : VisitOrder) (db : SharedDatabase) : List ( FileId × Ref) :=
  (order.visit (db.entries heap)).insertionSort fun e e' => e.1 ≤ e'.1

def readOnly (order : VisitOrder) (db : SharedDatabase) : Snapshot :=
  let entries := db.sorted heap order
  ⟨entries.map Prod.snd, OrderedMap.ofList (entries.zipIdx.map fun e => (e.1.1, e.2)), none⟩

end SharedDatabase

namespace Snapshot

variable (heap : Heap (StoredFile π)) (db : Snapshot)

/-- The names of the files with their positions. -/
def names : OrderedMap Bytes ℕ :=
  OrderedMap.ofList (db.files.zipIdx.filterMap fun e =>
    ((heap.read e.1).map StoredFile.name).map fun name => (name, e.2))

def nameIndex : OrderedMap Bytes ℕ := db.nameToIndex.getD (db.names heap)

/-- The snapshot after a query that needs the index by name. -/
def initialised : Snapshot := { db with nameToIndex := some (db.nameIndex heap) }

def get (id : FileId) : Except DatabaseError Ref :=
  orNotFound ((db.idToIndex.get? id).bind fun index => db.files[index]?)

/-- The file that the index by name leads to. -/
def named (name : Bytes) : Option Ref :=
  ((db.nameIndex heap).get? name).bind fun index => db.files[index]?

def getId (name : Bytes) : Option FileId :=
  ((db.named heap name).bind heap.read).map StoredFile.id

def getByName (name : Bytes) : Except DatabaseError Ref := orNotFound (db.named heap name)

def len : ℕ := db.files.length

end Snapshot

/-! ## Databases, snapshots and callers over one heap -/

/-- The live databases, the snapshots with `none` for a dropped one, and the references that
callers hold. -/
structure World (π : Type*) where
  heap : Heap (StoredFile π)
  databases : List SharedDatabase
  snapshots : List (Option Snapshot)
  held : List Ref

namespace World

def empty : World π := ⟨Heap.empty, [], [], []⟩

/-- Every reference that is counted. -/
def references (w : World π) : List Ref :=
  w.databases.flatMap (fun db => db.files.values) ++
    w.snapshots.flatMap (fun db => (db.map Snapshot.files).getD []) ++ w.held

/-- Whether a cell can be written: its strong count is one. -/
def unique (w : World π) (r : Ref) : Bool := decide (w.references.count r = 1)

def setDatabase (w : World π) (d : ℕ) (heap : Heap (StoredFile π)) (db : SharedDatabase) :
    World π := { w with heap := heap, databases := w.databases.set d db }

end World

/-- What happens to the databases, the snapshots and the references of callers. -/
inductive Operation (π : Type*)
  | create
  | clone (d : ℕ)
  | add (d : ℕ) (file : File π)
  | update (d : ℕ) (id : FileId) (newContents : Bytes)
  | delete (d : ℕ) (id : FileId)
  | mergeBase (order : VisitOrder) (d base : ℕ)
  | commit (d : ℕ) (log : ChangeLog π)
  | readOnly (order : VisitOrder) (d : ℕ)
  | queryByName (s : ℕ)
  | hold (r : Ref)
  | release (r : Ref)
  | dropDatabase (d : ℕ)
  | dropSnapshot (s : ℕ)

namespace World

variable (hash : Bytes → FileId) (w : World π)

def add (d : ℕ) (file : File π) : World π :=
  match w.databases[d]? with
  | none => w
  | some db =>
    let added := db.add w.heap (file.stored hash)
    w.setDatabase d added.1 added.2.1

def update (d : ℕ) (id : FileId) (newContents : Bytes) : World π :=
  match w.databases[d]? with
  | none => w
  | some db =>
    let updated := db.update hash w.heap w.unique id newContents
    w.setDatabase d updated.1 updated.2.1

def delete (d : ℕ) (id : FileId) : World π :=
  match w.databases[d]? with
  | none => w
  | some db => w.setDatabase d w.heap (db.delete id).1

/-- The base is consumed; its slot is empty afterwards. -/
def mergeBase (order : VisitOrder) (d base : ℕ) : World π :=
  match w.databases[d]?, w.databases[base]? with
  | some db, some baseDb =>
    if d = base then w
    else (w.setDatabase d w.heap (db.mergeBase w.heap order baseDb)).setDatabase base w.heap .empty
  | _, _ => w

/-- The changes of a log meet the counts that the earlier ones leave. -/
def change (d : ℕ) (w : World π) : Change π → World π
  | .add file => w.add hash d file
  | .update id contents => w.update hash d id contents
  | .delete id => w.delete d id

/-- The operations on the disk, and whether they succeed, do not touch the memory. -/
def commit (d : ℕ) (log : ChangeLog π) : World π :=
  match log.intoInner with
  | .error _ => w
  | .ok changes => changes.foldl (change hash d) w

def perform : Operation π → World π
  | .create => { w with databases := w.databases ++ [.empty] }
  | .clone d => { w with databases := w.databases ++ w.databases[d]?.toList }
  | .add d file => w.add hash d file
  | .update d id newContents => w.update hash d id newContents
  | .delete d id => w.delete d id
  | .mergeBase order d base => w.mergeBase order d base
  | .commit d log => w.commit hash d log
  | .readOnly order d =>
    { w with snapshots := w.snapshots ++
        (w.databases[d]?.map fun db => some (db.readOnly w.heap order)).toList }
  | .queryByName s =>
    match w.snapshots[s]? with
    | some (some db) => { w with snapshots := w.snapshots.set s (some (db.initialised w.heap)) }
    | _ => w
  | .hold r => if r ∈ w.references then { w with held := r :: w.held } else w
  | .release r => { w with held := w.held.erase r }
  | .dropDatabase d => w.setDatabase d w.heap .empty
  | .dropSnapshot s => { w with snapshots := w.snapshots.set s none }

def run (operations : List (Operation π)) : World π := operations.foldl (perform hash) w

end World

/-- The names of the files that an operation brings in. -/
def Operation.names : Operation π → List Bytes
  | add _ file => [file.name]
  | commit _ log => log.changes.filterMap fun
    | .add file => some file.name
    | _ => none
  | _ => []

end Mago.Storage
