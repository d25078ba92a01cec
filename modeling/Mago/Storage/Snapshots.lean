import Mago.Storage.Shared

/-!
# Shared databases and their snapshots

Every operation keeps both indexes of a database in step. A snapshot answers as the database
did, as long as the cells of its files are left alone.
-/
namespace Mago.Storage
open Library

variable {π : Type*}

/-! ## Files in cells -/

/-- The derived fields belong to the name and the contents. -/
structure StoredFile.WellFormed (hash : Bytes → FileId) (file : StoredFile π) : Prop where
  id : file.id = hash file.name
  size : file.size = file.contents.length % 2 ^ 32
  lines : file.lines = lineStarts file.contents

theorem StoredFile.wellFormed_new (hash : Bytes → FileId) (name : Bytes) (fileType : FileType)
    (path : Option π) (contents : Bytes) :
    (StoredFile.new hash name fileType path contents).WellFormed hash := ⟨rfl, rfl, rfl⟩

theorem StoredFile.WellFormed.setContents {hash : Bytes → FileId} {file : StoredFile π}
    (h : file.WellFormed hash) (newContents : Bytes) :
    (file.setContents newContents).WellFormed hash := ⟨h.id, rfl, rfl⟩

/-- A well-formed file of that name is in the cell. -/
def FileAt (hash : Bytes → FileId) (heap : Heap (StoredFile π)) (name : Bytes) (r : Ref) : Prop :=
  ∃ file, heap.read r = some file ∧ file.name = name ∧ file.WellFormed hash

section Cells

variable {hash : Bytes → FileId} {heap heap' : Heap (StoredFile π)} {name : Bytes} {r : Ref}

theorem FileAt.alloc (h : FileAt hash heap name r) (file : StoredFile π) :
    FileAt hash (heap.alloc file).1 name r := by
  obtain ⟨old, hread, hname, hwell⟩ := h
  exact ⟨old, Heap.read_alloc_of_some hread file, hname, hwell⟩

theorem fileAt_alloc_self {file : StoredFile π} (h : file.WellFormed hash) :
    FileAt hash (heap.alloc file).1 file.name (heap.alloc file).2 :=
  ⟨file, Heap.read_alloc_self heap file, rfl, h⟩

/-- New contents keep the name, whichever file the cell belongs to. -/
theorem FileAt.write {r' : Ref} {file : StoredFile π} (h : FileAt hash heap name r)
    (hread : heap.read r' = some file) (newContents : Bytes) :
    FileAt hash (heap.write r' (file.setContents newContents)) name r := by
  obtain ⟨old, hold, hname, hwell⟩ := h
  by_cases hr : r = r'
  · subst hr
    obtain rfl : old = file := Option.some_inj.mp (hold.symm.trans hread)
    exact ⟨_, Heap.read_write_self hold _, hname, hwell.setContents newContents⟩
  · exact ⟨old, (Heap.read_write_of_ne hr _ _).trans hold, hname, hwell⟩

end Cells

namespace SharedDatabase

/-- Every name has its file, and the names by identity are the names of the files under their
hashes. -/
structure Consistent (hash : Bytes → FileId) (N : Set Bytes) (heap : Heap (StoredFile π))
    (db : SharedDatabase) : Prop where
  files : ∀ name r, db.files.get? name = some r → name ∈ N ∧ FileAt hash heap name r
  idToName : ∀ id name, db.idToName.get? id = some name ↔
    id = hash name ∧ ∃ r, db.files.get? name = some r

section Consistent

variable {hash : Bytes → FileId} {N : Set Bytes} {heap heap' : Heap (StoredFile π)}
  {db : SharedDatabase}

theorem consistent_empty : empty.Consistent hash N heap := by
  constructor
  · intro name r h
    exact absurd h (by simp [empty, OrderedMap.get?])
  · intro id name
    simp [empty, OrderedMap.get?]

theorem Consistent.mono (h : db.Consistent hash N heap)
    (hheap : ∀ name r, FileAt hash heap name r → FileAt hash heap' name r) :
    db.Consistent hash N heap' := by
  refine ⟨fun name r hget => ?_, h.idToName⟩
  obtain ⟨hname, hfile⟩ := h.files name r hget
  exact ⟨hname, hheap name r hfile⟩

/-- A name that was there, or whose identity was free, gets a file. -/
theorem Consistent.insert (h : db.Consistent hash N heap) (hinj : Set.InjOn hash N)
    {name : Bytes} {r : Ref} (hname : name ∈ N) (hfile : FileAt hash heap name r)
    {idToName : OrderedMap FileId Bytes} (hids : ∀ id ≠ hash name,
      idToName.get? id = db.idToName.get? id) :
    Consistent hash N heap
      ⟨db.files.insert name r, idToName.insert (hash name) name⟩ := by
  have hfiles : ∀ name' r', (db.files.insert name r).get? name' = some r' → name' ∈ N := by
    intro name' r' hget
    rw [OrderedMap.get?_insert] at hget
    split_ifs at hget with hsame
    · rw [hsame]
      exact hname
    · exact (h.files name' r' hget).1
  constructor
  · intro name' r' hget
    refine ⟨hfiles name' r' hget, ?_⟩
    rw [OrderedMap.get?_insert] at hget
    split_ifs at hget with hsame
    · rw [hsame, ← Option.some_inj.mp hget]
      exact hfile
    · exact (h.files name' r' hget).2
  · intro id name'
    dsimp only
    rw [OrderedMap.get?_insert]
    split_ifs with hid
    · rw [Option.some_inj]
      constructor
      · intro hsame
        rw [← hsame, OrderedMap.get?_insert, if_pos rfl]
        exact ⟨hid, r, rfl⟩
      · intro hfound
        obtain ⟨hhash, r', hget⟩ := hfound
        exact hinj hname (hfiles name' r' hget) (hid.symm.trans hhash)
    · rw [hids id hid, h.idToName]
      refine and_congr_right fun hhash => ?_
      have hne : name' ≠ name := fun hsame => hid (hsame ▸ hhash)
      rw [OrderedMap.get?_insert, if_neg hne]

theorem consistent_add (h : db.Consistent hash N heap) (hinj : Set.InjOn hash N)
    {file : StoredFile π} (hfile : file.WellFormed hash) (hname : file.name ∈ N) :
    (db.add heap file).2.1.Consistent hash N (db.add heap file).1 := by
  have hheap := h.mono fun name r hat => hat.alloc file
  have hinsert (idToName : OrderedMap FileId Bytes) (hids : ∀ id ≠ hash file.name,
      idToName.get? id = db.idToName.get? id) :=
    hheap.insert hinj hname (fileAt_alloc_self hfile) hids
  unfold add
  rw [hfile.id]
  cases hold : (db.files.get? file.name).bind heap.read with
  | none => exact hinsert _ fun id _ => rfl
  | some oldFile =>
    obtain ⟨r, hget, hread⟩ := Option.bind_eq_some_iff.mp hold
    obtain ⟨-, old, hread', hname', hwell⟩ := h.files _ r hget
    obtain rfl : oldFile = old := Option.some_inj.mp (hread.symm.trans hread')
    refine hinsert _ fun id hid => ?_
    rw [OrderedMap.get?_erase, if_neg]
    rw [hwell.id, hname']
    exact hid

theorem consistent_update (h : db.Consistent hash N heap) (unique : Ref → Bool) (id : FileId)
    (newContents : Bytes) :
    (db.update hash heap unique id newContents).2.1.Consistent hash N
      (db.update hash heap unique id newContents).1 := by
  unfold update
  cases hid : db.idToName.get? id with
  | none => exact h
  | some name =>
    cases hget : db.files.get? name with
    | none => simpa [hget] using h
    | some r =>
      obtain ⟨hname, file, hread, hfile, hwell⟩ := h.files name r hget
      simp only [hget, hread]
      split_ifs with hunique
      · exact h.mono fun name' r' hat => hat.write hread newContents
      · have hheap := h.mono fun name' r' hat =>
          hat.alloc (.new hash file.name file.fileType file.path newContents)
        constructor
        · intro name' r' hget'
          rw [OrderedMap.get?_insert] at hget'
          split_ifs at hget' with hsame
          · rw [hsame, ← Option.some_inj.mp hget']
            refine ⟨hname, ?_⟩
            rw [← hfile]
            exact fileAt_alloc_self (StoredFile.wellFormed_new hash _ _ _ _)
          · exact hheap.files name' r' hget'
        · intro id' name'
          dsimp only
          rw [h.idToName, OrderedMap.get?_insert]
          refine and_congr_right fun _ => ?_
          split_ifs with hsame
          · exact iff_of_true ⟨r, hsame ▸ hget⟩ ⟨_, rfl⟩
          · rfl

theorem consistent_delete (h : db.Consistent hash N heap) (hinj : Set.InjOn hash N)
    (id : FileId) : (db.delete id).1.Consistent hash N heap := by
  unfold delete
  cases hid : db.idToName.get? id with
  | none => exact h
  | some name =>
    obtain ⟨hhash, r, hget⟩ := (h.idToName id name).mp hid
    constructor
    · intro name' r' hget'
      rw [OrderedMap.get?_erase] at hget'
      split_ifs at hget'
      exact h.files name' r' hget'
    · intro id' name'
      dsimp only
      rw [OrderedMap.get?_erase, OrderedMap.get?_erase]
      split_ifs with hid' hname' hname'
      · simp
      · have hno : ¬ (id' = hash name' ∧ ∃ r, db.files.get? name' = some r) := by
          intro hfound
          obtain ⟨hhash', r', hget'⟩ := hfound
          have hsame := hinj (h.files name' r' hget').1 (h.files name r hget).1
            (hhash'.symm.trans (hid'.trans hhash))
          exact hname' hsame
        simpa using hno
      · have hne : id' ≠ hash name' := fun hsame => hid' (hsame.trans (hname' ▸ hhash.symm))
        simp [h.idToName, hne]
      · exact h.idToName id' name'

/-- What is left of the names of a base while its files are moved. -/
def NamesLeft (hash : Bytes → FileId) (N : Set Bytes) (idToName : OrderedMap FileId Bytes) :
    Prop := ∀ id name, idToName.get? id = some name → id = hash name ∧ name ∈ N

theorem consistent_mergeEntry (hinj : Set.InjOn hash N)
    {state : SharedDatabase × OrderedMap FileId Bytes} {e : Bytes × Ref}
    (h : state.1.Consistent hash N heap) (hleft : NamesLeft hash N state.2) (hname : e.1 ∈ N)
    (hfile : FileAt hash heap e.1 e.2) :
    (mergeEntry heap state e).1.Consistent hash N heap ∧
      NamesLeft hash N (mergeEntry heap state e).2 := by
  obtain ⟨file, hread, hfileName, hwell⟩ := hfile
  unfold mergeEntry
  split_ifs with htaken
  · exact ⟨h, hleft⟩
  · rw [hread]
    dsimp only
    have hid : file.id = hash e.1 := by rw [hwell.id, hfileName]
    have hidName : (state.2.get? file.id).getD e.1 = e.1 := by
      cases hget : state.2.get? file.id with
      | none => rfl
      | some name =>
        obtain ⟨hhash, hmem⟩ := hleft file.id name hget
        exact hinj hmem hname (hhash.symm.trans hid)
    rw [hidName, hid]
    constructor
    · exact h.insert hinj hname ⟨file, hread, hfileName, hwell⟩ fun _ _ => rfl
    · intro id name hget
      rw [OrderedMap.get?_erase] at hget
      split_ifs at hget
      exact hleft id name hget

theorem consistent_mergeBase (h : db.Consistent hash N heap) (hinj : Set.InjOn hash N)
    {base : SharedDatabase} (hbase : base.Consistent hash N heap) (order : VisitOrder) :
    (db.mergeBase heap order base).Consistent hash N heap := by
  have hfold : ∀ (entries : List (Bytes × Ref)) (state : SharedDatabase × OrderedMap FileId Bytes),
      (∀ e ∈ entries, e.1 ∈ N ∧ FileAt hash heap e.1 e.2) → state.1.Consistent hash N heap →
      NamesLeft hash N state.2 →
      (entries.foldl (mergeEntry heap) state).1.Consistent hash N heap := by
    intro entries
    induction entries with
    | nil => exact fun state _ hstate _ => hstate
    | cons e entries ih =>
      intro state hentries hstate hleft
      obtain ⟨hname, hfile⟩ := hentries e List.mem_cons_self
      obtain ⟨hstate', hleft'⟩ := consistent_mergeEntry hinj hstate hleft hname hfile
      exact ih _ (fun e' he' => hentries e' (List.mem_cons_of_mem _ he')) hstate' hleft'
  refine hfold _ _ (fun e he => ?_) h fun id name hget => ?_
  · rw [(order.perm _).mem_iff] at he
    exact hbase.files e.1 e.2 (OrderedMap.get?_eq_some_iff.mpr he)
  · obtain ⟨hhash, r, hr⟩ := (hbase.idToName id name).mp hget
    exact ⟨hhash, (hbase.files name r hr).1⟩

end Consistent

end SharedDatabase

/-! ## The files behind the references -/

/-- The references of a shared database lead to the files of a database. -/
structure Represents (hash : Bytes → FileId) (heap : Heap (StoredFile π)) (shared : SharedDatabase)
    (db : Database π) : Prop where
  files : ∀ name, (shared.files.get? name).bind heap.read =
    (db.files.get? name).map (File.stored hash)
  idToName : ∀ id, shared.idToName.get? id = db.idToName.get? id

namespace Represents

variable {hash : Bytes → FileId} {N : Set Bytes} {heap : Heap (StoredFile π)}
  {shared : SharedDatabase} {db : Database π}

/-- New contents are read at one name only, whichever cell they are in. -/
theorem update (hshared : shared.Consistent hash N heap) (h : Represents hash heap shared db)
    (unique : Ref → Bool) (id : FileId) (newContents : Bytes) :
    Represents hash (shared.update hash heap unique id newContents).1
      (shared.update hash heap unique id newContents).2.1 (db.update id newContents) := by
  unfold SharedDatabase.update Database.update
  rw [← h.idToName]
  cases hid : shared.idToName.get? id with
  | none => exact h
  | some name =>
    obtain ⟨-, r, hr⟩ := (hshared.idToName id name).mp hid
    obtain ⟨-, stored, hread, hname, -⟩ := hshared.files name r hr
    have hfile := h.files name
    rw [hr, Option.bind_some, hread, eq_comm, Option.map_eq_some_iff] at hfile
    obtain ⟨file, hget, rfl⟩ := hfile
    simp only [hr, hread, hget]
    have hother : ∀ {name' : Bytes} {r' : Ref}, name' ≠ name →
        shared.files.get? name' = some r' → r' ≠ r := by
      intro name' r' hne hr' hsame
      obtain ⟨-, stored', hread', hname', -⟩ := hshared.files name' r' hr'
      rw [hsame, hread, Option.some_inj] at hread'
      exact hne (hname'.symm.trans ((congrArg StoredFile.name hread').symm.trans hname))
    split_ifs with hunique
    · refine ⟨fun name' => ?_, h.idToName⟩
      rw [OrderedMap.get?_insert]
      split_ifs with hsame
      · rw [hsame, hr, Option.bind_some, Heap.read_write_self hread]
        rfl
      · rw [← h.files name']
        cases hr' : shared.files.get? name' with
        | none => rfl
        | some r' => exact Heap.read_write_of_ne (hother hsame hr') _ _
    · refine ⟨fun name' => ?_, h.idToName⟩
      dsimp only
      rw [OrderedMap.get?_insert, OrderedMap.get?_insert]
      split_ifs with hsame
      · rw [Option.bind_some, Heap.read_alloc_self]
        rfl
      · rw [← h.files name']
        cases hr' : shared.files.get? name' with
        | none => rfl
        | some r' =>
          obtain ⟨-, other, hread', -⟩ := hshared.files name' r' hr'
          rw [Option.bind_some, Option.bind_some, hread']
          exact Heap.read_alloc_of_some hread' _

theorem add (hshared : shared.Consistent hash N heap) (h : Represents hash heap shared db)
    (file : File π) : Represents hash (shared.add heap (file.stored hash)).1
      (shared.add heap (file.stored hash)).2.1 (db.add hash file) := by
  constructor
  · intro name
    unfold SharedDatabase.add Database.add
    dsimp only [File.stored, StoredFile.new]
    rw [OrderedMap.get?_insert, OrderedMap.get?_insert]
    split_ifs with hsame
    · rw [Option.bind_some, Heap.read_alloc_self]
      rfl
    · rw [← h.files name]
      cases hr : shared.files.get? name with
      | none => rfl
      | some r =>
        obtain ⟨-, other, hread, -⟩ := hshared.files name r hr
        rw [Option.bind_some, Option.bind_some, hread]
        exact Heap.read_alloc_of_some hread _
  · intro id
    have hold := h.files file.name
    unfold SharedDatabase.add Database.add
    dsimp only [File.stored, StoredFile.new]
    rw [OrderedMap.get?_insert, OrderedMap.get?_insert, hold]
    by_cases hid : id = hash file.name
    · rw [if_pos hid, if_pos (show id = file.id hash from hid)]
    · rw [if_neg hid, if_neg (show id ≠ file.id hash from hid)]
      cases db.files.get? file.name with
      | none => exact h.idToName id
      | some oldFile =>
        rw [Option.map_some]
        dsimp only
        rw [OrderedMap.get?_erase, OrderedMap.get?_erase, h.idToName]
        rfl

theorem delete (h : Represents hash heap shared db) (id : FileId) :
    Represents hash heap (shared.delete id).1 (db.delete id) := by
  unfold SharedDatabase.delete Database.delete
  rw [← h.idToName]
  cases shared.idToName.get? id with
  | none => exact h
  | some name =>
    constructor
    · intro name'
      dsimp only
      rw [OrderedMap.get?_erase, OrderedMap.get?_erase]
      split_ifs
      · rfl
      · exact h.files name'
    · intro id'
      dsimp only
      rw [OrderedMap.get?_erase, OrderedMap.get?_erase]
      split_ifs
      · rfl
      · exact h.idToName id'

end Represents

/-! ## The snapshot of a database -/

namespace SharedDatabase

theorem get_eq_ok_iff {db : SharedDatabase} {id : FileId} {r : Ref} :
    db.get id = .ok r ↔ ∃ name, db.idToName.get? id = some name ∧ db.files.get? name = some r := by
  rw [get, orNotFound_eq_ok_iff, Option.bind_eq_some_iff]

section Sorted

variable {hash : Bytes → FileId} {N : Set Bytes} {heap : Heap (StoredFile π)}
  {db : SharedDatabase} (h : db.Consistent hash N heap) (order : VisitOrder)

include h

/-- Each file is sorted in under the hash of its name. -/
theorem Consistent.entries_eq :
    db.entries heap = db.files.entries.map fun e => (hash e.1, e.2) := by
  rw [entries, OrderedMap.values, List.filterMap_map, ← List.filterMap_eq_map]
  refine List.filterMap_congr fun e he => ?_
  obtain ⟨-, file, hread, hname, hwell⟩ := h.files e.1 e.2 (OrderedMap.get?_eq_some_iff.mpr he)
  simp [hread, hwell.id, hname]

theorem Consistent.sorted_perm :
    (db.sorted heap order).Perm (db.files.entries.map fun e => (hash e.1, e.2)) := by
  rw [← h.entries_eq]
  exact (List.perm_insertionSort _ _).trans (order.perm _)

theorem Consistent.mem_sorted {id : FileId} {r : Ref} :
    (id, r) ∈ db.sorted heap order ↔ db.get id = .ok r := by
  rw [(h.sorted_perm order).mem_iff, get_eq_ok_iff]
  simp only [List.mem_map, Prod.mk.injEq, h.idToName]
  constructor
  · intro hmem
    obtain ⟨e, he, hid, hr⟩ := hmem
    have hget := OrderedMap.get?_eq_some_iff.mpr he
    exact ⟨e.1, ⟨hid.symm, e.2, hget⟩, hr ▸ hget⟩
  · intro hfound
    obtain ⟨name, ⟨hid, -⟩, hget⟩ := hfound
    exact ⟨(name, r), OrderedMap.get?_eq_some_iff.mp hget, hid.symm, rfl⟩

theorem Consistent.nodup_ids (hinj : Set.InjOn hash N) :
    ((db.sorted heap order).map Prod.fst).Nodup := by
  rw [((h.sorted_perm order).map _).nodup_iff, List.map_map]
  refine List.Nodup.map_on ?_ db.files.nodup.of_map
  intro e he e' he' hid
  have hname := hinj (h.files e.1 e.2 (OrderedMap.get?_eq_some_iff.mpr he)).1
    (h.files e'.1 e'.2 (OrderedMap.get?_eq_some_iff.mpr he')).1 hid
  exact List.inj_on_of_nodup_map db.files.nodup he he' hname

theorem Consistent.nodup_names (order : VisitOrder) : ((db.readOnly heap order).files.filterMap fun r =>
    (heap.read r).map StoredFile.name).Nodup := by
  have hperm := (h.sorted_perm order).map Prod.snd
  have hnames : (db.files.entries.map Prod.snd).filterMap (fun r =>
      (heap.read r).map StoredFile.name) = db.files.keys := by
    rw [List.filterMap_map, OrderedMap.keys, ← List.filterMap_eq_map]
    refine List.filterMap_congr fun e he => ?_
    obtain ⟨-, file, hread, hname, -⟩ := h.files e.1 e.2 (OrderedMap.get?_eq_some_iff.mpr he)
    simp [hread, hname]
  rw [readOnly, (hperm.filterMap _).nodup_iff, List.map_map]
  exact hnames ▸ db.files.nodup

/-- The position of a file by its identity. -/
theorem Consistent.idToIndex_eq (hinj : Set.InjOn hash N) {id : FileId} {i : ℕ} :
    (db.readOnly heap order).idToIndex.get? id = some i ↔
      ∃ r, (db.sorted heap order)[i]? = some (id, r) := by
  have hids := h.nodup_ids order hinj
  rw [← List.filterMap_eq_map] at hids
  have hindex := OrderedMap.get?_ofList_zipIdx (k := id) (i := i) hids
  have hmap : ((db.sorted heap order).zipIdx.map fun e => (e.1.1, e.2)) =
      (db.sorted heap order).zipIdx.filterMap fun e =>
        ((some ∘ Prod.fst) e.1).map fun k => (k, e.2) := by
    rw [← List.filterMap_eq_map]
    rfl
  unfold readOnly
  dsimp only
  rw [hmap, hindex]
  constructor
  · intro hfound
    obtain ⟨e, he, hid⟩ := hfound
    obtain rfl : e.1 = id := Option.some_inj.mp hid
    exact ⟨e.2, he⟩
  · intro hfound
    obtain ⟨r, he⟩ := hfound
    exact ⟨_, he, rfl⟩

theorem Consistent.get_readOnly (hinj : Set.InjOn hash N) (id : FileId) :
    (db.readOnly heap order).get id = db.get id := by
  have hfound : ((db.readOnly heap order).idToIndex.get? id).bind
      (fun index => (db.readOnly heap order).files[index]?) =
      (db.idToName.get? id).bind db.files.get? := by
    ext r
    have hget : (db.idToName.get? id).bind db.files.get? = some r ↔
        (id, r) ∈ db.sorted heap order := by
      rw [h.mem_sorted order, get, orNotFound_eq_ok_iff]
    rw [hget, Option.bind_eq_some_iff]
    simp only [h.idToIndex_eq order hinj]
    have hfiles : ∀ {i : ℕ} {e : FileId × Ref}, (db.sorted heap order)[i]? = some e →
        (db.readOnly heap order).files[i]? = some e.2 := by
      intro i e he
      rw [readOnly, List.getElem?_map, he, Option.map_some]
    constructor
    · intro hmem
      obtain ⟨i, ⟨r', he⟩, hr⟩ := hmem
      obtain rfl : r' = r := Option.some_inj.mp ((hfiles he).symm.trans hr)
      exact List.mem_of_getElem? he
    · intro hmem
      obtain ⟨i, he⟩ := List.mem_iff_getElem?.mp hmem
      exact ⟨i, ⟨r, he⟩, hfiles he⟩
  rw [Snapshot.get, hfound, get]

theorem Consistent.mem_files {r : Ref} :
    r ∈ (db.readOnly heap order).files ↔ ∃ name, db.files.get? name = some r := by
  rw [readOnly, ((h.sorted_perm order).map Prod.snd).mem_iff, List.map_map]
  simp only [List.mem_map, OrderedMap.get?_eq_some_iff]
  constructor
  · intro hmem
    obtain ⟨e, he, hr⟩ := hmem
    exact ⟨e.1, hr ▸ he⟩
  · intro hmem
    obtain ⟨name, he⟩ := hmem
    exact ⟨_, he, rfl⟩

/-- The file of a name is the one at its position. -/
theorem Consistent.named_readOnly (name : Bytes) :
    (db.readOnly heap order).named heap name = db.files.get? name := by
  ext r
  have hnone : (db.readOnly heap order).nameIndex heap = (db.readOnly heap order).names heap := rfl
  rw [Snapshot.named, hnone, Option.bind_eq_some_iff]
  simp only [Snapshot.names, OrderedMap.get?_ofList_zipIdx (h.nodup_names order)]
  constructor
  · intro hfound
    obtain ⟨i, ⟨r', hr', hread⟩, hr⟩ := hfound
    obtain rfl : r' = r := Option.some_inj.mp (hr'.symm.trans hr)
    obtain ⟨name', hget⟩ := (h.mem_files order).mp (List.mem_of_getElem? hr)
    obtain ⟨-, file, hread', hname, -⟩ := h.files name' r' hget
    rw [hread', Option.map_some, Option.some_inj] at hread
    rwa [← hread, hname]
  · intro hget
    obtain ⟨i, hi⟩ := List.mem_iff_getElem?.mp ((h.mem_files order).mpr ⟨name, hget⟩)
    obtain ⟨-, file, hread, hname, -⟩ := h.files name r hget
    exact ⟨i, ⟨r, hi, by rw [hread, Option.map_some, hname]⟩, hi⟩

theorem Consistent.len_readOnly : (db.readOnly heap order).len = db.len := by
  have hlen := (h.sorted_perm order).length_eq
  rw [Snapshot.len, readOnly, List.length_map, hlen, List.length_map]
  rfl

end Sorted

end SharedDatabase

/-! ## A snapshot while the world goes on -/

namespace Snapshot

/-- Every file can be read, and an index by name is the one of the files. -/
structure Valid (heap : Heap (StoredFile π)) (db : Snapshot) : Prop where
  files : ∀ r ∈ db.files, ∃ file, heap.read r = some file
  nameToIndex : ∀ index, db.nameToIndex = some index → index = db.names heap

/-- The same snapshot over a heap that has the same files in its cells. The index by name may
have been built in the meantime. -/
structure SameFiles (heap : Heap (StoredFile π)) (db : Snapshot) (heap' : Heap (StoredFile π))
    (db' : Snapshot) : Prop where
  files : db'.files = db.files
  idToIndex : db'.idToIndex = db.idToIndex
  read : ∀ r ∈ db.files, heap'.read r = heap.read r

section SameFiles

variable {heap heap' heap'' : Heap (StoredFile π)} {db db' db'' : Snapshot}

theorem SameFiles.refl (heap : Heap (StoredFile π)) (db : Snapshot) :
    db.SameFiles heap heap db := ⟨rfl, rfl, fun _ _ => rfl⟩

theorem SameFiles.trans (h : db.SameFiles heap heap' db') (h' : db'.SameFiles heap' heap'' db'') :
    db.SameFiles heap heap'' db'' := by
  refine ⟨h'.files.trans h.files, h'.idToIndex.trans h.idToIndex, fun r hr => ?_⟩
  rw [h'.read r (h.files ▸ hr), h.read r hr]

theorem SameFiles.names_eq (h : db.SameFiles heap heap' db') :
    db'.names heap' = db.names heap := by
  unfold names
  rw [h.files]
  congr 1
  refine List.filterMap_congr fun e he => ?_
  rw [h.read e.1 (List.mem_of_getElem? (List.mem_zipIdx_iff_getElem?.mp he))]

theorem SameFiles.valid (h : db.SameFiles heap heap' db') (hdb : db.Valid heap)
    (hindex : db'.nameToIndex = db.nameToIndex) : db'.Valid heap' := by
  constructor
  · intro r hr
    rw [h.files] at hr
    rw [h.read r hr]
    exact hdb.files r hr
  · intro index hnames
    rw [h.names_eq]
    exact hdb.nameToIndex index (hindex ▸ hnames)

theorem Valid.nameIndex_eq (h : db.Valid heap) : db.nameIndex heap = db.names heap := by
  unfold nameIndex
  cases hindex : db.nameToIndex with
  | none => rfl
  | some index => exact h.nameToIndex index hindex

theorem Valid.initialised (h : db.Valid heap) : (db.initialised heap).Valid heap := by
  refine ⟨h.files, fun index hindex => ?_⟩
  obtain rfl : db.nameIndex heap = index := Option.some_inj.mp hindex
  exact h.nameIndex_eq

/-- The lookups do not depend on when the index by name was built. -/
theorem SameFiles.named_eq (h : db.SameFiles heap heap' db') (hdb : db.Valid heap)
    (hdb' : db'.Valid heap') (name : Bytes) : db'.named heap' name = db.named heap name := by
  rw [named, named, hdb'.nameIndex_eq, hdb.nameIndex_eq, h.names_eq, h.files]

end SameFiles

end Snapshot

/-- The snapshot answers over its heap as the database did over another one, and the files it
leads to are still the same. -/
structure AnswersAs (heap : Heap (StoredFile π)) (db : SharedDatabase)
    (heap' : Heap (StoredFile π)) (s : Snapshot) : Prop where
  get : ∀ id, s.get id = db.get id
  getId : ∀ name, s.getId heap' name = db.getId heap name
  getByName : ∀ name, s.getByName heap' name = db.getByName name
  len : s.len = db.len
  read : ∀ name r, db.getByName name = .ok r → heap'.read r = heap.read r

theorem answersAs_of_sameFiles {hash : Bytes → FileId} {N : Set Bytes}
    (hinj : Set.InjOn hash N) {heap heap' : Heap (StoredFile π)} {db : SharedDatabase}
    (h : db.Consistent hash N heap) {order : VisitOrder} {s : Snapshot}
    (hsame : (db.readOnly heap order).SameFiles heap heap' s)
    (hvalid : (db.readOnly heap order).Valid heap) (hs : s.Valid heap') :
    AnswersAs heap db heap' s := by
  have hnamed : ∀ name, s.named heap' name = db.files.get? name := fun name =>
    (hsame.named_eq hvalid hs name).trans (h.named_readOnly order name)
  have hread : ∀ name r, db.files.get? name = some r → heap'.read r = heap.read r :=
    fun name r hget => hsame.read r ((h.mem_files order).mpr ⟨name, hget⟩)
  constructor
  · intro id
    rw [← h.get_readOnly order hinj, Snapshot.get, Snapshot.get, hsame.idToIndex, hsame.files]
  · intro name
    rw [Snapshot.getId, SharedDatabase.getId, hnamed]
    cases hget : db.files.get? name with
    | none => rfl
    | some r => rw [Option.bind_some, Option.bind_some, hread name r hget]
  · intro name
    rw [Snapshot.getByName, SharedDatabase.getByName, hnamed]
  · rw [← h.len_readOnly order, Snapshot.len, Snapshot.len, hsame.files]
  · intro name r hget
    exact hread name r (orNotFound_eq_ok_iff.mp hget)

end Mago.Storage
