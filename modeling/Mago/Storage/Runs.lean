import Mago.Storage.Commit
import Mago.Storage.Snapshots

/-!
# Runs over databases and snapshots

A cell that a snapshot refers to has a strong count above one when a database refers to it
too, so no update writes into it. A commit over shared cells leaves the database that it
leaves over files.
-/
namespace Mago.Storage
open Library

variable {π : Type*}

namespace World

/-- All databases are consistent and all snapshots valid. -/
structure Sound (hash : Bytes → FileId) (N : Set Bytes) (w : World π) : Prop where
  databases : ∀ db ∈ w.databases, db.Consistent hash N w.heap
  snapshots : ∀ db, some db ∈ w.snapshots → db.Valid w.heap

/-- The live snapshots outside of a set keep their files. -/
def Keeps (D : Set ℕ) (w w' : World π) : Prop :=
  ∀ i ∉ D, ∀ db : Snapshot, w.snapshots[i]? = some (some db) →
    ∃ db', w'.snapshots[i]? = some (some db') ∧ db.SameFiles w.heap w'.heap db'

theorem Keeps.refl (D : Set ℕ) (w : World π) : w.Keeps D w :=
  fun _ _ db h => ⟨db, h, .refl _ _⟩

theorem Keeps.trans {D : Set ℕ} {w w' w'' : World π} (h : w.Keeps D w') (h' : w'.Keeps D w'') :
    w.Keeps D w'' := by
  intro i hi db hdb
  obtain ⟨db', hdb', hsame⟩ := h i hi db hdb
  obtain ⟨db'', hdb'', hsame'⟩ := h' i hi db' hdb'
  exact ⟨db'', hdb'', hsame.trans hsame'⟩

/-- A reference of a database and of a snapshot is counted twice. -/
theorem not_unique {w : World π} {db : SharedDatabase} (hdb : db ∈ w.databases) {r : Ref}
    (hr : r ∈ db.files.values) {s : Snapshot} (hs : some s ∈ w.snapshots) (hrs : r ∈ s.files) :
    w.unique r = false := by
  have hdatabases : 0 < (w.databases.flatMap fun db => db.files.values).count r :=
    List.count_pos_iff.mpr (List.mem_flatMap.mpr ⟨db, hdb, hr⟩)
  have hsnapshots :
      0 < (w.snapshots.flatMap fun db => (db.map Snapshot.files).getD []).count r :=
    List.count_pos_iff.mpr (List.mem_flatMap.mpr ⟨some s, hs, hrs⟩)
  rw [unique, decide_eq_false_iff_not, references, List.count_append, List.count_append]
  omega

section Step

variable {hash : Bytes → FileId} {N : Set Bytes} {D : Set ℕ} {w : World π}

/-- What a change of one database has to keep of the cells. -/
structure HeapKept (hash : Bytes → FileId) (w : World π) (heap : Heap (StoredFile π)) :
    Prop where
  files : ∀ name r, FileAt hash w.heap name r → FileAt hash heap name r
  snapshots : ∀ db, some db ∈ w.snapshots → ∀ r ∈ db.files, heap.read r = w.heap.read r

theorem HeapKept.refl (hash : Bytes → FileId) (w : World π) : HeapKept hash w w.heap :=
  ⟨fun _ _ h => h, fun _ _ _ _ => rfl⟩

theorem HeapKept.alloc (h : w.Sound hash N) (file : StoredFile π) :
    HeapKept hash w (w.heap.alloc file).1 := by
  refine ⟨fun name r hat => hat.alloc file, fun db hdb r hr => ?_⟩
  obtain ⟨old, hread⟩ := (h.snapshots db hdb).files r hr
  rw [hread]
  exact Heap.read_alloc_of_some hread file

theorem HeapKept.update (h : w.Sound hash N) {db : SharedDatabase} (hdb : db ∈ w.databases)
    (id : FileId) (newContents : Bytes) :
    HeapKept hash w (db.update hash w.heap w.unique id newContents).1 := by
  unfold SharedDatabase.update
  cases hid : db.idToName.get? id with
  | none => exact .refl hash w
  | some name =>
    cases hget : db.files.get? name with
    | none =>
      simp only [hget]
      exact .refl hash w
    | some r =>
      obtain ⟨-, file, hread, -, -⟩ := (h.databases db hdb).files name r hget
      simp only [hget, hread]
      split_ifs with hunique
      · refine ⟨fun name' r' hat => hat.write hread newContents, fun s hs r' hr' => ?_⟩
        refine Heap.read_write_of_ne (fun hsame => ?_) _ _
        subst hsame
        have hvalue := OrderedMap.mem_values.mpr ⟨name, OrderedMap.get?_eq_some_iff.mp hget⟩
        rw [not_unique hdb hvalue hs hr'] at hunique
        exact absurd hunique Bool.false_ne_true
      · exact .alloc h _

/-- A changed database leaves the others consistent and the snapshots as they are. -/
theorem sound_setDatabase (h : w.Sound hash N) {heap : Heap (StoredFile π)}
    (hheap : HeapKept hash w heap) {db : SharedDatabase} (hdb : db.Consistent hash N heap)
    (d : ℕ) : (w.setDatabase d heap db).Sound hash N ∧ w.Keeps D (w.setDatabase d heap db) := by
  refine ⟨⟨fun other hother => ?_, fun s hs => ?_⟩, fun i _ s hs => ?_⟩
  · rcases List.mem_or_eq_of_mem_set hother with hother | rfl
    · exact (h.databases other hother).mono hheap.files
    · exact hdb
  · exact Snapshot.SameFiles.valid ⟨rfl, rfl, hheap.snapshots s hs⟩ (h.snapshots s hs) rfl
  · exact ⟨s, hs, rfl, rfl, hheap.snapshots s (List.mem_of_getElem? hs)⟩

theorem sound_add (h : w.Sound hash N) (hinj : Set.InjOn hash N) (d : ℕ) {file : File π}
    (hname : file.name ∈ N) : (w.add hash d file).Sound hash N ∧ w.Keeps D (w.add hash d file) := by
  unfold add
  cases hdb : w.databases[d]? with
  | none => exact ⟨h, .refl D w⟩
  | some db =>
    have hconsistent := h.databases db (List.mem_of_getElem? hdb)
    exact sound_setDatabase h (.alloc h _) (SharedDatabase.consistent_add hconsistent hinj
      (StoredFile.wellFormed_new hash _ _ _ _) hname) d

theorem sound_update (h : w.Sound hash N) (d : ℕ) (id : FileId) (newContents : Bytes) :
    (w.update hash d id newContents).Sound hash N ∧ w.Keeps D (w.update hash d id newContents) := by
  unfold update
  cases hdb : w.databases[d]? with
  | none => exact ⟨h, .refl D w⟩
  | some db =>
    have hmem := List.mem_of_getElem? hdb
    exact sound_setDatabase h (.update h hmem id newContents)
      (SharedDatabase.consistent_update (h.databases db hmem) w.unique id newContents) d

theorem sound_delete (h : w.Sound hash N) (hinj : Set.InjOn hash N) (d : ℕ) (id : FileId) :
    (w.delete d id).Sound hash N ∧ w.Keeps D (w.delete d id) := by
  unfold delete
  cases hdb : w.databases[d]? with
  | none => exact ⟨h, .refl D w⟩
  | some db =>
    have hconsistent := h.databases db (List.mem_of_getElem? hdb)
    exact sound_setDatabase h (.refl hash w)
      (SharedDatabase.consistent_delete hconsistent hinj id) d

theorem sound_mergeBase (h : w.Sound hash N) (hinj : Set.InjOn hash N) (order : VisitOrder)
    (d base : ℕ) : (w.mergeBase order d base).Sound hash N ∧ w.Keeps D (w.mergeBase order d base) := by
  unfold mergeBase
  cases hdb : w.databases[d]? with
  | none => exact ⟨h, .refl D w⟩
  | some db =>
    cases hbase : w.databases[base]? with
    | none => exact ⟨h, .refl D w⟩
    | some baseDb =>
      dsimp only
      split_ifs
      · exact ⟨h, .refl D w⟩
      · have hmerged := SharedDatabase.consistent_mergeBase
          (h.databases db (List.mem_of_getElem? hdb)) hinj
          (h.databases baseDb (List.mem_of_getElem? hbase)) order
        obtain ⟨hsound, hkeeps⟩ := sound_setDatabase h (.refl hash w) hmerged d
        obtain ⟨hsound', hkeeps'⟩ := sound_setDatabase hsound (.refl hash _)
          SharedDatabase.consistent_empty base
        exact ⟨hsound', hkeeps.trans hkeeps'⟩

theorem sound_change (h : w.Sound hash N) (hinj : Set.InjOn hash N) (d : ℕ) {change : Change π}
    (hname : ∀ file, change = .add file → file.name ∈ N) :
    (w.change hash d change).Sound hash N ∧ w.Keeps D (w.change hash d change) := by
  cases change with
  | add file => exact sound_add h hinj d (hname file rfl)
  | update id contents => exact sound_update h d id contents
  | delete id => exact sound_delete h hinj d id

theorem sound_commit (h : w.Sound hash N) (hinj : Set.InjOn hash N) (d : ℕ) (log : ChangeLog π)
    (hnames : ∀ file, Change.add file ∈ log.changes → file.name ∈ N) :
    (w.commit hash d log).Sound hash N ∧ w.Keeps D (w.commit hash d log) := by
  have hfold : ∀ (changes : List (Change π)) (w : World π),
      (∀ file, Change.add file ∈ changes → file.name ∈ N) → w.Sound hash N →
      (changes.foldl (change hash d) w).Sound hash N ∧
        w.Keeps D (changes.foldl (change hash d) w) := by
    intro changes
    induction changes with
    | nil => exact fun w _ hw => ⟨hw, .refl D w⟩
    | cons c changes ih =>
      intro w hchanges hw
      have hstep := sound_change (D := D) hw hinj d fun file hfile =>
        hchanges file (hfile ▸ List.mem_cons_self)
      obtain ⟨hsound, hkeeps⟩ := ih _ (fun file hfile =>
        hchanges file (List.mem_cons_of_mem _ hfile)) hstep.1
      exact ⟨hsound, hstep.2.trans hkeeps⟩
  unfold commit ChangeLog.intoInner
  split_ifs
  · exact ⟨h, .refl D w⟩
  · exact ⟨h, .refl D w⟩
  · exact hfold log.changes w hnames h

theorem valid_readOnly {heap : Heap (StoredFile π)} {db : SharedDatabase}
    (h : db.Consistent hash N heap) (order : VisitOrder) : (db.readOnly heap order).Valid heap := by
  refine ⟨fun r hr => ?_, fun index hindex => ?_⟩
  · obtain ⟨name, hget⟩ := (h.mem_files order).mp hr
    obtain ⟨-, file, hread, -⟩ := h.files name r hget
    exact ⟨file, hread⟩
  · simp [SharedDatabase.readOnly] at hindex

theorem sound_appendSnapshot (h : w.Sound hash N) {s : Snapshot} (hs : s.Valid w.heap) :
    Sound hash N { w with snapshots := w.snapshots ++ [some s] } ∧
      w.Keeps D { w with snapshots := w.snapshots ++ [some s] } := by
  refine ⟨⟨h.databases, fun db hdb => ?_⟩, fun i _ db hdb => ⟨db, ?_, .refl _ _⟩⟩
  · rcases List.mem_append.mp hdb with hdb | hdb
    · exact h.snapshots db hdb
    · obtain rfl : db = s := Option.some_inj.mp (List.mem_singleton.mp hdb)
      exact hs
  · obtain ⟨hlt, -⟩ := List.getElem?_eq_some_iff.mp hdb
    exact (List.getElem?_append_left hlt).trans hdb

theorem sound_setSnapshot (h : w.Sound hash N) {i : ℕ} {db s : Snapshot}
    (hdb : w.snapshots[i]? = some (some db)) (hsame : db.SameFiles w.heap w.heap s)
    (hs : s.Valid w.heap) : Sound hash N { w with snapshots := w.snapshots.set i (some s) } ∧
      w.Keeps D { w with snapshots := w.snapshots.set i (some s) } := by
  refine ⟨⟨h.databases, fun other hother => ?_⟩, fun j _ other hother => ?_⟩
  · rcases List.mem_or_eq_of_mem_set hother with hother | hother
    · exact h.snapshots other hother
    · obtain rfl : other = s := Option.some_inj.mp hother
      exact hs
  · by_cases hij : i = j
    · subst hij
      obtain rfl : db = other := Option.some_inj.mp (Option.some_inj.mp (hdb.symm.trans hother))
      obtain ⟨hlt, -⟩ := List.getElem?_eq_some_iff.mp hdb
      exact ⟨s, List.getElem?_set_self hlt, hsame⟩
    · exact ⟨other, (List.getElem?_set_ne hij).trans hother, .refl _ _⟩

theorem sound_dropSnapshot (h : w.Sound hash N) {i : ℕ} (hi : i ∈ D) :
    Sound hash N { w with snapshots := w.snapshots.set i none } ∧
      w.Keeps D { w with snapshots := w.snapshots.set i none } := by
  refine ⟨⟨h.databases, fun other hother => ?_⟩, fun j hj other hother => ?_⟩
  · rcases List.mem_or_eq_of_mem_set hother with hother | hother
    · exact h.snapshots other hother
    · exact absurd hother (by simp)
  · have hij : i ≠ j := fun hij => hj (hij ▸ hi)
    exact ⟨other, (List.getElem?_set_ne hij).trans hother, .refl _ _⟩

/-- One operation keeps the databases consistent and the snapshots as they are. -/
theorem sound_perform (h : w.Sound hash N) (hinj : Set.InjOn hash N) {o : Operation π}
    (hnames : ∀ name ∈ o.names, name ∈ N) (hdrop : ∀ i, o = .dropSnapshot i → i ∈ D) :
    (w.perform hash o).Sound hash N ∧ w.Keeps D (w.perform hash o) := by
  cases o with
  | create =>
    refine ⟨⟨fun db hdb => ?_, h.snapshots⟩, .refl D w⟩
    rcases List.mem_append.mp hdb with hdb | hdb
    · exact h.databases db hdb
    · rw [List.mem_singleton.mp hdb]
      exact SharedDatabase.consistent_empty
  | clone d =>
    refine ⟨⟨fun db hdb => ?_, h.snapshots⟩, .refl D w⟩
    rcases List.mem_append.mp hdb with hdb | hdb
    · exact h.databases db hdb
    · exact h.databases db (List.mem_of_getElem? (Option.mem_toList.mp hdb))
  | add d file => exact sound_add h hinj d (hnames _ (by simp [Operation.names]))
  | update d id newContents => exact sound_update h d id newContents
  | delete d id => exact sound_delete h hinj d id
  | mergeBase order d base => exact sound_mergeBase h hinj order d base
  | commit d log =>
    refine sound_commit h hinj d log fun file hfile => hnames _ ?_
    exact List.mem_filterMap.mpr ⟨_, hfile, rfl⟩
  | readOnly order d =>
    rw [perform]
    cases hdb : w.databases[d]? with
    | none =>
      rw [Option.map_none, Option.toList_none, List.append_nil]
      exact ⟨h, .refl D w⟩
    | some db =>
      exact sound_appendSnapshot h
        (valid_readOnly (h.databases db (List.mem_of_getElem? hdb)) order)
  | queryByName s =>
    rw [perform]
    split
    · rename_i db hdb
      have hvalid := h.snapshots db (List.mem_of_getElem? hdb)
      exact sound_setSnapshot h hdb ⟨rfl, rfl, fun _ _ => rfl⟩ hvalid.initialised
    · exact ⟨h, .refl D w⟩
  | hold r =>
    rw [perform]
    split_ifs
    · exact ⟨⟨h.databases, h.snapshots⟩, .refl D w⟩
    · exact ⟨h, .refl D w⟩
  | release r => exact ⟨⟨h.databases, h.snapshots⟩, .refl D w⟩
  | dropDatabase d =>
    exact sound_setDatabase h (.refl hash w) SharedDatabase.consistent_empty d
  | dropSnapshot i => exact sound_dropSnapshot h (hdrop i rfl)

/-- A whole run keeps the databases consistent and the snapshots as they are. -/
theorem sound_run (h : w.Sound hash N) (hinj : Set.InjOn hash N) {operations : List (Operation π)}
    (hnames : ∀ o ∈ operations, ∀ name ∈ o.names, name ∈ N)
    (hdrop : ∀ i, .dropSnapshot i ∈ operations → i ∈ D) :
    (w.run hash operations).Sound hash N ∧ w.Keeps D (w.run hash operations) := by
  induction operations generalizing w with
  | nil => exact ⟨h, .refl D w⟩
  | cons o operations ih =>
    obtain ⟨hsound, hkeeps⟩ := sound_perform h hinj (hnames o List.mem_cons_self) fun i hi =>
      hdrop i (hi ▸ List.mem_cons_self)
    obtain ⟨hsound', hkeeps'⟩ := ih hsound (fun o' ho' => hnames o' (List.mem_cons_of_mem _ ho'))
      fun i hi => hdrop i (List.mem_cons_of_mem _ hi)
    exact ⟨hsound', hkeeps.trans hkeeps'⟩

theorem sound_empty : (empty : World π).Sound hash N := by
  constructor
  · intro db hdb
    exact absurd hdb List.not_mem_nil
  · intro db hdb
    exact absurd hdb List.not_mem_nil

end Step

/-! ## Commits over shared cells -/

/-- The database at an index leads to the files of a database of files. -/
def Holds (hash : Bytes → FileId) (d : ℕ) (w : World π) (db : Database π) : Prop :=
  ∃ shared, w.databases[d]? = some shared ∧ Represents hash w.heap shared db

section Holds

variable {hash : Bytes → FileId} {N : Set Bytes} {w : World π} {d : ℕ} {db db' : Database π}

theorem holds_setDatabase {heap : Heap (StoredFile π)} {shared : SharedDatabase}
    (hd : d < w.databases.length) (h : Represents hash heap shared db) :
    Holds hash d (w.setDatabase d heap shared) db :=
  ⟨shared, List.getElem?_set_self hd, h⟩

theorem holds_create (hash : Bytes → FileId) (w : World π) :
    Holds hash w.databases.length (w.perform hash .create) ⟨.empty, .empty⟩ :=
  ⟨.empty, List.getElem?_concat_length, fun _ => rfl, fun _ => rfl⟩

/-- One change, wherever its contents are written. -/
theorem Holds.change (h : Holds hash d w db) (hw : w.Sound hash N) (change : Change π) :
    Holds hash d (w.change hash d change) (db.perform hash change) := by
  obtain ⟨shared, hshared, hdb⟩ := h
  obtain ⟨hd, -⟩ := List.getElem?_eq_some_iff.mp hshared
  have hconsistent := hw.databases shared (List.mem_of_getElem? hshared)
  cases change with
  | add file =>
    simp only [World.change, World.add, hshared]
    exact holds_setDatabase hd (hdb.add hconsistent file)
  | update id newContents =>
    simp only [World.change, World.update, hshared]
    exact holds_setDatabase hd (hdb.update hconsistent w.unique id newContents)
  | delete id =>
    simp only [World.change, World.delete, hshared]
    exact holds_setDatabase hd (hdb.delete id)

theorem Holds.changes {changes : List (Change π)} (h : Holds hash d w db)
    (hw : w.Sound hash N) (hinj : Set.InjOn hash N)
    (hnames : ∀ file, Change.add file ∈ changes → file.name ∈ N) :
    Holds hash d (changes.foldl (World.change hash d) w) (db.after hash changes) := by
  induction changes generalizing w db with
  | nil => exact h
  | cons change changes ih =>
    have hsound := sound_change (D := ∅) hw hinj d fun file hfile =>
      hnames file (hfile ▸ List.mem_cons_self)
    exact ih (h.change hw change) hsound.1 fun file hfile =>
      hnames file (List.mem_cons_of_mem _ hfile)

/-- A commit to a database over shared cells leaves what it leaves over files. -/
theorem Holds.commit {log : ChangeLog π} {ops : List (FilesystemOperation π)}
    (h : Holds hash d w db) (hw : w.Sound hash N) (hinj : Set.InjOn hash N)
    (hnames : ∀ file, Change.add file ∈ log.changes → file.name ∈ N)
    (hcommit : db.commit hash log true = .ok (db', ops)) :
    Holds hash d (w.commit hash d log) db' := by
  obtain ⟨huse, hpoisoned, rfl, -⟩ := (db.commit_eq_ok_iff hash).mp hcommit
  have hlog : log.intoInner = .ok log.changes := by
    simp [ChangeLog.intoInner, huse, hpoisoned]
  rw [World.commit, hlog]
  exact h.changes hw hinj hnames

end Holds

end World

/-- Both indexes of a database lead to each other, and the derived fields of its files belong to
their contents. -/
structure InStep (heap : Heap (StoredFile π)) (db : SharedDatabase) : Prop where
  idOfName : ∀ name r, db.files.get? name = some r → ∃ file, heap.read r = some file ∧
    file.name = name ∧ db.idToName.get? file.id = some name
  nameOfId : ∀ id name, db.idToName.get? id = some name → ∃ r file,
    db.files.get? name = some r ∧ heap.read r = some file ∧ file.id = id
  derived : ∀ name r file, db.files.get? name = some r → heap.read r = some file →
    file.size = file.contents.length % 2 ^ 32 ∧ file.lines = lineStarts file.contents

theorem SharedDatabase.Consistent.inStep {hash : Bytes → FileId} {N : Set Bytes}
    {heap : Heap (StoredFile π)} {db : SharedDatabase} (h : db.Consistent hash N heap) :
    InStep heap db := by
  constructor
  · intro name r hget
    obtain ⟨-, file, hread, hname, hwell⟩ := h.files name r hget
    refine ⟨file, hread, hname, (h.idToName _ _).mpr ⟨?_, r, hget⟩⟩
    rw [hwell.id, hname]
  · intro id name hget
    obtain ⟨hhash, r, hr⟩ := (h.idToName id name).mp hget
    obtain ⟨-, file, hread, hname, hwell⟩ := h.files name r hr
    refine ⟨r, file, hr, hread, ?_⟩
    rw [hwell.id, hname, hhash]
  · intro name r file hget hread
    obtain ⟨-, file', hread', -, hwell⟩ := h.files name r hget
    obtain rfl : file = file' := Option.some_inj.mp (hread.symm.trans hread')
    exact ⟨hwell.size, hwell.lines⟩

/-- The names of the files that a run brings in. -/
def namesOf (operations : List (Operation π)) : Set Bytes :=
  {name | ∃ o ∈ operations, name ∈ o.names}

/-- The world after a run from the start. -/
def reached (hash : Bytes → FileId) (operations : List (Operation π)) : World π :=
  World.empty.run hash operations

theorem sound_reached {hash : Bytes → FileId} {N : Set Bytes} (hinj : Set.InjOn hash N)
    {operations : List (Operation π)} (hnames : ∀ o ∈ operations, ∀ name ∈ o.names, name ∈ N) :
    (reached hash operations).Sound hash N :=
  (World.sound_run (D := Set.univ) World.sound_empty hinj hnames fun _ _ => trivial).1

/-- In a run over files whose names have different hashes, the databases stay in step, and a
snapshot answers as its database did for as long as it lives. -/
theorem databases_in_step_and_snapshots_stable (hash : Bytes → FileId)
    (operations : List (Operation π)) (hinj : Set.InjOn hash (namesOf operations)) :
    (∀ db ∈ (reached hash operations).databases, InStep (reached hash operations).heap db) ∧
    ∀ before after order d db, operations = before ++ .readOnly order d :: after →
      (reached hash before).databases[d]? = some db →
      .dropSnapshot (reached hash before).snapshots.length ∉ after →
      ∃ s, (reached hash operations).snapshots[(reached hash before).snapshots.length]? =
          some (some s) ∧
        AnswersAs (reached hash before).heap db (reached hash operations).heap s := by
  constructor
  · intro db hdb
    have hsound := sound_reached hinj fun o ho name hname => ⟨o, ho, hname⟩
    exact (hsound.databases db hdb).inStep
  · intro before after order d db hsplit hdb hlive
    subst hsplit
    have hbefore : (reached hash before).Sound hash _ :=
      sound_reached hinj fun o ho name hname => ⟨o, List.mem_append_left _ ho, hname⟩
    have hconsistent := hbefore.databases db (List.mem_of_getElem? hdb)
    have hvalid := World.valid_readOnly hconsistent order
    have htaken := (World.sound_appendSnapshot (D := Set.univ) hbefore hvalid).1
    have hperform : (reached hash before).perform hash (.readOnly order d) =
        { reached hash before with
          snapshots := (reached hash before).snapshots ++
            [some (db.readOnly (reached hash before).heap order)] } := by
      rw [World.perform, hdb]
      rfl
    have hrun : reached hash (before ++ .readOnly order d :: after) =
        ((reached hash before).perform hash (.readOnly order d)).run hash after := by
      rw [reached, World.run, List.foldl_append]
      rfl
    rw [hrun, hperform]
    obtain ⟨hsound, hkeeps⟩ := World.sound_run 
      (D := {i | (.dropSnapshot i : Operation π) ∈ after}) htaken hinj
      (fun o ho name hname =>
        ⟨o, List.mem_append_right _ (List.mem_cons_of_mem _ ho), hname⟩) fun i hi => hi
    obtain ⟨s, hs, hsame⟩ := hkeeps _ hlive (db.readOnly (reached hash before).heap order)
      List.getElem?_concat_length
    exact ⟨s, hs, answersAs_of_sameFiles hinj hconsistent hsame hvalid
      (hsound.snapshots s (List.mem_of_getElem? hs))⟩

def inListOrder : VisitOrder := ⟨fun entries => entries, fun _ => .refl _⟩

/-- Two files, a snapshot, and an update of the first file behind it. -/
def snapshotThenUpdate : List (Operation Empty) :=
  [.create, .add 0 ⟨[97], .host, none, [1]⟩, .add 0 ⟨[98], .host, none, [2]⟩,
    .readOnly inListOrder 0, .update 0 97 [3, 10]]

/-- The first byte of a name. -/
def firstByte (name : Bytes) : FileId := (name.headD 0).toUInt64

theorem snapshot_then_update : (reached firstByte snapshotThenUpdate).databases.Forall
    (InStep (reached firstByte snapshotThenUpdate).heap) := by
  apply List.forall_iff_forall_mem.mpr
  refine (databases_in_step_and_snapshots_stable firstByte snapshotThenUpdate ?_).1
  have hnames : namesOf snapshotThenUpdate = {[97], [98]} := by
    ext name
    simp [namesOf, snapshotThenUpdate, Operation.names]
  rw [hnames]
  intro name hname name' hname' hhash
  rcases hname with rfl | rfl <;> rcases hname' with rfl | rfl
  · rfl
  · exact absurd hhash (by decide)
  · exact absurd hhash (by decide)
  · rfl

end Mago.Storage
