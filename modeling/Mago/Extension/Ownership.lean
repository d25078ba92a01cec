import Mago.Extension.Stopping

/-!
# Who has a worker

A running worker is in the slot that it was started for, or a thread is still initialising it. The
locks say which thread may put a worker where; what a thread does not hold it leaves as it is.
-/
namespace Mago.Extension
open Mago.Library

variable {capacity t : ℕ} {pool pool' pool'' : WorkerPool} {l l' : Local}

/-! ## The pool as a thread knows it -/

/-- The worker in the slot is dead. -/
def Vacated (pool : WorkerPool) (index : ℕ) : Prop :=
  ∃ worker, pool.slots index = some worker ∧ ¬ pool.IsRunning worker

/-- The thread may have a worker for the slot: it holds the slot, whose worker is dead, or it grows
the pool. -/
def Starts (pool : WorkerPool) (l : Local) (index : ℕ) : Prop :=
  (∃ current, l.slot = some (index, current)) ∧ Vacated pool index ∨
    l.slot = none ∧ l.growth = true ∧ l.serving = true ∧ pool.activeWorkers ≤ index

/-- What the thread keeps track of is so. -/
structure Agrees (t : ℕ) (pool : WorkerPool) (l : Local) : Prop where
  growth : l.growth = true ↔ pool.growth = some t
  slot : ∀ index, pool.slotLock index = some t ↔ ∃ current, l.slot = some (index, current)
  current : ∀ index current, l.slot = some (index, current) → pool.slots index = current
  owned : ∀ worker index progress, l.owned worker = some (index, progress) →
    worker < pool.started ∧ (pool.workers worker).owner = some t ∧
      (pool.workers worker).id = index ∧ Starts pool l index
  owner : ∀ worker, (pool.workers worker).owner = some t → pool.IsRunning worker →
    (l.owned worker).isSome = true
  dead : ∀ worker ∈ l.dead, worker < pool.started ∧ ¬ pool.IsRunning worker
  seen : ∀ index worker, (index, worker) ∈ l.seen → worker < pool.started ∧
    (pool.workers worker).owner = none ∧ (pool.workers worker).id = index ∧
      pool.slots index ≠ none
  activeWorkers : l.growth = true → ∀ n, l.activeWorkers = some n → n = pool.activeWorkers
  placed : l.growth = true → ∀ index, pool.slots index ≠ none ↔
    index < pool.activeWorkers ∨ index < l.placed

/-- The slots hold workers that were started for them, and every running worker that no thread
owns. Without growth the active slots are the filled ones. -/
structure Settled (capacity : ℕ) (pool : WorkerPool) : Prop where
  slots : ∀ index worker, pool.slots index = some worker → worker < pool.started ∧
    (pool.workers worker).owner = none ∧ (pool.workers worker).id = index
  slots_lt : ∀ index, pool.slots index ≠ none → index < capacity
  running : ∀ worker, pool.IsRunning worker → worker < pool.started ∧
    ((pool.workers worker).owner = none →
      pool.slots (pool.workers worker).id = some worker)
  pos : 0 < pool.activeWorkers
  activeWorkers_le : pool.activeWorkers ≤ capacity
  active : pool.growth = none → ∀ index, pool.slots index ≠ none ↔ index < pool.activeWorkers

/-! ## What a thread leaves to the others -/

/-- A step of the thread keeps what other threads hold. -/
structure Framed (t : ℕ) (pool pool' : WorkerPool) : Prop where
  growth : ∀ t', t' ≠ t → (pool'.growth = some t' ↔ pool.growth = some t')
  slotLock : ∀ index t', t' ≠ t →
    (pool'.slotLock index = some t' ↔ pool.slotLock index = some t')
  slots : ∀ index t', t' ≠ t → pool.slotLock index = some t' →
    pool'.slots index = pool.slots index
  filled : ∀ index, pool.slots index ≠ none → pool'.slots index ≠ none
  started : pool.started ≤ pool'.started
  activeWorkers : pool.activeWorkers ≤ pool'.activeWorkers
  id : ∀ worker, worker < pool.started → (pool'.workers worker).id = (pool.workers worker).id
  owner : ∀ worker, worker < pool.started → (pool.workers worker).owner ≠ some t →
    (pool'.workers worker).owner = (pool.workers worker).owner
  owner_eq : ∀ worker t', t' ≠ t → (pool'.workers worker).owner = some t' →
    (pool.workers worker).owner = some t'
  running : ∀ worker t', t' ≠ t → (pool'.workers worker).owner = some t' →
    pool'.IsRunning worker → pool.IsRunning worker
  dead : ∀ worker, worker < pool.started → pool'.IsRunning worker → pool.IsRunning worker
  growing : ∀ t', t' ≠ t → pool.growth = some t' → pool'.activeWorkers = pool.activeWorkers ∧
    ∀ index, pool'.slots index ≠ none → pool.slots index ≠ none

theorem Framed.trans (h : Framed t pool pool') (h' : Framed t pool' pool'') :
    Framed t pool pool'' where
  growth t' ht := (h'.growth t' ht).trans (h.growth t' ht)
  slotLock index t' ht := (h'.slotLock index t' ht).trans (h.slotLock index t' ht)
  slots index t' ht hlock :=
    (h'.slots index t' ht ((h.slotLock index t' ht).mpr hlock)).trans (h.slots index t' ht hlock)
  filled index hfilled := h'.filled index (h.filled index hfilled)
  started := h.started.trans h'.started
  activeWorkers := h.activeWorkers.trans h'.activeWorkers
  id worker hlt := (h'.id worker (hlt.trans_le h.started)).trans (h.id worker hlt)
  owner := by
    intro worker hlt hne
    have hsame := h.owner worker hlt hne
    rw [← hsame] at hne ⊢
    exact h'.owner worker (hlt.trans_le h.started) hne
  owner_eq worker t' ht howner := h.owner_eq worker t' ht (h'.owner_eq worker t' ht howner)
  running := by
    intro worker t' ht howner hrunning
    exact h.running worker t' ht (h'.owner_eq worker t' ht howner)
      (h'.running worker t' ht howner hrunning)
  dead := by
    intro worker hlt hrunning
    exact h.dead worker hlt (h'.dead worker (hlt.trans_le h.started) hrunning)
  growing := by
    intro t' ht hgrowth
    obtain ⟨hactive, hslots⟩ := h.growing t' ht hgrowth
    obtain ⟨hactive', hslots'⟩ := h'.growing t' ht ((h.growth t' ht).mpr hgrowth)
    exact ⟨hactive'.trans hactive, fun index hfilled => hslots index (hslots' index hfilled)⟩

theorem Framed.vacated (h : Framed t pool pool') (hplaced : Settled capacity pool) {t' index : ℕ}
    (ht : t' ≠ t) (hlock : pool.slotLock index = some t') (hvacated : Vacated pool index) :
    Vacated pool' index := by
  obtain ⟨worker, hworker, hdead⟩ := hvacated
  refine ⟨worker, (h.slots index t' ht hlock).trans hworker, ?_⟩
  intro hrunning
  exact hdead (h.dead worker (hplaced.slots index worker hworker).1 hrunning)

theorem Framed.agrees (h : Framed t pool pool') (hplaced : Settled capacity pool) {t' : ℕ}
    (ht : t' ≠ t) (hl : Agrees t' pool l) : Agrees t' pool' l where
  growth := hl.growth.trans (h.growth t' ht).symm
  slot index := (h.slotLock index t' ht).trans (hl.slot index)
  current := by
    intro index current hslot
    rw [h.slots index t' ht ((hl.slot index).mpr ⟨current, hslot⟩)]
    exact hl.current index current hslot
  owned := by
    intro worker index progress howned
    obtain ⟨hlt, howner, hid, hstarts⟩ := hl.owned worker index progress howned
    have hne : (pool.workers worker).owner ≠ some t := by
      rw [howner]
      simpa using ht
    refine ⟨hlt.trans_le h.started, (h.owner worker hlt hne).trans howner,
      (h.id worker hlt).trans hid, ?_⟩
    rcases hstarts with ⟨hslot, hvacated⟩ | ⟨hslot, hgrowth, hserving, hle⟩
    · exact .inl ⟨hslot, h.vacated hplaced ht ((hl.slot index).mpr hslot) hvacated⟩
    · rw [← (h.growing t' ht (hl.growth.mp hgrowth)).1] at hle
      exact .inr ⟨hslot, hgrowth, hserving, hle⟩
  owner := by
    intro worker howner hrunning
    exact hl.owner worker (h.owner_eq worker t' ht howner)
      (h.running worker t' ht howner hrunning)
  dead := by
    intro worker hdead
    obtain ⟨hlt, hnot⟩ := hl.dead worker hdead
    exact ⟨hlt.trans_le h.started, fun hrunning => hnot (h.dead worker hlt hrunning)⟩
  seen := by
    intro index worker hseen
    obtain ⟨hlt, howner, hid, hfilled⟩ := hl.seen index worker hseen
    refine ⟨hlt.trans_le h.started, ?_, (h.id worker hlt).trans hid, h.filled index hfilled⟩
    rw [h.owner worker hlt (by simp [howner]), howner]
  activeWorkers := by
    intro hgrowth n hn
    rw [(h.growing t' ht (hl.growth.mp hgrowth)).1]
    exact hl.activeWorkers hgrowth n hn
  placed := by
    intro hgrowth index
    obtain ⟨hactive, hslots⟩ := h.growing t' ht (hl.growth.mp hgrowth)
    rw [hactive, ← hl.placed hgrowth index]
    exact ⟨hslots index, h.filled index⟩

/-! ## Steps that move no worker and no lock -/

structure Quiet (pool pool' : WorkerPool) : Prop where
  growth : pool'.growth = pool.growth
  slotLock : pool'.slotLock = pool.slotLock
  slots : pool'.slots = pool.slots
  started : pool'.started = pool.started
  activeWorkers : pool'.activeWorkers = pool.activeWorkers
  id : ∀ worker, (pool'.workers worker).id = (pool.workers worker).id
  owner : ∀ worker, (pool'.workers worker).owner = (pool.workers worker).owner
  running : ∀ worker, pool'.IsRunning worker → pool.IsRunning worker

namespace Quiet

theorem of_eq (hworkers : pool'.workers = pool.workers) (hgrowth : pool'.growth = pool.growth)
    (hslotLock : pool'.slotLock = pool.slotLock) (hslots : pool'.slots = pool.slots)
    (hstarted : pool'.started = pool.started)
    (hactive : pool'.activeWorkers = pool.activeWorkers) : Quiet pool pool' where
  growth := hgrowth
  slotLock := hslotLock
  slots := hslots
  started := hstarted
  activeWorkers := hactive
  id _ := by rw [hworkers]
  owner _ := by rw [hworkers]
  running worker h := by
    unfold WorkerPool.IsRunning at h ⊢
    rwa [hworkers] at h

theorem refl (pool : WorkerPool) : Quiet pool pool :=
  ⟨rfl, rfl, rfl, rfl, rfl, fun _ => rfl, fun _ => rfl, fun _ h => h⟩

theorem trans (h : Quiet pool pool') (h' : Quiet pool' pool'') : Quiet pool pool'' where
  growth := h'.growth.trans h.growth
  slotLock := h'.slotLock.trans h.slotLock
  slots := h'.slots.trans h.slots
  started := h'.started.trans h.started
  activeWorkers := h'.activeWorkers.trans h.activeWorkers
  id worker := (h'.id worker).trans (h.id worker)
  owner worker := (h'.owner worker).trans (h.owner worker)
  running worker hrunning := h.running worker (h'.running worker hrunning)

theorem frame (h : Quiet pool pool') (t : ℕ) : Framed t pool pool' where
  growth _ _ := by rw [h.growth]
  slotLock _ _ _ := by rw [h.slotLock]
  slots _ _ _ _ := by rw [h.slots]
  filled index hfilled := by rwa [h.slots]
  started := h.started.ge
  activeWorkers := h.activeWorkers.ge
  id worker _ := h.id worker
  owner worker _ _ := h.owner worker
  owner_eq worker _ _ howner := (h.owner worker).symm.trans howner
  running worker _ _ _ hrunning := h.running worker hrunning
  dead worker _ hrunning := h.running worker hrunning
  growing _ _ _ := ⟨h.activeWorkers, fun index hfilled => by rwa [h.slots] at hfilled⟩

theorem placed (h : Quiet pool pool') (hplaced : Settled capacity pool) : Settled capacity pool' where
  slots := by
    intro index worker hworker
    rw [h.slots] at hworker
    rw [h.started, h.owner, h.id]
    exact hplaced.slots index worker hworker
  slots_lt := by
    intro index hfilled
    rw [h.slots] at hfilled
    exact hplaced.slots_lt index hfilled
  running := by
    intro worker hrunning
    rw [h.started, h.owner, h.id, h.slots]
    exact hplaced.running worker (h.running worker hrunning)
  pos := by
    rw [h.activeWorkers]
    exact hplaced.pos
  activeWorkers_le := by
    rw [h.activeWorkers]
    exact hplaced.activeWorkers_le
  active := by
    intro hgrowth index
    rw [h.growth] at hgrowth
    rw [h.slots, h.activeWorkers]
    exact hplaced.active hgrowth index

theorem starts (h : Quiet pool pool') {index : ℕ} (hstarts : Starts pool l index) :
    Starts pool' l index := by
  rcases hstarts with ⟨hslot, worker, hworker, hdead⟩ | ⟨hslot, hgrowth, hserving, hle⟩
  · rw [← h.slots] at hworker
    exact .inl ⟨hslot, worker, hworker, fun hrunning => hdead (h.running worker hrunning)⟩
  · rw [← h.activeWorkers] at hle
    exact .inr ⟨hslot, hgrowth, hserving, hle⟩

theorem agrees (h : Quiet pool pool') (hl : Agrees t pool l) : Agrees t pool' l where
  growth := by rw [h.growth, hl.growth]
  slot index := by rw [h.slotLock, hl.slot]
  current := by
    intro index current hslot
    rw [h.slots]
    exact hl.current index current hslot
  owned := by
    intro worker index progress howned
    obtain ⟨hlt, howner, hid, hstarts⟩ := hl.owned worker index progress howned
    rw [h.started, h.owner, h.id]
    exact ⟨hlt, howner, hid, h.starts hstarts⟩
  owner := by
    intro worker howner hrunning
    rw [h.owner] at howner
    exact hl.owner worker howner (h.running worker hrunning)
  dead := by
    intro worker hdead
    obtain ⟨hlt, hnot⟩ := hl.dead worker hdead
    rw [h.started]
    exact ⟨hlt, fun hrunning => hnot (h.running worker hrunning)⟩
  seen := by
    intro index worker hseen
    rw [h.started, h.owner, h.id, h.slots]
    exact hl.seen index worker hseen
  activeWorkers := by
    rw [h.activeWorkers]
    exact hl.activeWorkers
  placed := by
    rw [h.slots, h.activeWorkers]
    exact hl.placed

theorem setWorker (pool : WorkerPool) (worker : WorkerId) {f : Worker → Worker}
    (hid : ∀ w, (f w).id = w.id) (howner : ∀ w, (f w).owner = w.owner)
    (hstate : ∀ w, (f w).state = .running → w.state = .running) :
    Quiet pool (pool.setWorker worker f) := by
  refine ⟨rfl, rfl, rfl, rfl, rfl, ?_, ?_, ?_⟩
  · intro other
    by_cases hother : other = worker
    · subst hother
      simp [WorkerPool.setWorker, hid]
    · simp [WorkerPool.setWorker, Function.update_of_ne hother]
  · intro other
    by_cases hother : other = worker
    · subst hother
      simp [WorkerPool.setWorker, howner]
    · simp [WorkerPool.setWorker, Function.update_of_ne hother]
  · intro other hrunning
    by_cases hother : other = worker
    · subst hother
      refine hstate _ ?_
      simpa [WorkerPool.IsRunning, WorkerPool.setWorker] using hrunning
    · simpa [WorkerPool.IsRunning, WorkerPool.setWorker, Function.update_of_ne hother]
        using hrunning

theorem fail (pool : WorkerPool) (worker : WorkerId) :
    Quiet pool (pool.setWorker worker Worker.fail) := by
  refine setWorker pool worker ?_ ?_ ?_ <;> intro w <;> unfold Worker.fail <;> split_ifs <;>
    simp_all

theorem beginShutdown (pool : WorkerPool) (worker : WorkerId) :
    Quiet pool (pool.setWorker worker Worker.beginShutdown) := by
  refine setWorker pool worker ?_ ?_ ?_ <;> intro w <;> unfold Worker.beginShutdown <;>
    split <;> simp_all

theorem finishShutdown (pool : WorkerPool) (worker : WorkerId) :
    Quiet pool (pool.setWorker worker Worker.finishShutdown) :=
  setWorker pool worker (fun _ => rfl) (fun _ => rfl) fun _ h => by cases h

theorem process (pool : WorkerPool) (worker : WorkerId) (message : Message) :
    Quiet pool (pool.setWorker worker (Worker.process message)) :=
  setWorker pool worker (fun _ => rfl) (fun _ => rfl) fun _ h => h

theorem deliver {worker : WorkerId} {message : Message} {reply : Reply}
    (h : pool.deliver worker message reply = some pool') : Quiet pool pool' := by
  cases reply with
  | ok response =>
    simp only [WorkerPool.deliver] at h
    split_ifs at h
    obtain rfl := Option.some.inj h
    exact process pool worker message
  | error processed crashed =>
    simp only [WorkerPool.deliver] at h
    split_ifs at h <;> obtain rfl := Option.some.inj h
    · exact (process pool worker message).trans (fail _ worker)
    · exact fail pool worker
    · exact process pool worker message
    · exact refl pool

theorem serve {worker : WorkerId} {reply : Reply} (h : pool.serve worker reply = some pool') :
    Quiet pool pool' := by
  cases reply with
  | ok response =>
    simp only [WorkerPool.serve] at h
    split_ifs at h
    obtain rfl := Option.some.inj h
    exact refl pool
  | error processed crashed =>
    simp only [WorkerPool.serve] at h
    split_ifs at h <;> obtain rfl := Option.some.inj h
    · exact fail pool worker
    · exact refl pool

end Quiet

/-! ## Steps of a thread -/

theorem owned_own_of_ne {worker other : WorkerId} (h : other ≠ worker)
    (state : Option (ℕ × Progress)) : (l.own worker state).owned other = l.owned other :=
  Function.update_of_ne h _ _

/-- The thread learns something, and no more. -/
structure Learns (pool : WorkerPool) (l l' : Local) : Prop where
  growth : l'.growth = l.growth
  serving : l.serving = true → l'.serving = true
  slot : l'.slot = l.slot
  placed : l'.placed = l.placed
  owned : ∀ worker index progress, l'.owned worker = some (index, progress) →
    ∃ progress', l.owned worker = some (index, progress')
  owner : ∀ worker, (l.owned worker).isSome = true → pool.IsRunning worker →
    (l'.owned worker).isSome = true
  dead : ∀ worker ∈ l'.dead, worker ∈ l.dead ∨ worker < pool.started ∧ ¬ pool.IsRunning worker
  seen : ∀ index worker, (index, worker) ∈ l'.seen →
    (index, worker) ∈ l.seen ∨ pool.slots index = some worker
  activeWorkers : l.growth = true → ∀ n, l'.activeWorkers = some n →
    l.activeWorkers = some n ∨ n = pool.activeWorkers

theorem Agrees.learns (h : Agrees t pool l) (hplaced : Settled capacity pool)
    (hl : Learns pool l l') : Agrees t pool l' where
  growth := by
    rw [hl.growth]
    exact h.growth
  slot := by
    rw [hl.slot]
    exact h.slot
  current := by
    rw [hl.slot]
    exact h.current
  owned := by
    intro worker index progress howned
    obtain ⟨progress', howned'⟩ := hl.owned worker index progress howned
    obtain ⟨hlt, howner, hid, hstarts⟩ := h.owned worker index progress' howned'
    refine ⟨hlt, howner, hid, ?_⟩
    unfold Starts
    rw [hl.slot, hl.growth]
    rcases hstarts with hslot | ⟨hslot, hgrowth, hserving, hle⟩
    · exact .inl hslot
    · exact .inr ⟨hslot, hgrowth, hl.serving hserving, hle⟩
  owner := by
    intro worker howner hrunning
    exact hl.owner worker (h.owner worker howner hrunning) hrunning
  dead := by
    intro worker hdead
    rcases hl.dead worker hdead with hold | hnew
    · exact h.dead worker hold
    · exact hnew
  seen := by
    intro index worker hseen
    rcases hl.seen index worker hseen with hold | hnew
    · exact h.seen index worker hold
    · obtain ⟨hlt, howner, hid⟩ := hplaced.slots index worker hnew
      exact ⟨hlt, howner, hid, by simp [hnew]⟩
  activeWorkers := by
    intro hgrowth n hn
    rw [hl.growth] at hgrowth
    rcases hl.activeWorkers hgrowth n hn with hold | hnew
    · exact h.activeWorkers hgrowth n hold
    · exact hnew
  placed := by
    rw [hl.growth, hl.placed]
    exact h.placed

namespace Learns

/-- Only what no lock depends on is different. -/
theorem of_eq (hgrowth : l'.growth = l.growth) (hserving : l.serving = true → l'.serving = true)
    (hslot : l'.slot = l.slot) (hplaced : l'.placed = l.placed) (howned : l'.owned = l.owned)
    (hdead : l'.dead = l.dead) (hseen : l'.seen = l.seen)
    (hactive : l'.activeWorkers = l.activeWorkers) : Learns pool l l' where
  growth := hgrowth
  serving := hserving
  slot := hslot
  placed := hplaced
  owned worker index progress h := ⟨progress, by rwa [howned] at h⟩
  owner worker h _ := by rwa [howned]
  dead worker h := .inl (by rwa [hdead] at h)
  seen index worker h := .inl (by rwa [hseen] at h)
  activeWorkers _ n h := .inl (by rwa [hactive] at h)

theorem refl (pool : WorkerPool) (l : Local) : Learns pool l l :=
  of_eq rfl id rfl rfl rfl rfl rfl rfl

theorem trans {l'' : Local} (h : Learns pool l l') (h' : Learns pool l' l'') :
    Learns pool l l'' where
  growth := h'.growth.trans h.growth
  serving hserving := h'.serving (h.serving hserving)
  slot := h'.slot.trans h.slot
  placed := h'.placed.trans h.placed
  owned := by
    intro worker index progress howned
    obtain ⟨progress', howned'⟩ := h'.owned worker index progress howned
    exact h.owned worker index progress' howned'
  owner worker hsome hrunning := h'.owner worker (h.owner worker hsome hrunning) hrunning
  dead := by
    intro worker hdead
    rcases h'.dead worker hdead with hold | hnew
    · exact h.dead worker hold
    · exact .inr hnew
  seen := by
    intro index worker hseen
    rcases h'.seen index worker hseen with hold | hnew
    · exact h.seen index worker hold
    · exact .inr hnew
  activeWorkers := by
    intro hgrowth n hn
    rcases h'.activeWorkers (h.growth ▸ hgrowth) n hn with hold | hnew
    · exact h.activeWorkers hgrowth n hold
    · exact .inr hnew

theorem see {index : ℕ} {answer : Option WorkerId} (h : answer = pool.slots index) :
    Learns pool l (l.see index answer) where
  growth := rfl
  serving h := h
  slot := rfl
  placed := rfl
  owned _ _ progress h := ⟨progress, h⟩
  owner _ h _ := h
  dead _ h := .inl h
  seen := by
    intro index' worker hseen
    rcases hseen with hold | ⟨rfl, hnew⟩
    · exact .inl hold
    · exact .inr (h ▸ hnew)
  activeWorkers _ _ h := .inl h

theorem count : Learns pool l { l with
    activeWorkers := if l.growth then some pool.activeWorkers else l.activeWorkers } where
  growth := rfl
  serving h := h
  slot := rfl
  placed := rfl
  owned _ _ progress h := ⟨progress, h⟩
  owner _ h _ := h
  dead _ h := .inl h
  seen _ _ h := .inl h
  activeWorkers := by
    intro hgrowth n hn
    simp only [hgrowth, if_true, Option.some.injEq] at hn
    exact .inr hn.symm

theorem bury {worker : WorkerId} (hlt : worker < pool.started)
    (hdead : ¬ pool.IsRunning worker) : Learns pool l (l.bury worker) where
  growth := rfl
  serving h := h
  slot := rfl
  placed := rfl
  owned _ _ progress h := ⟨progress, h⟩
  owner _ h _ := h
  dead := by
    intro other hother
    rcases hother with rfl | hother
    · exact .inr ⟨hlt, hdead⟩
    · exact .inl hother
  seen _ _ h := .inl h
  activeWorkers _ _ h := .inl h

theorem disown {worker : WorkerId} (hdead : ¬ pool.IsRunning worker) :
    Learns pool l (l.own worker none) where
  growth := rfl
  serving h := h
  slot := rfl
  placed := rfl
  owned := by
    intro other index progress howned
    by_cases hother : other = worker
    · subst hother
      simp [Local.own] at howned
    · exact ⟨progress, by simpa [Local.own, Function.update_of_ne hother] using howned⟩
  owner := by
    intro other hsome hrunning
    have hother : other ≠ worker := by
      rintro rfl
      exact hdead hrunning
    simpa [Local.own, Function.update_of_ne hother] using hsome
  dead _ h := .inl h
  seen _ _ h := .inl h
  activeWorkers _ _ h := .inl h

/-- A worker that is owned gets further. -/
theorem progress {worker : WorkerId} {f : ℕ × Progress → ℕ × Progress}
    (hf : ∀ entry, (f entry).1 = entry.1) :
    Learns pool l (l.own worker ((l.owned worker).map f)) where
  growth := rfl
  serving h := h
  slot := rfl
  placed := rfl
  owned := by
    intro other index progress howned
    by_cases hother : other = worker
    · subst hother
      rw [owned_own, Option.map_eq_some_iff] at howned
      obtain ⟨entry, hentry, hsame⟩ := howned
      have hindex : index = entry.1 := by rw [← hf entry, hsame]
      exact ⟨entry.2, by rw [hentry, hindex]⟩
    · exact ⟨progress, by simpa [Local.own, Function.update_of_ne hother] using howned⟩
  owner := by
    intro other hsome _
    by_cases hother : other = worker
    · subst hother
      rwa [owned_own, Option.isSome_map]
    · simpa [Local.own, Function.update_of_ne hother] using hsome
  dead _ h := .inl h
  seen _ _ h := .inl h
  activeWorkers _ _ h := .inl h

end Learns

theorem Agrees.lt_of_knows (h : Agrees t pool l) {worker : WorkerId} (hknows : l.Knows worker) :
    worker < pool.started := by
  rcases hknows with hsome | ⟨index, hseen⟩ | hdead
  · obtain ⟨entry, howned⟩ := Option.isSome_iff_exists.mp hsome
    exact (h.owned worker entry.1 entry.2 howned).1
  · exact (h.seen index worker hseen).1
  · exact (h.dead worker hdead).1

theorem Agrees.starts_of_maySpawn (h : Agrees t pool l) {index : ℕ} (hmay : l.MaySpawn index) :
    Starts pool l index := by
  rcases hmay with ⟨hgrowth, hserving, hslot, -, n, hn, hle⟩ | ⟨current, hslot, hseen, hdead, -⟩
  · rw [h.activeWorkers hgrowth n hn] at hle
    exact .inr ⟨hslot, hgrowth, hserving, hle⟩
  · obtain ⟨worker, hworker⟩ := hseen
    have hcurrent := h.current index current hslot
    have hfilled := (h.seen index worker hworker).2.2.2
    rw [hcurrent] at hfilled
    obtain ⟨occupant, hoccupant⟩ := Option.ne_none_iff_exists'.mp hfilled
    refine .inl ⟨⟨current, hslot⟩, occupant, hcurrent.trans hoccupant, ?_⟩
    exact (h.dead occupant (hdead occupant hoccupant)).2

/-- What a step of a thread does to the pool and to what the thread knows. -/
structure Acts (capacity t : ℕ) (pool pool' : WorkerPool) (l' : Local) : Prop where
  frame : Framed t pool pool'
  placed : Settled capacity pool'
  agrees : Agrees t pool' l'

theorem Acts.quiet (hq : Quiet pool pool') (hplaced : Settled capacity pool) (h : Agrees t pool l)
    (hl : Learns pool' l l') : Acts capacity t pool pool' l' :=
  ⟨hq.frame t, hq.placed hplaced, (hq.agrees h).learns (hq.placed hplaced) hl⟩

theorem isRunning_congr (hworkers : pool'.workers = pool.workers) (worker : WorkerId) :
    pool'.IsRunning worker ↔ pool.IsRunning worker := by
  unfold WorkerPool.IsRunning
  rw [hworkers]

/-- Only locks are taken or released. -/
structure Locks (t : ℕ) (pool pool' : WorkerPool) : Prop where
  workers : pool'.workers = pool.workers
  slots : pool'.slots = pool.slots
  started : pool'.started = pool.started
  activeWorkers : pool'.activeWorkers = pool.activeWorkers
  growth : ∀ t', t' ≠ t → (pool'.growth = some t' ↔ pool.growth = some t')
  slotLock : ∀ index t', t' ≠ t →
    (pool'.slotLock index = some t' ↔ pool.slotLock index = some t')

namespace Locks

theorem frame (h : Locks t pool pool') : Framed t pool pool' where
  growth := h.growth
  slotLock := h.slotLock
  slots _ _ _ _ := by rw [h.slots]
  filled index hfilled := by rwa [h.slots]
  started := h.started.ge
  activeWorkers := h.activeWorkers.ge
  id _ _ := by rw [h.workers]
  owner _ _ _ := by rw [h.workers]
  owner_eq _ _ _ howner := by rwa [h.workers] at howner
  running worker _ _ _ hrunning := (isRunning_congr h.workers worker).mp hrunning
  dead worker _ hrunning := (isRunning_congr h.workers worker).mp hrunning
  growing _ _ _ := ⟨h.activeWorkers, fun index hfilled => by rwa [h.slots] at hfilled⟩

theorem placed (h : Locks t pool pool') (hplaced : Settled capacity pool)
    (hactive : pool'.growth = none →
      ∀ index, pool.slots index ≠ none ↔ index < pool.activeWorkers) :
    Settled capacity pool' where
  slots := by
    rw [h.slots, h.started, h.workers]
    exact hplaced.slots
  slots_lt := by
    rw [h.slots]
    exact hplaced.slots_lt
  running := by
    intro worker hrunning
    rw [h.started, h.workers, h.slots]
    exact hplaced.running worker ((isRunning_congr h.workers worker).mp hrunning)
  pos := by
    rw [h.activeWorkers]
    exact hplaced.pos
  activeWorkers_le := by
    rw [h.activeWorkers]
    exact hplaced.activeWorkers_le
  active := by
    rw [h.slots, h.activeWorkers]
    exact hactive

/-- The thread keeps track of the locks, and owns no worker meanwhile. -/
theorem agrees (h : Locks t pool pool') (hl : Agrees t pool l)
    (hgrowth : l'.growth = true ↔ pool'.growth = some t)
    (hslot : ∀ index, pool'.slotLock index = some t ↔ ∃ current, l'.slot = some (index, current))
    (hcurrent : ∀ index current, l'.slot = some (index, current) → pool.slots index = current)
    (hnone : l.owned = fun _ => none) (howned : l'.owned = l.owned) (hdead : l'.dead = l.dead)
    (hseen : ∀ index worker, (index, worker) ∈ l'.seen → (index, worker) ∈ l.seen ∨
      pool.slots index = some worker) (hplaced : Settled capacity pool)
    (hactive : l'.growth = true → ∀ n, l'.activeWorkers = some n → n = pool.activeWorkers)
    (hfilled : l'.growth = true → ∀ index, pool.slots index ≠ none ↔
      index < pool.activeWorkers ∨ index < l'.placed) : Agrees t pool' l' where
  growth := hgrowth
  slot := hslot
  current := by
    rw [h.slots]
    exact hcurrent
  owned := by
    intro worker index progress h
    rw [howned, hnone] at h
    cases h
  owner := by
    intro worker howner hrunning
    rw [h.workers] at howner
    rw [howned]
    exact hl.owner worker howner ((isRunning_congr h.workers worker).mp hrunning)
  dead := by
    intro worker hworker
    rw [hdead] at hworker
    obtain ⟨hlt, hnot⟩ := hl.dead worker hworker
    rw [h.started]
    exact ⟨hlt, fun hrunning => hnot ((isRunning_congr h.workers worker).mp hrunning)⟩
  seen := by
    intro index worker hworker
    rw [h.started, h.workers, h.slots]
    rcases hseen index worker hworker with hold | hnew
    · exact hl.seen index worker hold
    · obtain ⟨hlt, howner, hid⟩ := hplaced.slots index worker hnew
      exact ⟨hlt, howner, hid, by simp [hnew]⟩
  activeWorkers := by
    rw [h.activeWorkers]
    exact hactive
  placed := by
    rw [h.slots, h.activeWorkers]
    exact hfilled

end Locks

theorem Agrees.owned_none (h : Agrees t pool l) (hgrowth : l.growth = false)
    (hslot : l.slot = none) : l.owned = fun _ => none := by
  funext worker
  cases howned : l.owned worker with
  | none => rfl
  | some entry =>
    obtain ⟨-, -, -, hstarts⟩ := h.owned worker entry.1 entry.2 howned
    rcases hstarts with ⟨⟨current, hsome⟩, -⟩ | ⟨-, htrue, -⟩
    · rw [hslot] at hsome
      cases hsome
    · rw [hgrowth] at htrue
      cases htrue

section Commands

variable (h : Agrees t pool l) (hplaced : Settled capacity pool)
include h hplaced

theorem acts_lockGrowth (hfree : pool.growth = none) (hgrowth : l.growth = false)
    (hslot : l.slot = none) :
    Acts capacity t pool { pool with growth := some t } l.lockedGrowth := by
  have hlocks : Locks t pool { pool with growth := some t } := by
    refine ⟨rfl, rfl, rfl, rfl, ?_, fun _ _ _ => Iff.rfl⟩
    intro t' ht
    rw [hfree]
    simp [ht.symm]
  refine ⟨hlocks.frame, hlocks.placed hplaced (fun hnone => by cases hnone), ?_⟩
  refine hlocks.agrees h (iff_of_true rfl rfl) h.slot h.current (h.owned_none hgrowth hslot)
    rfl rfl (fun _ _ => .inl) hplaced (fun _ _ hn => by cases hn) ?_
  intro _ index
  rw [hplaced.active hfree index]
  simp [Local.lockedGrowth]

theorem acts_unlockGrowth (hgrowth : l.growth = true) (hzero : l.placed = 0)
    (hnone : l.owned = fun _ => none) :
    Acts capacity t pool { pool with growth := none, taken := 0 }
      { l with growth := false, serving := false, activeWorkers := none } := by
  have hheld := h.growth.mp hgrowth
  have hlocks : Locks t pool { pool with growth := none, taken := 0 } := by
    refine ⟨rfl, rfl, rfl, rfl, ?_, fun _ _ _ => Iff.rfl⟩
    intro t' ht
    rw [hheld]
    simp [ht.symm]
  refine ⟨hlocks.frame, hlocks.placed hplaced ?_, ?_⟩
  · intro _ index
    rw [h.placed hgrowth index, hzero]
    simp
  · exact hlocks.agrees h (by simp) h.slot h.current hnone rfl rfl (fun _ _ => .inl) hplaced
      (fun hfalse => by cases hfalse) fun hfalse => by cases hfalse

theorem acts_lockSlot {index : ℕ} (hfree : pool.slotLock index = none) (hslot : l.slot = none)
    (hnone : l.owned = fun _ => none) :
    Acts capacity t pool
      { pool with slotLock := Function.update pool.slotLock index (some t) }
      { l.see index (pool.slots index) with slot := some (index, pool.slots index) } := by
  have hlocks : Locks t pool
      { pool with slotLock := Function.update pool.slotLock index (some t) } := by
    refine ⟨rfl, rfl, rfl, rfl, fun _ _ => Iff.rfl, ?_⟩
    intro index' t' ht
    by_cases hindex : index' = index
    · subst hindex
      simp [hfree, ht.symm]
    · simp [Function.update_of_ne hindex]
  refine ⟨hlocks.frame, hlocks.placed hplaced hplaced.active, ?_⟩
  refine hlocks.agrees h h.growth ?_ ?_ hnone rfl rfl ?_ hplaced h.activeWorkers h.placed
  · intro index'
    by_cases hindex : index' = index
    · subst hindex
      simp
    · have hnot : pool.slotLock index' ≠ some t := by
        intro hlock
        obtain ⟨current, hcurrent⟩ := (h.slot index').mp hlock
        rw [hslot] at hcurrent
        cases hcurrent
      simp [Function.update_of_ne hindex, hnot, Ne.symm hindex]
  · intro index' current hcurrent
    obtain ⟨rfl, rfl⟩ := Prod.mk.inj (Option.some.inj hcurrent)
    rfl
  · intro index' worker hseen
    rcases hseen with hold | ⟨rfl, hnew⟩
    · exact .inl hold
    · exact .inr hnew

theorem acts_unlockSlot {index : ℕ} {current : Option WorkerId}
    (hslot : l.slot = some (index, current)) (hnone : l.owned = fun _ => none) :
    Acts capacity t pool { pool with slotLock := Function.update pool.slotLock index none }
      { l with slot := none } := by
  have hheld := (h.slot index).mpr ⟨current, hslot⟩
  have hlocks : Locks t pool
      { pool with slotLock := Function.update pool.slotLock index none } := by
    refine ⟨rfl, rfl, rfl, rfl, fun _ _ => Iff.rfl, ?_⟩
    intro index' t' ht
    by_cases hindex : index' = index
    · subst hindex
      simp [hheld, ht.symm]
    · simp [Function.update_of_ne hindex]
  refine ⟨hlocks.frame, hlocks.placed hplaced hplaced.active, ?_⟩
  refine hlocks.agrees h h.growth ?_ (fun _ _ hsome => by cases hsome) hnone rfl rfl
    (fun _ _ => .inl) hplaced h.activeWorkers h.placed
  intro index'
  by_cases hindex : index' = index
  · subst hindex
    simp
  · have hnot : pool.slotLock index' ≠ some t := by
      intro hlock
      obtain ⟨current', hcurrent⟩ := (h.slot index').mp hlock
      rw [hslot] at hcurrent
      exact hindex (Prod.mk.inj (Option.some.inj hcurrent)).1.symm
    simp [Function.update_of_ne hindex, hnot]

/-- A worker comes into a slot where no worker runs. -/
theorem acts_place {worker : WorkerId} {index : ℕ}
    (howned : l.owned worker = some (index, .replaying []))
    (hlock : ∀ t', t' ≠ t → pool.slotLock index ≠ some t')
    (hvacant : ∀ other, pool.slots index = some other → ¬ pool.IsRunning other)
    (hcapacity : index < capacity)
    (hfill : pool.growth = some t ∨ pool.slots index ≠ none)
    (hl : l' = { (l.own worker none).see index (some worker) with
      slot := l'.slot, placed := l'.placed })
    (hslot : ∀ index', pool.slotLock index' = some t ↔ ∃ current, l'.slot = some (index', current))
    (hcurrent : ∀ index' current, l'.slot = some (index', current) →
      Function.update pool.slots index (some worker) index' = current)
    (hothers : ∀ other index' progress, other ≠ worker → l.owned other = some (index', progress) →
      l'.slot = none ∧ l.growth = true ∧ l.serving = true ∧ pool.activeWorkers ≤ index')
    (hfilled : l.growth = true → ∀ index', index' = index ∨ pool.slots index' ≠ none ↔
      index' < pool.activeWorkers ∨ index' < l'.placed) :
    Acts capacity t pool
      { pool.setWorker worker Worker.place with
        slots := Function.update pool.slots index (some worker) } l' := by
  obtain ⟨hlt, howner, hid, -⟩ := h.owned worker index _ howned
  set pool' : WorkerPool := { pool.setWorker worker Worker.place with
    slots := Function.update pool.slots index (some worker) } with hpool'
  have hworker : pool'.workers worker = { pool.workers worker with owner := none } := by
    simp [hpool', WorkerPool.setWorker, Worker.place]
  have hother : ∀ other, other ≠ worker → pool'.workers other = pool.workers other := by
    intro other hne
    simp [hpool', WorkerPool.setWorker, Function.update_of_ne hne]
  have hsameId : ∀ other, (pool'.workers other).id = (pool.workers other).id := by
    intro other
    by_cases hne : other = worker
    · rw [hne, hworker]
    · rw [hother other hne]
  have hrunning : ∀ other, pool'.IsRunning other ↔ pool.IsRunning other := by
    intro other
    unfold WorkerPool.IsRunning
    by_cases hne : other = worker
    · rw [hne, hworker]
    · rw [hother other hne]
  have hslots : ∀ index', pool'.slots index' ≠ none ↔
      index' = index ∨ pool.slots index' ≠ none := by
    intro index'
    by_cases hindex : index' = index
    · subst hindex
      simp [hpool']
    · simp [hpool', hindex]
  have hplaced' : ∀ index' other, pool'.slots index' = some other → other < pool.started ∧
      (pool'.workers other).owner = none ∧ (pool'.workers other).id = index' := by
    intro index' other hsome
    by_cases hindex : index' = index
    · subst hindex
      obtain rfl : worker = other := by simpa [hpool'] using hsome
      rw [hworker]
      exact ⟨hlt, rfl, hid⟩
    · have hold : pool.slots index' = some other := by
        simpa [hpool', Function.update_of_ne hindex] using hsome
      obtain ⟨hlt', howner', hid'⟩ := hplaced.slots index' other hold
      have hne : other ≠ worker := by
        rintro rfl
        rw [howner] at howner'
        cases howner'
      rw [hother other hne]
      exact ⟨hlt', howner', hid'⟩
  refine ⟨?_, ?_, ?_⟩
  · refine ⟨fun _ _ => Iff.rfl, fun _ _ _ => Iff.rfl, ?_, fun index' hfilled' =>
      (hslots index').mpr (.inr hfilled'), le_rfl, le_rfl, fun other _ => hsameId other, ?_, ?_,
      fun other _ _ _ hrun => (hrunning other).mp hrun,
      fun other _ hrun => (hrunning other).mp hrun, ?_⟩
    · intro index' t' ht hlock'
      have hindex : index' ≠ index := by
        rintro rfl
        exact hlock t' ht hlock'
      exact Function.update_of_ne hindex _ _
    · intro other _ hne
      rw [hother other]
      rintro rfl
      exact hne howner
    · intro other t' _ howner'
      by_cases hne : other = worker
      · rw [hne, hworker] at howner'
        cases howner'
      · rwa [hother other hne] at howner'
    · intro t' ht hgrowth
      refine ⟨rfl, ?_⟩
      intro index' hfilled'
      rcases (hslots index').mp hfilled' with rfl | hold
      · refine hfill.resolve_left ?_
        rw [hgrowth]
        simpa using ht
      · exact hold
  · refine ⟨hplaced', ?_, ?_, hplaced.pos, hplaced.activeWorkers_le, ?_⟩
    · intro index' hfilled'
      rcases (hslots index').mp hfilled' with rfl | hold
      · exact hcapacity
      · exact hplaced.slots_lt index' hold
    · intro other hrun
      obtain ⟨hlt', hin⟩ := hplaced.running other ((hrunning other).mp hrun)
      refine ⟨hlt', ?_⟩
      intro hnone
      by_cases hne : other = worker
      · subst hne
        rw [hsameId, hid]
        exact Function.update_self _ _ _
      · rw [hother other hne] at hnone ⊢
        have hold := hin hnone
        have hindex : (pool.workers other).id ≠ index := by
          intro hindex
          rw [hindex] at hold
          exact hvacant other hold ((hrunning other).mp hrun)
        exact (Function.update_of_ne hindex _ _).trans hold
    · intro hgrowth index'
      rw [hslots index', hplaced.active hgrowth index']
      constructor
      · intro hor
        rcases hor with rfl | hold
        · have hfree : pool.growth = none := hgrowth
          refine (hplaced.active hgrowth index').mp (hfill.resolve_left ?_)
          rw [hfree]
          simp
        · exact hold
      · exact .inr
  · have howned' : ∀ other, other ≠ worker → l'.owned other = l.owned other := by
      intro other hne
      rw [hl]
      simp [Local.see, Local.own, Function.update_of_ne hne]
    have hgrowth' : l'.growth = l.growth := by
      rw [hl]
      rfl
    have hserving' : l'.serving = l.serving := by
      rw [hl]
      rfl
    have hactive' : l'.activeWorkers = l.activeWorkers := by
      rw [hl]
      rfl
    refine ⟨?_, hslot, hcurrent, ?_, ?_, ?_, ?_, ?_, ?_⟩
    · rw [hgrowth']
      exact h.growth
    · intro other index' progress hsome
      have hne : other ≠ worker := by
        rintro rfl
        rw [hl] at hsome
        simp [Local.see, Local.own] at hsome
      rw [howned' other hne] at hsome
      obtain ⟨hlt', howner', hid', -⟩ := h.owned other index' progress hsome
      rw [hother other hne]
      refine ⟨hlt', howner', hid', .inr ?_⟩
      rw [hgrowth', hserving']
      exact hothers other index' progress hne hsome
    · intro other howner' hrun
      have hne : other ≠ worker := by
        rintro rfl
        rw [hworker] at howner'
        cases howner'
      rw [hother other hne] at howner'
      rw [howned' other hne]
      exact h.owner other howner' ((hrunning other).mp hrun)
    · intro other hdead
      rw [hl] at hdead
      obtain ⟨hlt', hnot⟩ := h.dead other hdead
      exact ⟨hlt', fun hrun => hnot ((hrunning other).mp hrun)⟩
    · intro index' other hseen
      rw [hl] at hseen
      rcases hseen with hold | ⟨rfl, hnew⟩
      · obtain ⟨hlt', howner', hid', hfilled'⟩ := h.seen index' other hold
        have hne : other ≠ worker := by
          rintro rfl
          rw [howner] at howner'
          cases howner'
        rw [hother other hne]
        exact ⟨hlt', howner', hid', (hslots index').mpr (.inr hfilled')⟩
      · obtain rfl := Option.some.inj hnew
        refine ⟨hlt, ?_, ?_, (hslots index').mpr (.inl rfl)⟩
        · rw [hworker]
        · rw [hsameId]
          exact hid
    · rw [hgrowth', hactive']
      exact h.activeWorkers
    · intro hgrowth index'
      rw [hgrowth'] at hgrowth
      rw [hslots index']
      exact hfilled hgrowth index'

theorem acts_storeSlot {worker : WorkerId} {index n : ℕ} (hgrowth : l.growth = true)
    (hslot : l.slot = none)
    (howned : l.owned worker = some (index, .replaying [])) (hcapacity : index < capacity)
    (hn : l.activeWorkers = some n) (hle : n ≤ index)
    (hfills : l.placed = index ∨ l.placed = 0 ∧ n = index) (hlock : pool.slotLock index = none) :
    Acts capacity t pool
      { pool.setWorker worker Worker.place with
        slots := Function.update pool.slots index (some worker) }
      { (l.own worker none).see index (some worker) with placed := index + 1 } := by
  obtain rfl := h.activeWorkers hgrowth n hn
  have hempty : pool.slots index = none := by
    by_contra hfilled
    have hlt := (h.placed hgrowth index).mp hfilled
    omega
  refine acts_place h hplaced howned ?_ ?_ hcapacity (.inl (h.growth.mp hgrowth)) rfl h.slot
    ?_ ?_ ?_
  · intro t' _
    rw [hlock]
    simp
  · intro other hother
    rw [hempty] at hother
    cases hother
  · intro index' current hsome
    have hsome' : l.slot = some (index', current) := hsome
    rw [hslot] at hsome'
    cases hsome'
  · intro other index' progress _ hother
    obtain ⟨-, -, -, hstarts⟩ := h.owned other index' progress hother
    rcases hstarts with ⟨⟨current, hsome⟩, -⟩ | hgrowing
    · rw [hslot] at hsome
      cases hsome
    · exact hgrowing
  · intro _ index'
    show index' = index ∨ pool.slots index' ≠ none ↔
      index' < pool.activeWorkers ∨ index' < index + 1
    rw [h.placed hgrowth index']
    omega

theorem acts_replaceSlot {worker : WorkerId} {index : ℕ} {current : Option WorkerId}
    (hslot : l.slot = some (index, current))
    (howned : l.owned worker = some (index, .replaying []))
    (hothers : ∀ other, other ≠ worker → l.owned other = none) :
    Acts capacity t pool
      { pool.setWorker worker Worker.place with
        slotLock := Function.update pool.slotLock index none
        slots := Function.update pool.slots index (some worker) }
      { (l.own worker none).see index (some worker) with slot := none } := by
  have hheld := (h.slot index).mpr ⟨current, hslot⟩
  obtain ⟨-, -, -, hstarts⟩ := h.owned worker index _ howned
  obtain ⟨occupant, hoccupant, hdead⟩ : Vacated pool index := by
    rcases hstarts with ⟨-, hvacated⟩ | ⟨hnone, -⟩
    · exact hvacated
    · rw [hslot] at hnone
      cases hnone
  have hfilled : pool.slots index ≠ none := by simp [hoccupant]
  have hplace : Acts capacity t pool
      { pool.setWorker worker Worker.place with
        slots := Function.update pool.slots index (some worker) }
      { (l.own worker none).see index (some worker) with slot := some (index, some worker) } := by
    refine acts_place h hplaced howned ?_ ?_ (hplaced.slots_lt index hfilled) (.inr hfilled) rfl
      ?_ ?_ ?_ ?_
    · intro t' ht
      rw [hheld]
      simpa using ht.symm
    · intro other hother
      rw [hoccupant] at hother
      rwa [← Option.some.inj hother]
    · intro index'
      rw [h.slot index', hslot]
      simp
    · intro index' current' hsome
      obtain ⟨rfl, rfl⟩ := Prod.mk.inj (Option.some.inj hsome)
      exact Function.update_self _ _ _
    · intro other index' progress hne hother
      rw [hothers other hne] at hother
      cases hother
    · intro hgrowth index'
      show index' = index ∨ pool.slots index' ≠ none ↔
        index' < pool.activeWorkers ∨ index' < l.placed
      rw [← h.placed hgrowth index']
      constructor
      · intro hor
        rcases hor with rfl | hold
        · exact hfilled
        · exact hold
      · exact .inr
  have hnone : ({ (l.own worker none).see index (some worker) with
      slot := some (index, some worker) } : Local).owned = fun _ => none := by
    funext other
    by_cases hne : other = worker
    · simp [Local.see, Local.own, hne]
    · simpa [Local.see, Local.own, Function.update_of_ne hne] using hothers other hne
  have hunlock := acts_unlockSlot hplace.agrees hplace.placed rfl hnone
  exact ⟨hplace.frame.trans hunlock.frame, hunlock.placed, hunlock.agrees⟩

theorem acts_spawn {index : ℕ} (hmay : l.MaySpawn index) :
    l.owned pool.started = none ∧ Acts capacity t pool
      { pool with
        workers := Function.update pool.workers pool.started ⟨index, .running, [], some t⟩
        started := pool.started + 1 }
      (l.own pool.started (some (index, .fresh))) := by
  have hstarts := h.starts_of_maySpawn hmay
  set pool' : WorkerPool := { pool with
    workers := Function.update pool.workers pool.started ⟨index, .running, [], some t⟩
    started := pool.started + 1 } with hpool'
  have hnew : pool'.workers pool.started = ⟨index, .running, [], some t⟩ := by simp [hpool']
  have hold : ∀ worker, worker ≠ pool.started → pool'.workers worker = pool.workers worker := by
    intro worker hne
    simp [hpool', Function.update_of_ne hne]
  have hrunning : ∀ worker, worker ≠ pool.started →
      (pool'.IsRunning worker ↔ pool.IsRunning worker) := by
    intro worker hne
    unfold WorkerPool.IsRunning
    rw [hold worker hne]
  have hstarts' : ∀ index', Starts pool l index' →
      Starts pool' (l.own pool.started (some (index, .fresh))) index' := by
    intro index' hstarts
    rcases hstarts with ⟨hslot, worker, hworker, hdead⟩ | hgrowing
    · refine .inl ⟨hslot, worker, hworker, ?_⟩
      have hlt := (hplaced.slots index' worker hworker).1
      rwa [hrunning worker hlt.ne]
    · exact .inr hgrowing
  refine ⟨?_, ?_, ?_, ?_⟩
  · cases howned : l.owned pool.started with
    | none => rfl
    | some entry => exact absurd (h.owned _ entry.1 entry.2 howned).1 (lt_irrefl _)
  · refine ⟨fun _ _ => Iff.rfl, fun _ _ _ => Iff.rfl, fun _ _ _ _ => rfl, fun _ h => h,
      Nat.le_succ _, le_rfl, ?_, ?_, ?_, ?_, ?_, fun _ _ _ => ⟨rfl, fun _ h => h⟩⟩
    · intro worker hlt
      rw [hold worker hlt.ne]
    · intro worker hlt _
      rw [hold worker hlt.ne]
    · intro worker t' ht howner
      have hne : worker ≠ pool.started := by
        rintro rfl
        rw [hnew] at howner
        exact ht (Option.some.inj howner).symm
      rwa [hold worker hne] at howner
    · intro worker t' ht howner hrun
      have hne : worker ≠ pool.started := by
        rintro rfl
        rw [hnew] at howner
        exact ht (Option.some.inj howner).symm
      exact (hrunning worker hne).mp hrun
    · intro worker hlt hrun
      exact (hrunning worker hlt.ne).mp hrun
  · refine ⟨?_, hplaced.slots_lt, ?_, hplaced.pos, hplaced.activeWorkers_le, hplaced.active⟩
    · intro index' worker hworker
      obtain ⟨hlt, howner, hid⟩ := hplaced.slots index' worker hworker
      rw [hold worker hlt.ne]
      exact ⟨hlt.trans (Nat.lt_succ_self _), howner, hid⟩
    · intro worker hrun
      by_cases hne : worker = pool.started
      · subst hne
        refine ⟨Nat.lt_succ_self _, ?_⟩
        intro hnone
        rw [hnew] at hnone
        cases hnone
      · obtain ⟨hlt, hin⟩ := hplaced.running worker ((hrunning worker hne).mp hrun)
        rw [hold worker hne]
        exact ⟨hlt.trans (Nat.lt_succ_self _), hin⟩
  · refine ⟨h.growth, h.slot, h.current, ?_, ?_, ?_, ?_, h.activeWorkers, h.placed⟩
    · intro worker index' progress howned
      by_cases hne : worker = pool.started
      · subst hne
        rw [owned_own] at howned
        obtain ⟨rfl, -⟩ := Prod.mk.inj (Option.some.inj howned)
        rw [hnew]
        exact ⟨Nat.lt_succ_self _, rfl, rfl, hstarts' index hstarts⟩
      · rw [owned_own_of_ne hne] at howned
        obtain ⟨hlt, howner, hid, hstarts⟩ := h.owned worker index' progress howned
        rw [hold worker hne]
        exact ⟨hlt.trans (Nat.lt_succ_self _), howner, hid, hstarts' index' hstarts⟩
    · intro worker howner hrun
      by_cases hne : worker = pool.started
      · subst hne
        rw [owned_own]
        rfl
      · rw [hold worker hne] at howner
        rw [owned_own_of_ne hne]
        exact h.owner worker howner ((hrunning worker hne).mp hrun)
    · intro worker hdead
      obtain ⟨hlt, hnot⟩ := h.dead worker hdead
      exact ⟨hlt.trans (Nat.lt_succ_self _), fun hrun => hnot ((hrunning worker hlt.ne).mp hrun)⟩
    · intro index' worker hseen
      obtain ⟨hlt, howner, hid, hfilled⟩ := h.seen index' worker hseen
      rw [hold worker hlt.ne]
      exact ⟨hlt.trans (Nat.lt_succ_self _), howner, hid, hfilled⟩

theorem acts_storeActive {n m : ℕ} (hgrowth : l.growth = true) (hfills : l.placed = n)
    (hnone : l.owned = fun _ => none) (hm : l.activeWorkers = some m) (hle : m ≤ n) :
    Acts capacity t pool { pool with activeWorkers := n }
      { l with activeWorkers := some n, placed := 0 } := by
  obtain rfl := h.activeWorkers hgrowth m hm
  have hheld := h.growth.mp hgrowth
  refine ⟨?_, ?_, ?_⟩
  · refine ⟨fun _ _ => Iff.rfl, fun _ _ _ => Iff.rfl, fun _ _ _ _ => rfl, fun _ h => h, le_rfl,
      hle, fun _ _ => rfl, fun _ _ _ => rfl, fun _ _ _ h => h, fun _ _ _ _ h => h,
      fun _ _ h => h, ?_⟩
    intro t' ht hother
    rw [hheld] at hother
    exact absurd (Option.some.inj hother).symm ht
  · refine ⟨hplaced.slots, hplaced.slots_lt, hplaced.running, hplaced.pos.trans_le hle, ?_, ?_⟩
    · show n ≤ capacity
      by_contra hlt
      have hfilled := (h.placed hgrowth (n - 1)).mpr (.inr (by omega))
      have hcapacity := hplaced.slots_lt _ hfilled
      omega
    intro hfree
    have hfree' : pool.growth = none := hfree
    rw [hheld] at hfree'
    cases hfree'
  · refine ⟨h.growth, h.slot, h.current, ?_, h.owner, h.dead, h.seen, ?_, ?_⟩
    · intro worker index progress howned
      have hsome : l.owned worker = some (index, progress) := howned
      rw [hnone] at hsome
      cases hsome
    · intro _ k hk
      exact (Option.some.inj hk).symm
    · intro _ index
      rw [h.placed hgrowth index, hfills]
      show _ ↔ index < n ∨ index < 0
      omega

end Commands

/-- What an allowed command does, whatever the other threads have done. -/
theorem acts_of_exec (h : Agrees t pool l) (hplaced : Settled capacity pool) {command : Command}
    {answer : command.Answer} (hallowed : allowed capacity command l)
    (hexec : exec t command answer pool = some pool') :
    possible command answer l ∧ Acts capacity t pool pool' (after command answer l) := by
  have hquiet : ∀ {pool'}, Quiet pool pool' → ∀ {l'}, Learns pool' l l' →
      Acts capacity t pool pool' l' := fun hq _ hl => Acts.quiet hq hplaced h hl
  cases command with
  | loadState =>
    obtain ⟨-, hpool'⟩ := Option.ite_none_right_eq_some.mp hexec
    obtain rfl := Option.some.inj hpool'
    exact ⟨trivial, hquiet (.refl _) (.of_eq rfl (by simp [after]; tauto) rfl rfl rfl rfl rfl rfl)⟩
  | finalize =>
    obtain ⟨-, hpool'⟩ := Option.ite_none_right_eq_some.mp hexec
    obtain rfl := Option.some.inj hpool'
    refine ⟨trivial, hquiet ?_ (.of_eq rfl id rfl rfl rfl rfl rfl rfl)⟩
    split_ifs
    · exact .of_eq rfl rfl rfl rfl rfl rfl
    · exact .refl _
  | storeState state =>
    obtain rfl := Option.some.inj hexec
    refine ⟨trivial, hquiet ?_ ?_⟩
    · exact .of_eq rfl rfl rfl rfl rfl rfl
    · cases state <;> exact .of_eq rfl id rfl rfl rfl rfl rfl rfl
  | loadActive =>
    obtain ⟨hanswer, hpool'⟩ := Option.ite_none_right_eq_some.mp hexec
    obtain rfl := Option.some.inj hpool'
    subst hanswer
    exact ⟨hplaced.pos, hquiet (.refl _) .count⟩
  | storeActive n =>
    obtain rfl := Option.some.inj hexec
    obtain ⟨hgrowth, -, hfills, hnone, m, hm, hle⟩ := hallowed
    exact ⟨trivial, acts_storeActive h hplaced hgrowth hfills hnone hm hle⟩
  | lockGrowth =>
    obtain ⟨hfree, hpool'⟩ := Option.ite_none_right_eq_some.mp hexec
    obtain rfl := Option.some.inj hpool'
    exact ⟨trivial, acts_lockGrowth h hplaced hfree hallowed.1 hallowed.2⟩
  | tryLockGrowth =>
    obtain ⟨hanswer, hpool'⟩ := Option.ite_none_right_eq_some.mp hexec
    obtain rfl := Option.some.inj hpool'
    refine ⟨trivial, ?_⟩
    cases answer with
    | false => exact hquiet (.refl _) (.refl _ _)
    | true => exact acts_lockGrowth h hplaced (of_decide_eq_true hanswer.symm) hallowed.1 hallowed.2
  | unlockGrowth =>
    obtain rfl := Option.some.inj hexec
    obtain ⟨hgrowth, hzero, -, -, -, hnone⟩ := hallowed
    exact ⟨trivial, acts_unlockGrowth h hplaced hgrowth hzero hnone⟩
  | lockRestart index =>
    obtain ⟨-, hpool'⟩ := Option.ite_none_right_eq_some.mp hexec
    obtain rfl := Option.some.inj hpool'
    refine ⟨trivial, hquiet ?_ (.refl _ _)⟩
    exact .of_eq rfl rfl rfl rfl rfl rfl
  | unlockRestart index =>
    obtain rfl := Option.some.inj hexec
    refine ⟨trivial, hquiet ?_ (.refl _ _)⟩
    exact .of_eq rfl rfl rfl rfl rfl rfl
  | lockSlot index =>
    obtain ⟨⟨hfree, hanswer⟩, hpool'⟩ := Option.ite_none_right_eq_some.mp hexec
    obtain rfl := Option.some.inj hpool'
    subst hanswer
    exact ⟨trivial, acts_lockSlot h hplaced hfree hallowed.1 hallowed.2⟩
  | unlockSlot index replacement =>
    cases replacement with
    | none =>
      obtain rfl := Option.some.inj hexec
      obtain ⟨⟨current, hslot⟩, hnone⟩ := hallowed
      exact ⟨trivial, acts_unlockSlot h hplaced hslot hnone⟩
    | some worker =>
      obtain rfl := Option.some.inj hexec
      obtain ⟨⟨current, hslot, -⟩, howned, hothers⟩ := hallowed
      exact ⟨trivial, acts_replaceSlot h hplaced hslot howned hothers⟩
  | readSlot index =>
    obtain ⟨⟨-, hanswer⟩, hpool'⟩ := Option.ite_none_right_eq_some.mp hexec
    obtain rfl := Option.some.inj hpool'
    exact ⟨trivial, hquiet (.refl _) (.see hanswer)⟩
  | lookSlot index =>
    obtain ⟨⟨-, hanswer⟩, hpool'⟩ := Option.ite_none_right_eq_some.mp hexec
    obtain rfl := Option.some.inj hpool'
    refine ⟨trivial, hquiet ?_ ?_⟩
    · exact .of_eq rfl rfl rfl rfl rfl rfl
    · exact .trans (.see hanswer) (.of_eq rfl id rfl rfl rfl rfl rfl rfl)
  | storeSlot index worker =>
    obtain ⟨hlock, hpool'⟩ := Option.ite_none_right_eq_some.mp hexec
    obtain rfl := Option.some.inj hpool'
    obtain ⟨hgrowth, -, hslot, howned, hcapacity, n, hn, hle, hfills⟩ := hallowed
    exact ⟨trivial,
      acts_storeSlot h hplaced hgrowth hslot howned hcapacity hn hle hfills hlock⟩
  | isRunning worker =>
    obtain ⟨hanswer, hpool'⟩ := Option.ite_none_right_eq_some.mp hexec
    obtain rfl := Option.some.inj hpool'
    refine ⟨trivial, hquiet (.refl _) ?_⟩
    cases answer with
    | true => exact .refl _ _
    | false => exact .bury (h.lt_of_knows hallowed) (of_decide_eq_false hanswer.symm)
  | spawn index =>
    cases answer with
    | none =>
      obtain rfl := Option.some.inj hexec
      exact ⟨fun worker hworker => (by cases hworker), hquiet (.refl _) (.refl _ _)⟩
    | some worker =>
      obtain ⟨hnew, hpool'⟩ := Option.ite_none_right_eq_some.mp hexec
      obtain rfl := Option.some.inj hpool'
      subst hnew
      obtain ⟨hnone, hacts⟩ := acts_spawn h hplaced hallowed
      refine ⟨?_, hacts⟩
      intro worker hworker
      obtain rfl := Option.some.inj hworker
      exact hnone
  | beginShutdown worker =>
    obtain rfl := Option.some.inj hexec
    have hlt := h.lt_of_knows hallowed
    refine ⟨trivial, hquiet (.beginShutdown _ _) (.bury ?_ ?_)⟩
    · exact hlt
    · simp only [WorkerPool.IsRunning, WorkerPool.setWorker, Worker.beginShutdown,
        Function.update_self]
      split <;> simp_all
  | finishShutdown worker =>
    obtain rfl := Option.some.inj hexec
    refine ⟨trivial, hquiet (.finishShutdown _ _) ?_⟩
    have hdead : ¬ (pool.setWorker worker Worker.finishShutdown).IsRunning worker := by
      simp [WorkerPool.IsRunning, WorkerPool.setWorker, Worker.finishShutdown]
    have hlt := h.lt_of_knows hallowed
    refine (Learns.disown hdead).trans (.trans (.bury ?_ hdead) ?_)
    · exact hlt
    · exact .of_eq rfl id rfl rfl rfl rfl rfl rfl
  | cloneBootstraps worker =>
    obtain ⟨-, hpool'⟩ := Option.ite_none_right_eq_some.mp hexec
    obtain rfl := Option.some.inj hpool'
    exact ⟨trivial, hquiet (.refl _) (.progress fun _ => rfl)⟩
  | replay worker message =>
    exact ⟨trivial, hquiet (.deliver hexec) (.progress fun _ => rfl)⟩
  | send index worker message =>
    exact ⟨trivial, hquiet (.deliver hexec) (.of_eq rfl id rfl rfl rfl rfl rfl rfl)⟩
  | exchange worker payload => exact ⟨trivial, hquiet (.serve hexec) (.refl _ _)⟩
  | record group replacements =>
    obtain rfl := Option.some.inj hexec
    refine ⟨trivial, hquiet ?_ (.of_eq rfl id rfl rfl rfl rfl rfl rfl)⟩
    exact .of_eq rfl rfl rfl rfl rfl rfl
  | choose =>
    obtain rfl := Option.some.inj hexec
    exact ⟨trivial, hquiet (.refl _) (.refl _ _)⟩
  | pick =>
    obtain rfl := Option.some.inj hexec
    exact ⟨trivial, hquiet (.refl _) (.refl _ _)⟩
  | beginBroadcast group payloads =>
    obtain rfl := Option.some.inj hexec
    refine ⟨trivial, hquiet ?_ (.of_eq rfl id rfl rfl rfl rfl rfl rfl)⟩
    exact .of_eq rfl rfl rfl rfl rfl rfl
  | takeWorker worker =>
    obtain rfl := Option.some.inj hexec
    refine ⟨trivial, hquiet ?_ (.of_eq rfl id rfl rfl rfl rfl rfl rfl)⟩
    exact .of_eq rfl rfl rfl rfl rfl rfl
  | endBroadcast ok =>
    obtain rfl := Option.some.inj hexec
    refine ⟨trivial, hquiet ?_ (.of_eq rfl id rfl rfl rfl rfl rfl rfl)⟩
    exact .of_eq rfl rfl rfl rfl rfl rfl

/-! ## Runs -/

/-- The pool and what every thread knows of it. -/
structure Ownership (capacity : ℕ) (pool : WorkerPool) (locals : ℕ → Local) : Prop where
  placed : Settled capacity pool
  agrees : ∀ t, Agrees t pool (locals t)

namespace Ownership

variable {locals : ℕ → Local}

theorem act (h : Ownership capacity pool locals) {command : Command} {answer : command.Answer}
    (hallowed : allowed capacity command (locals t))
    (hexec : exec t command answer pool = some pool') :
    possible command answer (locals t) ∧ Framed t pool pool' ∧
      Ownership capacity pool' (Function.update locals t (after command answer (locals t))) := by
  obtain ⟨hpossible, hframe, hplaced, hagrees⟩ :=
    acts_of_exec (h.agrees t) h.placed hallowed hexec
  refine ⟨hpossible, hframe, hplaced, ?_⟩
  intro t'
  by_cases ht : t' = t
  · subst ht
    rwa [Function.update_self]
  · rw [Function.update_of_ne ht]
    exact hframe.agrees h.placed ht (h.agrees t')

theorem quiet (h : Ownership capacity pool locals) (hquiet : Quiet pool pool') :
    Ownership capacity pool' locals :=
  ⟨hquiet.placed h.placed, fun t => hquiet.agrees (h.agrees t)⟩

/-- An active slot has a worker, also while the pool grows. -/
theorem filled (h : Ownership capacity pool locals) {index : ℕ}
    (hindex : index < pool.activeWorkers) : pool.slots index ≠ none := by
  cases hgrowth : pool.growth with
  | none => exact (h.placed.active hgrowth index).mpr hindex
  | some t =>
    have hheld := (h.agrees t).growth.mpr hgrowth
    exact ((h.agrees t).placed hheld index).mpr (.inl hindex)

end Ownership

/-- The pool at its start, with idle threads. -/
def poolStart (initialWorkers : ℕ) : Config Command Command.Answer WorkerPool :=
  ⟨.spawn initialWorkers, fun _ => .done ()⟩

namespace Local

/-- A thread that has done nothing yet. -/
def idle : Local where
  growth := false
  serving := false
  activeWorkers := none
  placed := 0
  finalizer := false
  halting := false
  looked := 0
  stopping := []
  slot := none
  owned := fun _ => none
  broadcast := none
  dead := ∅
  seen := ∅

theorem free_idle : idle.Free := ⟨rfl, rfl, rfl, rfl, rfl, rfl, rfl, rfl, rfl, rfl, rfl⟩

end Local

theorem Agrees.idle {initialWorkers : ℕ} : Agrees t (.spawn initialWorkers) .idle where
  growth := by simp [Local.idle, WorkerPool.spawn]
  slot := by simp [Local.idle, WorkerPool.spawn]
  current _ _ h := by cases h
  owned _ _ _ h := by cases h
  owner _ h := by cases h
  dead _ h := h.elim
  seen _ _ h := h.elim
  activeWorkers h := by cases h
  placed h := by cases h

theorem Settled.spawn {initialWorkers : ℕ} (hpos : 0 < initialWorkers)
    (hle : initialWorkers ≤ capacity) : Settled capacity (.spawn initialWorkers) := by
  have hslots : ∀ index, (WorkerPool.spawn initialWorkers).slots index =
      if index < initialWorkers then some index else none := fun _ => rfl
  have hfilled : ∀ index, (WorkerPool.spawn initialWorkers).slots index ≠ none ↔
      index < initialWorkers := by
    intro index
    rw [hslots]
    split_ifs with hlt <;> simp [hlt]
  refine ⟨?_, ?_, ?_, hpos, hle, fun _ => hfilled⟩
  · intro index worker hworker
    rw [hslots] at hworker
    obtain ⟨hlt, hsame⟩ := Option.ite_none_right_eq_some.mp hworker
    obtain rfl := Option.some.inj hsame
    exact ⟨hlt, rfl, rfl⟩
  · intro index hsome
    exact ((hfilled index).mp hsome).trans_le hle
  · intro worker hrunning
    have hlt : worker < initialWorkers := by
      by_contra hge
      simp [WorkerPool.IsRunning, WorkerPool.spawn, hge] at hrunning
    refine ⟨hlt, fun _ => ?_⟩
    exact (hslots worker).trans (if_pos hlt)

section Runs

variable {maximumPayloadSize initialWorkers : ℕ} {guard : ℕ → Command → WorkerPool → Prop}
  {config config' : Config Command Command.Answer WorkerPool}

theorem Crash.quiet (h : Crash pool pool') : Quiet pool pool' := by
  obtain ⟨worker, rfl⟩ := h
  exact .fail pool worker

/-- Every thread is disciplined and knows of the pool what is so. -/
def Owned (capacity : ℕ) (config : Config Command Command.Answer WorkerPool) : Prop :=
  System.Invariant (discipline capacity) Local.Free (Ownership capacity) config

theorem owned_poolStart (hpos : 0 < initialWorkers) (hle : initialWorkers ≤ capacity) :
    Owned capacity (poolStart initialWorkers) :=
  ⟨fun _ => .idle, ⟨.spawn hpos hle, fun _ => .idle⟩, fun _ => Local.free_idle⟩

theorem Owned.run (h : Owned capacity config)
    (hrun : (poolSystem capacity maximumPayloadSize).Run guard config config') :
    Owned capacity config' := by
  refine hrun.invariant ?_ ?_ ?_ h
  · intro p hp
    exact Operation.safe hp
  · intro t command answer pool pool' locals hI hallowed _ hexec
    obtain ⟨hpossible, -, hI'⟩ := hI.act hallowed hexec
    exact ⟨hpossible, hI'⟩
  · intro pool pool' locals hI hcrash
    exact hI.quiet hcrash.quiet

/-- Slots are never emptied and the active ones stay active. -/
theorem Owned.grows (h : Owned capacity config)
    (hrun : (poolSystem capacity maximumPayloadSize).Run guard config config') :
    config.shared.activeWorkers ≤ config'.shared.activeWorkers ∧
      ∀ index, config.shared.slots index ≠ none → config'.shared.slots index ≠ none := by
  obtain ⟨locals, hI, hthreads⟩ := h
  have hend : System.Invariant (discipline capacity) Local.Free (fun pool locals =>
      Ownership capacity pool locals ∧ config.shared.activeWorkers ≤ pool.activeWorkers ∧
        ∀ index, config.shared.slots index ≠ none → pool.slots index ≠ none) config' := by
    refine hrun.invariant ?_ ?_ ?_ ⟨locals, ⟨hI, le_rfl, fun _ h => h⟩, hthreads⟩
    · intro p hp
      exact Operation.safe hp
    · intro t command answer pool pool' locals hgrown hallowed _ hexec
      obtain ⟨hI, hactive, hslots⟩ := hgrown
      obtain ⟨hpossible, hframe, hI'⟩ := hI.act hallowed hexec
      exact ⟨hpossible, hI', hactive.trans hframe.activeWorkers,
        fun index hfilled => hframe.filled index (hslots index hfilled)⟩
    · intro pool pool' locals hgrown hcrash
      obtain ⟨hI, hactive, hslots⟩ := hgrown
      have hframe := hcrash.quiet.frame 0
      exact ⟨hI.quiet hcrash.quiet, hactive.trans hframe.activeWorkers,
        fun index hfilled => hframe.filled index (hslots index hfilled)⟩
  obtain ⟨_, hgrown, _⟩ := hend
  exact hgrown.2

/-- Every worker that runs is in the slot that it was started for or is being initialised, the
active slots have workers, and no idle thread holds a lock. -/
structure WellPlaced (capacity : ℕ) (config : Config Command Command.Answer WorkerPool) :
    Prop where
  pos : 0 < config.shared.activeWorkers
  le : config.shared.activeWorkers ≤ capacity
  active : ∀ index < config.shared.activeWorkers, config.shared.slots index ≠ none
  settled : config.shared.growth = none → ∀ index,
    config.shared.slots index ≠ none ↔ index < config.shared.activeWorkers
  slots : ∀ index worker, config.shared.slots index = some worker →
    index < capacity ∧ (config.shared.workers worker).id = index
  running : ∀ worker, config.shared.IsRunning worker →
    config.shared.slots (config.shared.workers worker).id = some worker ∨
      ∃ t, (config.shared.workers worker).owner = some t ∧ config.threads t ≠ .done ()
  growth : ∀ t, config.shared.growth = some t → config.threads t ≠ .done ()
  slotLock : ∀ index t, config.shared.slotLock index = some t → config.threads t ≠ .done ()

theorem Owned.wellPlaced (h : Owned capacity config) : WellPlaced capacity config := by
  obtain ⟨locals, hI, hthreads⟩ := h
  have hfree : ∀ t, config.threads t = .done () → (locals t).Free := by
    intro t hdone
    have hsafe := hthreads t
    rwa [hdone] at hsafe
  refine ⟨hI.placed.pos, hI.placed.activeWorkers_le, fun index => hI.filled, hI.placed.active,
    ?_, ?_, ?_, ?_⟩
  · intro index worker hworker
    exact ⟨hI.placed.slots_lt index (by simp [hworker]), (hI.placed.slots index worker hworker).2.2⟩
  · intro worker hrunning
    cases howner : (config.shared.workers worker).owner with
    | none => exact .inl ((hI.placed.running worker hrunning).2 howner)
    | some t =>
      refine .inr ⟨t, rfl, ?_⟩
      intro hdone
      have hsome := (hI.agrees t).owner worker howner hrunning
      rw [(hfree t hdone).owned] at hsome
      cases hsome
  · intro t hgrowth hdone
    have hheld := (hI.agrees t).growth.mpr hgrowth
    rw [(hfree t hdone).growth] at hheld
    cases hheld
  · intro index t hlock hdone
    obtain ⟨current, hslot⟩ := ((hI.agrees t).slot index).mp hlock
    rw [(hfree t hdone).slot] at hslot
    cases hslot

theorem wellPlaced_of_run (hpos : 0 < initialWorkers) (hle : initialWorkers ≤ capacity)
    (hrun : (poolSystem capacity maximumPayloadSize).Run guard (poolStart initialWorkers) config) :
    WellPlaced capacity config ∧
      ∀ config', (poolSystem capacity maximumPayloadSize).Run guard config config' →
        config.shared.activeWorkers ≤ config'.shared.activeWorkers ∧
          ∀ index, config.shared.slots index ≠ none → config'.shared.slots index ≠ none := by
  have howned := (owned_poolStart hpos hle).run hrun
  exact ⟨howned.wellPlaced, fun config' hrun' => howned.grows hrun'⟩

/-- A thread that has the growth lock, and a worker that has crashed. -/
theorem wellPlaced_of_run_growing : ∃ config : Config Command Command.Answer WorkerPool,
    WellPlaced 4 config ∧ config.shared.growth = some 7 ∧ ¬ config.shared.IsRunning 1 ∧
      config.shared.IsRunning 0 := by
  have hstart : (poolSystem 4 1000).Step (fun _ _ _ => True) (poolStart 2) _ :=
    .start 7 _ rfl (.growTo 3)
  have hlocked := (Relation.ReflTransGen.single hstart).tail
    (.act 7 .lockGrowth _ () rfl trivial rfl)
  have hrun := hlocked.tail (.environment ⟨1, rfl⟩)
  exact ⟨_, (wellPlaced_of_run (by decide) (by decide) hrun).1, rfl, by decide, rfl⟩

end Runs

end Mago.Extension
