import Mago.Extension.Disciplined

/-!
# Growth is disciplined

A thread that grows the pool holds the growth lock; the workers it starts concurrently are for
different slots beyond the active ones.
-/
namespace Mago.Extension
open Mago.Library Program

variable {capacity : ℕ}

namespace Local

theorem Extends.free {l l' : Local} (h : l.Extends l') (hfree : l.Free) : l'.Free := by
  rw [h.eq]
  exact ⟨hfree.growth, hfree.serving, hfree.activeWorkers, hfree.placed, hfree.finalizer,
    hfree.halting, hfree.looked, hfree.stopping, hfree.slot, hfree.owned, hfree.broadcast⟩

theorem Free.calm {l : Local} (h : l.Free) : l.Calm := ⟨h.slot, h.stopping, h.owned⟩

theorem Free.mayRestart {l : Local} (h : l.Free) (index : ℕ) : l.MayRestart index := by
  intro broadcast hbroadcast
  rw [h.broadcast] at hbroadcast
  cases hbroadcast

/-- The thread holds the growth lock and nothing else. -/
structure Holding (l : Local) : Prop where
  growth : l.growth = true
  placed : l.placed = 0
  finalizer : l.finalizer = false
  halting : l.halting = false
  looked : l.looked = 0
  stopping : l.stopping = []
  slot : l.slot = none
  owned : l.owned = fun _ => none
  broadcast : l.broadcast = none

theorem Extends.holding {l l' : Local} (h : l.Extends l') (hholding : l.Holding) :
    l'.Holding := by
  rw [h.eq]
  exact ⟨hholding.growth, hholding.placed, hholding.finalizer, hholding.halting, hholding.looked,
    hholding.stopping, hholding.slot, hholding.owned, hholding.broadcast⟩

/-- What a thread between two operations knows when it has the growth lock. -/
def lockedGrowth (l : Local) : Local :=
  { l with growth := true, serving := false, activeWorkers := none, placed := 0 }

theorem Free.holding {l : Local} (h : l.Free) (serving : Bool) (activeWorkers : Option ℕ) :
    ({ l.lockedGrowth with serving, activeWorkers } : Local).Holding :=
  ⟨rfl, rfl, h.finalizer, h.halting, h.looked, h.stopping, h.slot, h.owned, h.broadcast⟩

end Local

theorem safe_unlockGrowth {α : Type} {result : α} {Q : α → Local → Prop} {l : Local}
    (h : l.Holding) (hQ : ∀ l', l'.Free → l'.seen = l.seen → Q result l') :
    (do
      perform .unlockGrowth
      pure result : Action α).Safe (discipline capacity) Q l := by
  refine safe_then.mpr ⟨?_, ?_⟩
  · exact ⟨h.growth, h.placed, h.halting, h.slot, h.broadcast, h.owned⟩
  · intro _ _
    refine hQ _ ⟨rfl, rfl, rfl, h.placed, h.finalizer, h.halting, h.looked, h.stopping, h.slot,
      h.owned, h.broadcast⟩ rfl

/-- The thread is free again, has seen what it had seen, and the slot of the worker. -/
structure Grown (l : Local) (result : Except WorkerError (Option (ℕ × WorkerId))) (l' : Local) :
    Prop where
  free : l'.Free
  seen : l.seen ⊆ l'.seen
  worker : ∀ index worker, result = .ok (some (index, worker)) → (index, worker) ∈ l'.seen

/-- The states of a thread that holds the growth lock and has found the pool running. -/
def Local.growing (l : Local) (activeWorkers : ℕ) : Local :=
  { l.lockedGrowth with serving := true, activeWorkers := some activeWorkers }

theorem Local.Free.maySpawn_growing {l : Local} (h : l.Free) {activeWorkers index : ℕ}
    (hindex : activeWorkers ≤ index) : (l.growing activeWorkers).MaySpawn index :=
  .inl ⟨rfl, rfl, h.slot, h.broadcast, activeWorkers, rfl, hindex⟩

theorem safe_tryGrow {observedWorkers : ℕ} {l : Local} (hfree : l.Free) :
    (tryGrow capacity observedWorkers).Safe (discipline capacity) (Grown l) l := by
  unfold tryGrow
  split_ifs with hcapacity
  · exact ⟨hfree, subset_rfl, by simp⟩
  · refine safe_then.mpr ⟨⟨hfree.growth, hfree.slot⟩, ?_⟩
    intro locked _
    cases locked with
    | false => exact ⟨hfree, subset_rfl, by simp⟩
    | true =>
      refine safe_then.mpr ⟨trivial, ?_⟩
      intro state _
      show Safe _ (if state ≠ .running then _ else _) _ _
      split_ifs with hstate
      · refine safe_unlockGrowth (hfree.holding _ none) ?_
        intro l' hl' hseen
        exact ⟨hl', hseen.ge, by simp⟩
      · obtain rfl := not_not.mp hstate
        refine safe_then.mpr ⟨trivial, ?_⟩
        intro activeWorkers _
        refine safe_then.mpr ⟨trivial, ?_⟩
        intro shouldGrow _
        show Safe _ (if _ then _ else _) _ (l.growing activeWorkers)
        split_ifs with hgrow
        · refine safe_unlockGrowth (hfree.holding true (some activeWorkers)) ?_
          intro l' hl' hseen
          exact ⟨hl', hseen.ge, by simp⟩
        · have hroom : activeWorkers < capacity := by
            by_contra hnot
            exact hgrow (.inr (.inl (not_lt.mp hnot)))
          have hholding := hfree.holding true (some activeWorkers)
          refine (safe_spawnInitialized (hfree.maySpawn_growing le_rfl) hfree.stopping).bind ?_
          intro result l' hresult
          cases result with
          | error error =>
            refine safe_unlockGrowth (hresult.holding hholding) ?_
            intro l'' hl'' hseen
            exact ⟨hl'', hresult.seen.trans hseen.ge, by simp⟩
          | ok worker =>
            obtain ⟨hfresh, rfl⟩ := hresult
            refine safe_then.mpr ⟨⟨rfl, rfl, hfree.slot, owned_own _ _ _, hroom, activeWorkers,
              rfl, le_rfl, .inr ⟨rfl, rfl⟩⟩, fun _ _ => ?_⟩
            have howned : ((l.growing activeWorkers).own worker
                (some (activeWorkers, .replaying []))).own worker none =
                  l.growing activeWorkers := by
              rw [own_own, own_self hfresh]
            have hnone : (after (.storeSlot activeWorkers worker) () ((l.growing activeWorkers).own
                worker (some (activeWorkers, .replaying [])))).owned = fun _ => none := by
              simp only [after, howned]
              exact hfree.owned
            refine safe_then.mpr ⟨⟨rfl, rfl, rfl, hnone, activeWorkers, rfl, Nat.le_succ _⟩,
              fun _ _ => ?_⟩
            refine safe_unlockGrowth ?_ ?_
            · simp only [after, howned]
              exact ⟨rfl, rfl, hfree.finalizer, hfree.halting, hfree.looked, hfree.stopping,
                hfree.slot, hfree.owned, hfree.broadcast⟩
            · intro l'' hl'' hseen
              refine ⟨hl'', ?_, ?_⟩
              · rw [hseen]
                exact Set.subset_union_left
              · intro index worker' hworker
                simp only [Except.ok.injEq, Option.some.injEq, Prod.mk.injEq] at hworker
                obtain ⟨rfl, rfl⟩ := hworker
                rw [hseen]
                exact .inr ⟨rfl, rfl⟩

section GrowTo

namespace Spawning

/-- What a scoped thread owns. -/
def Holds : Spawning → WorkerId → Progress → Prop
  | waiting _, _, _ => False
  | initializing _ worker, worker', progress => worker' = worker ∧ progress = .fresh
  | replaying _ worker bootstraps, worker', progress =>
    worker' = worker ∧ progress = .replaying (bootstraps.map Bootstrap.message)
  | ended _ (.ok worker), worker', progress => worker' = worker ∧ progress = .replaying []
  | ended _ (.error _), _, _ => False

/-- The thread owns at the slot what the job says. -/
def Owns (spawning : Spawning) (l : Local) : Prop :=
  ∀ worker progress, l.owned worker = some (spawning.index, progress) ↔
    spawning.Holds worker progress

end Spawning

/-- Only workers that are owned for the slot change. -/
structure Local.Touches (index : ℕ) (l l' : Local) : Prop where
  eq : l' = { l with owned := l'.owned, dead := l'.dead, seen := l'.seen }
  seen : l.seen ⊆ l'.seen
  owned : ∀ worker index' progress, index' ≠ index →
    (l'.owned worker = some (index', progress) ↔ l.owned worker = some (index', progress))

namespace Local

theorem Extends.touches {l l' : Local} (h : l.Extends l') (index : ℕ) : l.Touches index l' := by
  refine ⟨?_, h.seen, ?_⟩
  · rw [h.eq]
  · intro worker index' progress _
    rw [h.eq]

theorem touches_own {l : Local} {index : ℕ} {worker : WorkerId} {state : Option (ℕ × Progress)}
    (h : ∀ index' progress, l.owned worker = some (index', progress) → index' = index)
    (hstate : ∀ index' progress, state = some (index', progress) → index' = index) :
    l.Touches index (l.own worker state) := by
  refine ⟨rfl, subset_rfl, ?_⟩
  intro worker' index' progress hne
  by_cases hworker : worker' = worker
  · subst hworker
    rw [owned_own]
    exact iff_of_false (fun heq => hne (hstate _ _ heq)) fun heq => hne (h _ _ heq)
  · simp [Local.own, Function.update_of_ne hworker]

theorem Touches.trans {index : ℕ} {l l' l'' : Local} (h : l.Touches index l')
    (h' : l'.Touches index l'') : l.Touches index l'' := by
  refine ⟨?_, h.seen.trans h'.seen, ?_⟩
  · have heq := h'.eq
    rw [h.eq] at heq
    exact heq
  · intro worker index' progress hne
    exact (h'.owned worker index' progress hne).trans (h.owned worker index' progress hne)

theorem Touches.owns {index : ℕ} {l l' : Local} (h : l.Touches index l') {spawning : Spawning}
    (hindex : spawning.index ≠ index) (howns : spawning.Owns l) : spawning.Owns l' :=
  fun worker progress => (h.owned worker _ progress hindex).trans (howns worker progress)

end Local

/-- What a step of a scoped thread leads to. -/
structure Stepped (spawning : Spawning) (l : Local) (spawning' : Spawning) (l' : Local) : Prop where
  index : spawning'.index = spawning.index
  owns : spawning'.Owns l'
  touches : l.Touches spawning.index l'

/-- The worker of a scoped thread is initialised. -/
theorem stepped_own {spawning spawning' : Spawning} {l : Local} {worker : WorkerId}
    {progress : Progress} (howns : spawning.Owns l) (hindex : spawning'.index = spawning.index)
    (hworker : ∀ worker' progress', spawning.Holds worker' progress' → worker' = worker)
    (howned : l.owned worker = none ∨
      ∃ progress', l.owned worker = some (spawning.index, progress'))
    (hholds : ∀ worker' progress', spawning'.Holds worker' progress' ↔
      worker' = worker ∧ progress' = progress) :
    Stepped spawning l spawning' (l.own worker (some (spawning.index, progress))) := by
  refine ⟨hindex, ?_, ?_⟩
  · intro worker' progress'
    rw [hholds, hindex]
    by_cases heq : worker' = worker
    · subst heq
      rw [owned_own]
      simp [eq_comm]
    · have hold : l.owned worker' ≠ some (spawning.index, progress') :=
        fun h => heq (hworker _ _ ((howns worker' progress').mp h))
      simpa [Local.own, Function.update_of_ne heq, heq] using hold
  · refine Local.touches_own ?_ ?_
    · intro index' progress' h
      rcases howned with hnone | ⟨progress'', hsome⟩
      · rw [hnone] at h
        cases h
      · rw [hsome] at h
        exact ((Prod.mk.inj (Option.some.inj h)).1).symm
    · intro index' progress' h
      exact ((Prod.mk.inj (Option.some.inj h)).1).symm

/-- The worker of a scoped thread was shut down. -/
theorem stepped_error {spawning : Spawning} {l l' : Local} {worker : WorkerId} {error : WorkerError}
    (howns : spawning.Owns l)
    (hworker : ∀ worker' progress', spawning.Holds worker' progress' → worker' = worker)
    (howned : l.owned worker = none ∨
      ∃ progress', l.owned worker = some (spawning.index, progress'))
    (hextends : (l.own worker none).Extends l') :
    Stepped spawning l (.ended spawning.index (.error error)) l' := by
  refine ⟨rfl, ?_, ?_⟩
  · intro worker' progress'
    refine iff_of_false ?_ id
    intro h
    rw [hextends.eq] at h
    by_cases heq : worker' = worker
    · subst heq
      simp [Local.own] at h
    · have h' : l.owned worker' = some (spawning.index, progress') := by
        simpa [Local.own, Function.update_of_ne heq, Spawning.index] using h
      exact heq (hworker _ _ ((howns worker' progress').mp h'))
  · refine Local.Touches.trans (Local.touches_own ?_ (by simp)) (hextends.touches _)
    intro index' progress' h
    rcases howned with hnone | ⟨progress'', hsome⟩
    · rw [hnone] at h
      cases h
    · rw [hsome] at h
      exact ((Prod.mk.inj (Option.some.inj h)).1).symm

theorem safe_step {spawning : Spawning} {l : Local} (hspawn : l.MaySpawn spawning.index)
    (howns : spawning.Owns l) (hstopping : l.stopping = []) :
    spawning.step.Safe (discipline capacity) (fun spawning' l' => Stepped spawning l spawning' l')
      l := by
  cases spawning with
  | waiting index =>
    refine safe_then.mpr ⟨hspawn, ?_⟩
    intro answer hpossible
    cases answer with
    | none =>
      refine ⟨rfl, ?_, (Local.Extends.refl l).touches _⟩
      intro worker progress
      exact howns worker progress
    | some worker =>
      exact stepped_own howns rfl (fun _ _ h => h.elim) (.inl (hpossible worker rfl))
        fun _ _ => Iff.rfl
  | initializing index worker =>
    have howned : l.owned worker = some (index, .fresh) := (howns worker .fresh).mpr ⟨rfl, rfl⟩
    refine safe_then.mpr ⟨⟨index, howned, hspawn⟩, ?_⟩
    intro bootstraps _
    have hafter : after (.cloneBootstraps worker) bootstraps l =
        l.own worker (some (index, .replaying (bootstraps.map Bootstrap.message))) := by
      simp [after, howned]
    rw [hafter]
    exact stepped_own howns rfl (fun _ _ h => h.1) (.inr ⟨_, howned⟩) fun _ _ => Iff.rfl
  | replaying index worker bootstraps =>
    cases bootstraps with
    | nil =>
      refine ⟨rfl, ?_, (Local.Extends.refl l).touches _⟩
      intro worker' progress
      exact howns worker' progress
    | cons bootstrap bootstraps =>
      have howned := (howns worker _).mpr ⟨rfl, rfl⟩
      refine (safe_replayOne howned hstopping).bind ?_
      intro error l' h
      cases error with
      | some error => exact stepped_error howns (fun _ _ h => h.1) (.inr ⟨_, howned⟩) h
      | none =>
        dsimp only at h
        subst h
        exact stepped_own howns rfl (fun _ _ h => h.1) (.inr ⟨_, howned⟩) fun _ _ => Iff.rfl
  | ended index result => exact ⟨rfl, howns, (Local.Extends.refl l).touches _⟩

/-- A scoped thread that runs to its end. -/
theorem stepped_spawned {spawning : Spawning} {l l' : Local} {worker : WorkerId}
    {result : Except WorkerError WorkerId} (howns : spawning.Owns l)
    (hworker : ∀ worker' progress', spawning.Holds worker' progress' → worker' = worker)
    (howned : l.owned worker = none ∨
      ∃ progress', l.owned worker = some (spawning.index, progress'))
    (h : Spawned l spawning.index worker result l') :
    Stepped spawning l (.ended spawning.index result) l' := by
  cases result with
  | ok worker' =>
    obtain ⟨rfl, rfl⟩ := h
    exact stepped_own howns rfl hworker howned fun _ _ => Iff.rfl
  | error error => exact stepped_error howns hworker howned h

theorem safe_finish {spawning : Spawning} {l : Local} (hspawn : l.MaySpawn spawning.index)
    (howns : spawning.Owns l) (hstopping : l.stopping = []) :
    spawning.finish.Safe (discipline capacity) (fun result l' =>
      Stepped spawning l (.ended result.1 result.2) l') l := by
  have hjoin : spawning.join.Safe (discipline capacity) (fun result l' =>
      Stepped spawning l (.ended spawning.index result) l') l := by
    cases spawning with
    | waiting index =>
      refine (safe_spawnInitialized hspawn hstopping).mono ?_
      intro result l' h
      cases result with
      | ok worker =>
        obtain ⟨hfresh, rfl⟩ := h
        exact stepped_own howns rfl (fun _ _ h => h.elim) (.inl hfresh) fun _ _ => Iff.rfl
      | error error =>
        refine ⟨rfl, ?_, h.touches _⟩
        intro worker progress
        rw [h.eq]
        exact howns worker progress
    | initializing index worker =>
      have howned : l.owned worker = some (index, .fresh) := (howns worker .fresh).mpr ⟨rfl, rfl⟩
      refine (safe_replayBootstraps howned hspawn hstopping).mono ?_
      intro result l' h
      exact stepped_spawned howns (fun _ _ h => h.1) (.inr ⟨_, howned⟩) h
    | replaying index worker bootstraps =>
      have howned := (howns worker _).mpr ⟨rfl, rfl⟩
      refine (safe_replayAll howned hstopping).mono ?_
      intro result l' h
      exact stepped_spawned howns (fun _ _ h => h.1) (.inr ⟨_, howned⟩) h
    | ended index result => exact ⟨rfl, howns, (Local.Extends.refl l).touches _⟩
  exact hjoin.bind fun _ _ h => h

/-- The jobs own what the thread owns. -/
structure Tracks (l : Local) (indexes : List ℕ) (jobs : List Spawning) (l' : Local) : Prop where
  eq : l' = { l with owned := l'.owned, dead := l'.dead, seen := l'.seen }
  seen : l.seen ⊆ l'.seen
  map_index : jobs.map Spawning.index = indexes
  owns : ∀ job ∈ jobs, job.Owns l'
  owned : ∀ worker index progress, l'.owned worker = some (index, progress) → index ∈ indexes

theorem Tracks.step {l l' l'' : Local} {indexes : List ℕ} (hnodup : indexes.Nodup)
    {before after : List Spawning} {job job' : Spawning}
    (h : Tracks l indexes (before ++ job :: after) l') (hstep : Stepped job l' job' l'') :
    Tracks l indexes (before ++ job' :: after) l'' := by
  have hmap : (before ++ job' :: after).map Spawning.index =
      (before ++ job :: after).map Spawning.index := by
    simp [hstep.index]
  have hdistinct : ∀ other, other ∈ before ∨ other ∈ after → other.index ≠ job.index := by
    intro other hother
    have hpair := h.map_index ▸ hnodup
    rw [List.map_append, List.map_cons, List.nodup_middle, List.nodup_cons] at hpair
    intro heq
    refine hpair.1 ?_
    rw [← heq, ← List.map_append]
    exact List.mem_map_of_mem (List.mem_append.mpr hother)
  refine ⟨?_, h.seen.trans hstep.touches.seen, hmap.trans h.map_index, ?_, ?_⟩
  · have heq := hstep.touches.eq
    rw [h.eq] at heq
    exact heq
  · intro other hother
    have howns : ∀ other, other ∈ before ∨ other ∈ after → other.Owns l'' := by
      intro other hother
      refine hstep.touches.owns (hdistinct other hother) (h.owns other ?_)
      rcases hother with hother | hother <;> simp [hother]
    rcases List.mem_append.mp hother with hother | hother
    · exact howns other (.inl hother)
    · rcases List.mem_cons.mp hother with rfl | hother
      · exact hstep.owns
      · exact howns other (.inr hother)
  · intro worker index progress howned
    by_cases hindex : index = job.index
    · rw [hindex, ← h.map_index]
      simp
    · exact h.owned worker index progress
        ((hstep.touches.owned worker index progress hindex).mp howned)

theorem safe_pick (l : Local) :
    pick.Safe (discipline capacity) (fun _ l' => l' = l) l :=
  safe_last.mpr ⟨trivial, fun _ _ => rfl⟩

/-- The workers of a thread that grows the pool are started in any interleaving. -/
theorem safe_spawnings {l : Local} (hfree : l.Free) {activeWorkers n : ℕ} :
    (Program.concurrently pick Spawning.step Spawning.finish
      ((List.range' activeWorkers n).map Spawning.waiting)).Safe (discipline capacity)
      (fun results l' => Tracks (l.growing activeWorkers) (List.range' activeWorkers n)
        (results.map fun result => .ended result.1 result.2) l') (l.growing activeWorkers) := by
  have hnodup : (List.range' activeWorkers n).Nodup := List.nodup_range'
  have hspawn : ∀ before job after l', Tracks (l.growing activeWorkers)
      (List.range' activeWorkers n) (before ++ job :: after) l' → l'.MaySpawn job.index := by
    intro before job after l' h
    have hmem : job.index ∈ List.range' activeWorkers n := by
      rw [← h.map_index]
      simp
    have hmay : (l.growing activeWorkers).MaySpawn job.index :=
      hfree.maySpawn_growing (List.mem_range'_1.mp hmem).1
    rw [h.eq]
    rcases hmay with hmay | ⟨current, hslot, -⟩
    · exact .inl hmay
    · cases hfree.slot.symm.trans hslot
  have hstopping : ∀ before job after l', Tracks (l.growing activeWorkers)
      (List.range' activeWorkers n) (before ++ job :: after) l' → l'.stopping = [] := by
    intro before job after l' h
    rw [h.eq]
    exact hfree.stopping
  have hstart : Tracks (l.growing activeWorkers) (List.range' activeWorkers n)
      ((List.range' activeWorkers n).map Spawning.waiting) (l.growing activeWorkers) := by
    have howned : (l.growing activeWorkers).owned = fun _ => none := hfree.owned
    refine ⟨rfl, subset_rfl, ?_, ?_, ?_⟩
    · rw [List.map_map]
      exact List.map_id _
    · intro job hjob
      obtain ⟨index, -, rfl⟩ := List.mem_map.mp hjob
      intro worker progress
      rw [howned]
      exact iff_of_false (by simp) id
    · intro worker index progress h
      rw [howned] at h
      cases h
  refine (Safe.concurrently (P := fun _ => True) safe_pick ?_ ?_ hstart).mono
    fun _ _ h => h.2
  · intro before job after l' h
    refine (safe_step (hspawn _ _ _ _ h) (h.owns job (by simp)) (hstopping _ _ _ _ h)).mono ?_
    intro job' l'' hstep
    exact h.step hnodup hstep
  · intro before job after l' h
    refine (safe_finish (hspawn _ _ _ _ h) (h.owns job (by simp)) (hstopping _ _ _ _ h)).mono ?_
    intro result l'' hstep
    exact ⟨trivial, h.step hnodup hstep⟩

theorem mem_collectSpawned {results : List (ℕ × Except WorkerError WorkerId)} {index : ℕ}
    {worker : WorkerId} :
    (index, worker) ∈ (collectSpawned results).1 ↔ (index, .ok worker) ∈ results := by
  induction results with
  | nil => simp [collectSpawned]
  | cons result results ih =>
    obtain ⟨index', result⟩ := result
    cases result with
    | ok worker' => simp [collectSpawned, ih]
    | error error => simp [collectSpawned, ih]

/-- Without an error there is a worker for every index. -/
theorem map_fst_collectSpawned {results : List (ℕ × Except WorkerError WorkerId)}
    (h : (collectSpawned results).2 = none) :
    (collectSpawned results).1.map Prod.fst = results.map Prod.fst := by
  induction results with
  | nil => rfl
  | cons result results ih =>
    obtain ⟨index, result⟩ := result
    cases result with
    | ok worker => exact congrArg (index :: ·) (ih h)
    | error error => cases h

/-- The workers are dead and no longer owned or stopping. -/
def Local.without (l : Local) (workers : List WorkerId) : Local :=
  { l with
    owned := fun worker => if worker ∈ workers then none else l.owned worker
    dead := l.dead ∪ {worker | worker ∈ workers}
    stopping := l.stopping.filter fun worker => decide (worker ∉ workers) }

theorem safe_beginShutdowns {workers : List WorkerId} {l : Local}
    (hknows : ∀ worker ∈ workers, l.Knows worker) :
    (beginShutdowns workers).Safe (discipline capacity)
      (fun _ l' => l' = { l with dead := l.dead ∪ {worker | worker ∈ workers} }) l := by
  induction workers generalizing l with
  | nil => simp [beginShutdowns]
  | cons worker workers ih =>
    refine safe_then.mpr ⟨hknows worker List.mem_cons_self, fun _ _ => ?_⟩
    refine (ih ?_).mono ?_
    · intro other hother
      rcases hknows other (List.mem_cons_of_mem _ hother) with h | h | h
      · exact .inl h
      · exact .inr (.inl h)
      · exact .inr (.inr (Set.mem_insert_of_mem _ h))
    · intro _ l' hl'
      subst hl'
      simp only [after, Local.bury, Local.mk.injEq, true_and, and_true]
      ext other
      simp [or_assoc, or_comm, or_left_comm]

theorem safe_finishShutdowns {workers : List WorkerId} {l : Local}
    (hdead : ∀ worker ∈ workers, worker ∈ l.dead) :
    (finishShutdowns workers).Safe (discipline capacity)
      (fun _ l' => l' = l.without workers) l := by
  induction workers generalizing l with
  | nil => simp [finishShutdowns, Local.without]
  | cons worker workers ih =>
    refine safe_then.mpr ⟨.inr (.inr (hdead worker List.mem_cons_self)), fun _ _ => ?_⟩
    refine (ih ?_).mono ?_
    · intro other hother
      exact Set.mem_insert_of_mem _ (hdead other (List.mem_cons_of_mem _ hother))
    · intro _ l' hl'
      subst hl'
      simp only [Local.without, after, Local.bury, Local.own, Local.mk.injEq, true_and, and_true]
      refine ⟨?_, ?_, ?_⟩
      · rw [List.filter_filter]
        refine List.filter_congr ?_
        intro other _
        by_cases h : other = worker <;> simp [h]
      · funext other
        by_cases h : other = worker <;> simp [h]
      · ext other
        by_cases h : other = worker <;> simp [h]

theorem safe_shutdownWorkers {workers : List WorkerId} {l : Local}
    (hknows : ∀ worker ∈ workers, l.Knows worker) :
    (shutdownWorkers workers).Safe (discipline capacity)
      (fun _ l' => l' = l.without workers) l := by
  refine (safe_beginShutdowns hknows).bind ?_
  intro _ l' hl'
  subst hl'
  have hdead : ∀ worker ∈ workers,
      worker ∈ ({ l with dead := l.dead ∪ {worker | worker ∈ workers} } : Local).dead :=
    fun worker hworker => Or.inr hworker
  refine (safe_finishShutdowns hdead).mono ?_
  intro _ l' hl'
  subst hl'
  simp [Local.without, Set.union_assoc]

/-- The slots before the index are filled or active. -/
def Local.Fills (l : Local) (activeWorkers index : ℕ) : Prop :=
  l.placed = index ∨ l.placed = 0 ∧ activeWorkers = index

/-- The workers go to the slots from an index on, which are not active. -/
structure Placeable (capacity start activeWorkers : ℕ) (workers : List (ℕ × WorkerId))
    (l : Local) : Prop where
  indexes : workers.map Prod.fst = List.range' start workers.length
  le : activeWorkers ≤ start
  fills : l.Fills activeWorkers start
  capacity : start + workers.length ≤ capacity
  owned : ∀ entry ∈ workers, l.owned entry.2 = some (entry.1, .replaying [])

theorem safe_storeSlots {start activeWorkers : ℕ} {workers : List (ℕ × WorkerId)} {l : Local}
    (h : Placeable capacity start activeWorkers workers l) (hgrowth : l.growth = true)
    (hserving : l.serving = true) (hslot : l.slot = none)
    (hactive : l.activeWorkers = some activeWorkers) :
    (storeSlots workers).Safe (discipline capacity) (fun _ l' => l' = { l with
      owned := fun worker => if worker ∈ workers.map Prod.snd then none else l.owned worker
      placed := l'.placed
      seen := l'.seen } ∧ l'.Fills activeWorkers (start + workers.length) ∧
        l.seen ⊆ l'.seen) l := by
  induction workers generalizing start l with
  | nil => exact ⟨by simp, h.fills, subset_rfl⟩
  | cons entry workers ih =>
    obtain ⟨index, worker⟩ := entry
    obtain ⟨rfl, hindexes⟩ := List.cons.inj (h.indexes.trans (List.range'_succ ..))
    have hlength := h.capacity
    rw [List.length_cons] at hlength
    have howned := h.owned _ List.mem_cons_self
    refine safe_then.mpr ⟨⟨hgrowth, hserving, hslot, howned, by omega, activeWorkers, hactive,
      h.le, h.fills⟩, fun _ _ => ?_⟩
    have hlater : ∀ entry ∈ workers, index < entry.1 := by
      intro entry hentry
      have hmem : entry.1 ∈ workers.map Prod.fst := List.mem_map_of_mem hentry
      rw [hindexes] at hmem
      exact (List.mem_range'_1.mp hmem).1
    have hplaceable : Placeable capacity (index + 1) activeWorkers workers
        (after (.storeSlot index worker) () l) := by
      refine ⟨hindexes, h.le.trans (Nat.le_succ _), .inl rfl, by omega, ?_⟩
      intro entry hentry
      have howned' := h.owned entry (List.mem_cons_of_mem _ hentry)
      have hne : entry.2 ≠ worker := by
        intro heq
        rw [heq, howned] at howned'
        have hindex := (Prod.mk.inj (Option.some.inj howned')).1
        exact (hlater entry hentry).ne hindex
      simpa [after, Local.own, Local.see, Function.update_of_ne hne] using howned'
    refine (ih hplaceable hgrowth hserving hslot hactive).mono ?_
    intro _ l' hl'
    obtain ⟨heq, hfills, hseen⟩ := hl'
    refine ⟨?_, ?_, Set.subset_union_left.trans hseen⟩
    · rw [heq]
      simp only [after, Local.own, Local.see, Local.mk.injEq, true_and, and_true]
      funext other
      by_cases hother : other = worker
      · simp [hother]
      · have hcons : other ∈ ((index, worker) :: workers).map Prod.snd ↔
            other ∈ workers.map Prod.snd := by
          rw [List.map_cons, List.mem_cons]
          exact or_iff_right hother
        simp only [hcons, Function.update_of_ne hother]
    · rwa [List.length_cons, Nat.add_comm workers.length, ← Nat.add_assoc]

/-- What the thread owns at the end is among the workers that were collected. -/
theorem Tracks.mem_collectSpawned {l l' : Local} {indexes : List ℕ}
    {results : List (ℕ × Except WorkerError WorkerId)}
    (h : Tracks l indexes (results.map fun result => .ended result.1 result.2) l')
    {worker : WorkerId} {index : ℕ} {progress : Progress} :
    l'.owned worker = some (index, progress) ↔
      (index, worker) ∈ (collectSpawned results).1 ∧ progress = .replaying [] := by
  rw [Mago.Extension.mem_collectSpawned]
  constructor
  · intro howned
    have hindex := h.owned worker index progress howned
    rw [← h.map_index, List.map_map] at hindex
    obtain ⟨⟨index', result⟩, hresult, rfl⟩ := List.mem_map.mp hindex
    have howns := h.owns _ (List.mem_map_of_mem hresult)
    cases result with
    | ok worker' =>
      obtain ⟨rfl, rfl⟩ := (howns worker progress).mp howned
      exact ⟨hresult, rfl⟩
    | error error => exact ((howns worker progress).mp howned).elim
  · intro hmem
    obtain ⟨hresult, rfl⟩ := hmem
    have howns := h.owns _ (List.mem_map_of_mem hresult)
    exact (howns worker _).mpr ⟨rfl, rfl⟩

theorem safe_growTo {target : ℕ} {l : Local} (hfree : l.Free) :
    (growTo capacity target).Safe (discipline capacity) (fun _ l' => l'.Free) l := by
  refine safe_then.mpr ⟨⟨hfree.growth, hfree.slot⟩, fun _ _ => ?_⟩
  refine safe_then.mpr ⟨trivial, ?_⟩
  intro state _
  show Safe _ (if state ≠ .running then _ else _) _ _
  split_ifs with hstate
  · exact safe_unlockGrowth (hfree.holding _ none) fun _ hl' _ => hl'
  · obtain rfl := not_not.mp hstate
    refine safe_then.mpr ⟨trivial, ?_⟩
    intro activeWorkers _
    show Safe _ (if _ then _ else _) _ (l.growing activeWorkers)
    split_ifs with htarget
    · exact safe_unlockGrowth (hfree.holding true (some activeWorkers)) fun _ hl' _ => hl'
    · refine (safe_spawnings hfree).bind ?_
      intro results l' htracks
      have howned : ∀ worker, worker ∉ (collectSpawned results).1.map Prod.snd →
          l'.owned worker = none := by
        intro worker hworker
        cases howned : l'.owned worker with
        | none => rfl
        | some entry =>
          obtain ⟨index, progress⟩ := entry
          exact absurd (List.mem_map_of_mem (htracks.mem_collectSpawned.mp howned).1) hworker
      have hsome : ∀ entry ∈ (collectSpawned results).1,
          l'.owned entry.2 = some (entry.1, .replaying []) :=
        fun entry hentry => htracks.mem_collectSpawned.mpr ⟨hentry, rfl⟩
      have hl' := htracks.eq
      rcases hcollect : collectSpawned results with ⟨workers, error⟩
      rw [hcollect] at howned hsome
      cases error with
      | some error =>
        have hknows : ∀ worker ∈ workers.map Prod.snd, l'.Knows worker := by
          intro worker hworker
          obtain ⟨entry, hentry, rfl⟩ := List.mem_map.mp hworker
          exact .inl (by rw [hsome entry hentry]; rfl)
        refine (safe_shutdownWorkers hknows).bind ?_
        intro _ l'' hl''
        refine safe_unlockGrowth ?_ fun _ hfree' _ => hfree'
        have hnone : l''.owned = fun _ => none := by
          funext worker
          subst hl''
          by_cases hworker : worker ∈ workers.map Prod.snd
          · exact if_pos hworker
          · exact (if_neg hworker).trans (howned worker hworker)
        subst hl''
        rw [hl'] at hnone ⊢
        refine ⟨rfl, rfl, hfree.finalizer, hfree.halting, hfree.looked, ?_, hfree.slot, hnone,
          hfree.broadcast⟩
        show List.filter _ l.stopping = []
        rw [hfree.stopping]
        rfl
      | none =>
        have hindexes : workers.map Prod.fst =
            List.range' activeWorkers (min target capacity - activeWorkers) := by
          have hmap := map_fst_collectSpawned (congrArg Prod.snd hcollect)
          rw [hcollect] at hmap
          rw [hmap, ← htracks.map_index, List.map_map]
          rfl
        have hlength : workers.length = min target capacity - activeWorkers := by
          have h := congrArg List.length hindexes
          rwa [List.length_map, List.length_range'] at h
        have hplaceable : Placeable capacity activeWorkers activeWorkers workers l' := by
          refine ⟨by rw [hindexes, hlength], le_rfl, .inr ⟨?_, rfl⟩, by omega, hsome⟩
          rw [hl']
          rfl
        have hgrowing : l'.growth = true ∧ l'.serving = true ∧ l'.slot = none ∧
            l'.activeWorkers = some activeWorkers := by
          rw [hl']
          exact ⟨rfl, rfl, hfree.slot, rfl⟩
        obtain ⟨hgrowth, hserving, hslot, hactive⟩ := hgrowing
        refine (safe_storeSlots hplaceable hgrowth hserving hslot hactive).bind ?_
        intro _ l'' hl''
        obtain ⟨heq, hfills, -⟩ := hl''
        have hplaced : l''.placed = min target capacity := by
          rcases hfills with hfilled | ⟨-, hempty⟩
          · omega
          · omega
        have hnone : l''.owned = fun _ => none := by
          funext worker
          rw [heq]
          by_cases hworker : worker ∈ workers.map Prod.snd
          · exact if_pos hworker
          · exact (if_neg hworker).trans (howned worker hworker)
        refine safe_then.mpr ⟨?_, fun _ _ => ?_⟩
        · refine ⟨?_, ?_, hplaced, hnone, activeWorkers, ?_, by omega⟩
          · rw [heq]
            exact hgrowth
          · rw [heq]
            exact hserving
          · rw [heq]
            exact hactive
        · refine safe_unlockGrowth ?_ fun _ hfree' _ => hfree'
          rw [heq, hl'] at hnone ⊢
          exact ⟨rfl, rfl, hfree.finalizer, hfree.halting, hfree.looked, hfree.stopping,
            hfree.slot, hnone, hfree.broadcast⟩

end GrowTo

end Mago.Extension
