import Mago.Extension.Broadcasting

/-!
# The shutdown is disciplined

The thread that finalizes the pool holds the growth lock, looks at every slot after it has stored
that the pool is stopping, and stores that it has stopped after it has stopped what it saw. So
every operation of a pool is disciplined.
-/
namespace Mago.Extension
open Mago.Library Program

variable {capacity : ℕ}

/-- The thread finalizes the pool under the growth lock. -/
structure Local.Finalizing (l : Local) : Prop where
  holding : ({ l with finalizer := false } : Local).Holding
  finalizer : l.finalizer = true
  serving : l.serving = false

theorem Local.Extends.finalizing {l l' : Local} (h : l.Extends l') (hl : l.Finalizing) :
    l'.Finalizing := by
  obtain ⟨hholding, hfinalizer, hserving⟩ := hl
  rw [h.eq]
  exact ⟨⟨hholding.growth, hholding.placed, rfl, hholding.halting, hholding.looked,
    hholding.stopping, hholding.slot, hholding.owned, hholding.broadcast⟩, hfinalizer, hserving⟩

theorem safe_runningWorkers {indexes : List ℕ} {l : Local} :
    (runningWorkers indexes).Safe (discipline capacity) (fun result l' => l.Extends l' ∧
      ∀ workers, result = .ok workers → ∀ worker ∈ workers, l'.Knows worker) l := by
  induction indexes generalizing l with
  | nil =>
    refine ⟨.refl l, ?_⟩
    intro workers hworkers
    obtain rfl := Except.ok.inj hworkers
    simp
  | cons index indexes ih =>
    refine safe_then.mpr ⟨trivial, ?_⟩
    intro answer _
    have hextends := l.extends_see index answer
    cases answer with
    | none => exact ⟨hextends, by simp⟩
    | some worker =>
      have hseen := l.mem_seen_see index worker
      refine safe_then.mpr ⟨.inr (.inl ⟨index, hseen⟩), ?_⟩
      intro running _
      cases running with
      | false => exact ⟨hextends.trans (Local.extends_bury _ worker), by simp⟩
      | true =>
        refine Safe.bind ih ?_
        intro result l' hresult
        obtain ⟨hextends', hknows⟩ := hresult
        cases result with
        | error error => exact ⟨hextends.trans hextends', by simp⟩
        | ok workers =>
          refine ⟨hextends.trans hextends', ?_⟩
          intro workers' hworkers'
          obtain rfl := Except.ok.inj hworkers'
          exact List.forall_mem_cons.mpr
            ⟨.inr (.inl ⟨index, hextends'.seen hseen⟩), hknows workers rfl⟩

theorem safe_collectReductions {request : Payload} {workers : List WorkerId} {l : Local} :
    (collectReductions request workers).Safe (discipline capacity) (fun _ l' => l' = l) l := by
  induction workers with
  | nil => rfl
  | cons worker workers ih =>
    refine safe_then.mpr ⟨trivial, fun reply _ => ?_⟩
    refine safe_then.mpr ⟨trivial, fun consistent _ => ?_⟩
    refine Safe.bind ih ?_
    intro error l' hl'
    show Safe _ (if _ then _ else _) _ l'
    split_ifs
    · exact hl'
    · exact hl'

theorem Local.Finalizing.extends_without {l : Local} (h : l.Finalizing)
    (workers : List WorkerId) : l.Extends (l.without workers) := by
  have howned : l.owned = fun _ => none := h.holding.owned
  have hstopping : l.stopping = [] := h.holding.stopping
  refine ⟨?_, Set.subset_union_left, subset_rfl⟩
  simp [Local.without, howned, hstopping]

theorem safe_reduceWorkerState {request : Payload} {l : Local} (h : l.Finalizing) :
    (reduceWorkerState request).Safe (discipline capacity) (fun _ l' => l'.Finalizing) l := by
  refine safe_then.mpr ⟨trivial, ?_⟩
  intro activeWorkers _
  set l₁ : Local := after .loadActive activeWorkers l
  have h₁ : l₁.Finalizing :=
    ⟨⟨h.holding.growth, h.holding.placed, rfl, h.holding.halting, h.holding.looked,
      h.holding.stopping, h.holding.slot, h.holding.owned, h.holding.broadcast⟩, h.finalizer,
      h.serving⟩
  refine (safe_runningWorkers (l := l₁)).bind ?_
  intro result l₂ hresult
  obtain ⟨hextends, hknows⟩ := hresult
  have h₂ := hextends.finalizing h₁
  cases result with
  | error error => exact h₂
  | ok workers =>
    cases workers with
    | nil => exact h₂
    | cons leader followers =>
      refine safe_collectReductions.bind ?_
      intro error l₃ hl₃
      subst hl₃
      cases error with
      | some error => exact h₂
      | none =>
        refine safe_then.mpr ⟨trivial, ?_⟩
        intro hasReducers _
        cases hasReducers with
        | false => exact h₂
        | true =>
          have hfollowers : ∀ worker ∈ followers, l₃.Knows worker :=
            fun worker hworker => hknows _ rfl worker (List.mem_cons_of_mem _ hworker)
          refine (safe_shutdownWorkers hfollowers).bind ?_
          intro _ l₄ hl₄
          subst hl₄
          have h₄ := (h₂.extends_without followers).finalizing h₂
          refine safe_then.mpr ⟨trivial, fun reply _ => ?_⟩
          show Safe _ (if _ then _ else _) _ _
          split_ifs
          · exact h₄
          · exact h₄

/-- The slots are looked at in order, and what is there is to be stopped. -/
theorem safe_lookSlots {start n : ℕ} {l : Local} (hhalting : l.halting = true)
    (hlooked : l.looked = start) :
    (lookSlots (List.range' start n)).Safe (discipline capacity) (fun workers l' =>
      l' = { l with looked := start + n, stopping := l.stopping ++ workers, seen := l'.seen } ∧
        l.seen ⊆ l'.seen ∧ ∀ worker ∈ workers, l'.Knows worker) l := by
  induction n generalizing start l with
  | zero =>
    refine ⟨?_, subset_rfl, by simp⟩
    simp [← hlooked]
  | succ n ih =>
    refine safe_then.mpr ⟨⟨hhalting, hlooked.symm⟩, ?_⟩
    intro answer _
    refine Safe.bind (@ih (start + 1) _ hhalting (congrArg (· + 1) hlooked)) ?_
    intro workers l' hl'
    obtain ⟨heq, hseen, hknows⟩ := hl'
    refine ⟨?_, Set.subset_union_left.trans hseen, ?_⟩
    · rw [heq]
      simp [after, Local.see, Nat.add_comm, Nat.add_left_comm]
    · intro worker hworker
      rcases List.mem_append.mp hworker with hworker | hworker
      · refine .inr (.inl ⟨start, hseen (.inr ⟨rfl, ?_⟩)⟩)
        simpa using hworker
      · exact hknows worker hworker

theorem safe_stopWorkers {l : Local} (h : l.Finalizing) :
    (shutdown.stopWorkers capacity).Safe (discipline capacity) (fun _ l' => l'.Free) l := by
  refine safe_then.mpr ⟨⟨h.finalizer, h.holding.halting, h.holding.growth, h.serving,
    h.holding.slot, h.holding.owned⟩, fun _ _ => ?_⟩
  rw [List.range_eq_range']
  refine Safe.bind (safe_lookSlots rfl rfl) ?_
  intro workers l₁ hl₁
  obtain ⟨heq, -, hknows⟩ := hl₁
  refine (safe_shutdownWorkers hknows).bind ?_
  intro _ l₂ hl₂
  have howned : l₂.owned = fun _ => none := by
    subst hl₂
    rw [heq]
    funext worker
    show (if _ then _ else l.owned worker) = none
    rw [show l.owned = fun _ => none from h.holding.owned]
    split_ifs <;> rfl
  have hstopping : l₂.stopping = [] := by
    subst hl₂
    rw [heq]
    show List.filter _ workers = []
    simp
  have hl₂' : l₂ = { after (.storeState .stopping) () l with
      looked := 0 + capacity, owned := l₂.owned, stopping := l₂.stopping, dead := l₂.dead,
      seen := l₂.seen } := by
    rw [hl₂, heq]
    rfl
  refine safe_then.mpr ⟨?_, fun _ _ => ?_⟩
  · rw [hl₂', hstopping]
    exact ⟨h.finalizer, h.holding.growth, rfl, by simp, rfl⟩
  · refine safe_last.mpr ⟨?_, fun _ _ => ?_⟩
    · rw [hl₂']
      exact ⟨h.holding.growth, h.holding.placed, rfl, h.holding.slot, h.holding.broadcast, howned⟩
    · rw [hl₂', hstopping]
      exact ⟨rfl, rfl, rfl, h.holding.placed, rfl, rfl, rfl, rfl, h.holding.slot, howned,
        h.holding.broadcast⟩

theorem safe_shutdown {request : Payload} {l : Local} (hfree : l.Free) :
    (shutdown capacity request).Safe (discipline capacity) (fun _ l' => l'.Free) l := by
  refine safe_then.mpr ⟨trivial, ?_⟩
  intro finalized _
  cases finalized with
  | false =>
    show Local.Free { l with finalizer := l.finalizer || false }
    rw [hfree.finalizer]
    exact ⟨hfree.growth, hfree.serving, hfree.activeWorkers, hfree.placed, rfl, hfree.halting,
      hfree.looked, hfree.stopping, hfree.slot, hfree.owned, hfree.broadcast⟩
  | true =>
    refine safe_then.mpr ⟨⟨hfree.growth, hfree.slot⟩, fun _ _ => ?_⟩
    refine safe_then.mpr ⟨trivial, ?_⟩
    intro workerReduction _
    have h : (after .lockGrowth () (after .finalize true l)).Finalizing :=
      ⟨⟨rfl, rfl, rfl, hfree.halting, hfree.looked, hfree.stopping, hfree.slot, hfree.owned,
        hfree.broadcast⟩, Bool.or_true _, rfl⟩
    cases workerReduction with
    | false => exact safe_stopWorkers h
    | true =>
      refine (safe_reduceWorkerState h).bind ?_
      intro _ l' hl'
      exact safe_stopWorkers hl'

/-- Every operation is disciplined. -/
theorem Operation.safe {maximumPayloadSize : ℕ} {p : Action Unit}
    (hp : Operation capacity maximumPayloadSize p) (l : Local) (hfree : l.Free) :
    p.Safe (discipline capacity) (fun _ l => l.Free) l := by
  cases hp with
  | request payload => exact (safe_requestInner hfree).bind fun _ _ h => h
  | broadcast payload => exact (safe_broadcast hfree).bind fun _ _ h => h
  | broadcastSequence group payloads => exact (safe_broadcastInner hfree).bind fun _ _ h => h
  | growTo target => exact (safe_growTo hfree).bind fun _ _ h => h
  | shutdown request => exact safe_shutdown hfree

end Mago.Extension
