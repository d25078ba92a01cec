import Mago.Extension.Discipline

/-!
# The operations are disciplined

Every command of the pool's operations is allowed where it is performed: one rule for each
function, which its callers use.
-/
namespace Mago.Extension
open Mago.Library

variable {capacity : ℕ}

/-- What is known of dead and seen workers grows, everything else is the same. -/
structure Local.Extends (l l' : Local) : Prop where
  eq : l' = { l with dead := l'.dead, seen := l'.seen }
  dead : l.dead ⊆ l'.dead
  seen : l.seen ⊆ l'.seen

namespace Local

theorem Extends.refl (l : Local) : l.Extends l := ⟨rfl, subset_rfl, subset_rfl⟩

theorem Extends.trans {l l' l'' : Local} (h : l.Extends l') (h' : l'.Extends l'') :
    l.Extends l'' := by
  refine ⟨?_, h.dead.trans h'.dead, h.seen.trans h'.seen⟩
  have heq := h'.eq
  rw [h.eq] at heq
  exact heq

theorem extends_see (l : Local) (index : ℕ) (answer : Option WorkerId) :
    l.Extends (l.see index answer) :=
  ⟨rfl, subset_rfl, Set.subset_union_left⟩

theorem extends_bury (l : Local) (worker : WorkerId) : l.Extends (l.bury worker) :=
  ⟨rfl, Set.subset_insert _ _, subset_rfl⟩

theorem mem_seen_see (l : Local) (index : ℕ) (worker : WorkerId) :
    (index, worker) ∈ (l.see index (some worker)).seen :=
  .inr ⟨rfl, rfl⟩

theorem Extends.mayRestart {l l' : Local} (h : l.Extends l') {index : ℕ}
    (hmay : l.MayRestart index) : l'.MayRestart index := by
  rw [h.eq]
  exact hmay

end Local

open Program

theorem safe_then {α : Type} {command : Command} {f : command.Answer → Action α}
    {Q : α → Local → Prop} {l : Local} :
    (perform command >>= f).Safe (discipline capacity) Q l ↔ allowed capacity command l ∧
      ∀ answer, possible command answer l →
        (f answer).Safe (discipline capacity) Q (after command answer l) :=
  safe_perform_bind

theorem safe_last {command : Command} {Q : command.Answer → Local → Prop} {l : Local} :
    (perform command).Safe (discipline capacity) Q l ↔ allowed capacity command l ∧
      ∀ answer, possible command answer l → Q answer (after command answer l) :=
  safe_perform

section Spawn

theorem safe_shutdownWorker {worker : WorkerId} {l : Local} (hknows : l.Knows worker)
    (hstopping : l.stopping = []) :
    (shutdownWorker worker).Safe (discipline capacity)
      (fun _ l' => l' = (l.own worker none).bury worker) l := by
  refine safe_then.mpr ⟨hknows, ?_⟩
  intro _ _
  refine safe_last.mpr ⟨.inr (.inr (Set.mem_insert _ _)), ?_⟩
  intro _ _
  simp [after, Local.own, Local.bury, hstopping]

theorem safe_replayOne {index : ℕ} {worker : WorkerId} {bootstrap : Bootstrap}
    {messages : List Message} {l : Local}
    (howned : l.owned worker = some (index, .replaying (bootstrap.message :: messages)))
    (hstopping : l.stopping = []) :
    (replayOne index worker bootstrap).Safe (discipline capacity)
      (fun error l' => match error with
        | none => l' = l.own worker (some (index, .replaying messages))
        | some _ => (l.own worker none).Extends l') l := by
  have hshutdown : ∀ progress, (shutdownWorker worker).Safe (discipline capacity)
      (fun _ l' => (l.own worker none).Extends l') (l.own worker (some (index, progress))) := by
    intro progress
    have hstopping' : (l.own worker (some (index, progress))).stopping = [] := hstopping
    refine (safe_shutdownWorker (.inl ?_) hstopping').mono ?_
    · simp [Local.own]
    · intro _ l' hl'
      subst hl'
      have hown : (l.own worker (some (index, progress))).own worker none = l.own worker none := by
        simp [Local.own]
      rw [hown]
      exact Local.extends_bury _ _
  refine safe_then.mpr ⟨⟨index, messages, howned⟩, ?_⟩
  intro answer _
  cases answer with
  | error processed crashed =>
    have hafter : after (.replay worker bootstrap.message) (.error processed crashed) l =
        l.own worker (some (index, .broken)) := by
      simp [after, howned]
    rw [hafter]
    exact (hshutdown .broken).bind fun _ _ h => h
  | ok response =>
    have hafter : after (.replay worker bootstrap.message) (.ok response) l =
        l.own worker (some (index, .replaying messages)) := by
      simp [after, howned]
    rw [hafter]
    dsimp only
    split_ifs
    · exact (hshutdown _).bind fun _ _ h => h
    · rfl

@[simp] theorem own_own (l : Local) (worker : WorkerId) (state state' : Option (ℕ × Progress)) :
    (l.own worker state).own worker state' = l.own worker state' := by
  simp [Local.own]

theorem own_self {l : Local} {worker : WorkerId} {state : Option (ℕ × Progress)}
    (h : l.owned worker = state) : l.own worker state = l := by
  subst h
  simp [Local.own]

@[simp] theorem owned_own (l : Local) (worker : WorkerId) (state : Option (ℕ × Progress)) :
    (l.own worker state).owned worker = state := by
  simp [Local.own]

/-- The worker is initialised and still in no slot, or it is shut down. -/
def Spawned (l : Local) (index : ℕ) (worker : WorkerId) :
    Except WorkerError WorkerId → Local → Prop
  | .ok worker', l' => worker' = worker ∧ l' = l.own worker (some (index, .replaying []))
  | .error _, l' => (l.own worker none).Extends l'

theorem spawned_own {l l' : Local} {index : ℕ} {worker : WorkerId}
    {state : Option (ℕ × Progress)} {result : Except WorkerError WorkerId}
    (h : Spawned (l.own worker state) index worker result l') :
    Spawned l index worker result l' := by
  cases result with
  | ok worker' => exact ⟨h.1, h.2.trans (own_own _ _ _ _)⟩
  | error error =>
    have hextends : ((l.own worker state).own worker none).Extends l' := h
    rw [own_own] at hextends
    exact hextends

theorem safe_replayAll {index : ℕ} {worker : WorkerId} {bootstraps : List Bootstrap} {l : Local}
    (howned : l.owned worker = some (index, .replaying (bootstraps.map Bootstrap.message)))
    (hstopping : l.stopping = []) :
    (replayAll index worker bootstraps).Safe (discipline capacity) (Spawned l index worker) l := by
  induction bootstraps generalizing l with
  | nil => exact ⟨rfl, (own_self howned).symm⟩
  | cons bootstrap bootstraps ih =>
    refine (safe_replayOne howned hstopping).bind ?_
    intro error l' h
    cases error with
    | some error => exact h
    | none =>
      dsimp only at h
      subst h
      exact (ih (owned_own _ _ _) hstopping).mono fun _ _ h => spawned_own h

theorem safe_replayBootstraps {index : ℕ} {worker : WorkerId} {l : Local}
    (howned : l.owned worker = some (index, .fresh)) (hspawn : l.MaySpawn index)
    (hstopping : l.stopping = []) :
    (replayBootstraps index worker).Safe (discipline capacity) (Spawned l index worker) l := by
  refine safe_then.mpr ⟨⟨index, howned, hspawn⟩, ?_⟩
  intro bootstraps _
  have hafter : after (.cloneBootstraps worker) bootstraps l =
      l.own worker (some (index, .replaying (bootstraps.map Bootstrap.message))) := by
    simp [after, howned]
  rw [hafter]
  exact (safe_replayAll (owned_own _ _ _) hstopping).mono fun _ _ h => spawned_own h

theorem safe_spawnInitialized {index : ℕ} {l : Local} (hspawn : l.MaySpawn index)
    (hstopping : l.stopping = []) :
    (spawnInitialized index).Safe (discipline capacity)
      (fun result l' => match result with
        | .ok worker => l.owned worker = none ∧ l' = l.own worker (some (index, .replaying []))
        | .error _ => l.Extends l') l := by
  refine safe_then.mpr ⟨hspawn, ?_⟩
  intro answer hpossible
  cases answer with
  | none => exact .refl l
  | some worker =>
    have hnone : l.owned worker = none := hpossible worker rfl
    refine (safe_replayBootstraps (owned_own _ _ _) hspawn hstopping).mono ?_
    intro result l' h
    have hspawned := spawned_own h
    cases result with
    | ok worker' =>
      obtain ⟨rfl, hl'⟩ := hspawned
      exact ⟨hnone, hl'⟩
    | error error =>
      have hextends : (l.own worker none).Extends l' := hspawned
      rwa [own_self hnone] at hextends

end Spawn

section Recovery

/-- The thread holds no slot, is stopping no worker and has started none. -/
structure Local.Calm (l : Local) : Prop where
  slot : l.slot = none
  stopping : l.stopping = []
  owned : l.owned = fun _ => none

namespace Local

theorem Extends.calm {l l' : Local} (h : l.Extends l') (hcalm : l.Calm) : l'.Calm := by
  rw [h.eq]
  exact ⟨hcalm.slot, hcalm.stopping, hcalm.owned⟩

/-- The slot was held for a while. -/
theorem Extends.release {l l' : Local} {slot : Option (ℕ × Option WorkerId)}
    (hslot : l.slot = none) (h : ({ l with slot } : Local).Extends l') :
    l.Extends { l' with slot := none } := by
  refine ⟨?_, h.dead, h.seen⟩
  have heq := h.eq
  rw [heq]
  simp only [← hslot]

end Local

/-- The worker is seen in the slot where there is one. -/
structure Ensured (l : Local) (index : ℕ) (result : Except WorkerError WorkerId) (l' : Local) :
    Prop where
  extends_l : l.Extends l'
  seen : ∀ worker, result = .ok worker → (index, worker) ∈ l'.seen

theorem safe_replaced {failed index : ℕ} {current : Option WorkerId} {l : Local}
    (hseen : ∀ worker, current = some worker → (index, worker) ∈ l.seen) :
    (replaced failed current).Safe (discipline capacity) (fun other l' => l.Extends l' ∧
      (∀ worker, other = some worker → current = some worker) ∧
      (other = none → ∀ worker, current = some worker → worker = failed ∨ worker ∈ l'.dead)) l := by
  cases current with
  | none => exact ⟨.refl l, by simp, by simp⟩
  | some current =>
    dsimp only [replaced]
    split_ifs with hfailed
    · exact ⟨.refl l, by simp, by simp [hfailed]⟩
    · refine safe_then.mpr ⟨.inr (.inl ⟨index, hseen current rfl⟩), ?_⟩
      intro answer _
      cases answer with
      | true => exact ⟨.refl l, by simp, by simp⟩
      | false => exact ⟨l.extends_bury current, by simp, by simp [after, Local.bury]⟩

/-- The slot is released and nothing is put there. -/
theorem safe_release {α : Type} {index : ℕ} {result : α} {current : Option WorkerId}
    {Q : α → Local → Prop} {l : Local} (hslot : l.slot = some (index, current))
    (howned : l.owned = fun _ => none) (hQ : Q result { l with slot := none }) :
    (do
      perform (.unlockSlot index none)
      perform (.unlockRestart index)
      pure result : Action α).Safe (discipline capacity) Q l :=
  safe_then.mpr ⟨⟨⟨current, hslot⟩, howned⟩, fun _ _ => safe_then.mpr ⟨trivial, fun _ _ => hQ⟩⟩

theorem safe_restart {index : ℕ} {failed : WorkerId} {l : Local} (hcalm : l.Calm)
    (hseen : (index, failed) ∈ l.seen) (hmay : l.MayRestart index) :
    (restart index failed).Safe (discipline capacity) (Ensured l index) l := by
  refine safe_then.mpr ⟨trivial, fun _ _ => ?_⟩
  refine safe_then.mpr ⟨⟨hcalm.slot, hcalm.owned⟩, ?_⟩
  intro current _
  set held : Local := { l.see index current with slot := some (index, current) } with hheld
  have hextends : l.Extends (l.see index current) := l.extends_see index current
  have hcurrent : ∀ worker, current = some worker → (index, worker) ∈ held.seen := by
    intro worker hworker
    exact .inr ⟨rfl, hworker⟩
  refine (safe_replaced hcurrent).bind ?_
  intro other l₁ hother
  obtain ⟨hextends₁, hsome, hnone⟩ := hother
  have hslot₁ : l₁.slot = some (index, current) := by rw [hextends₁.eq]
  have howned₁ : l₁.owned = fun _ => none := by
    rw [hextends₁.eq]
    exact hcalm.owned
  have hstopping₁ : l₁.stopping = [] := by
    rw [hextends₁.eq]
    exact hcalm.stopping
  cases other with
  | some other =>
    refine safe_release hslot₁ howned₁ ⟨hextends.trans (hextends₁.release hcalm.slot), ?_⟩
    intro worker hworker
    obtain rfl := Except.ok.inj hworker
    exact hextends₁.seen (hcurrent _ (hsome _ rfl))
  | none =>
    have hseen₁ : (index, failed) ∈ l₁.seen := hextends₁.seen (hextends.seen hseen)
    refine (safe_shutdownWorker (.inr (.inl ⟨index, hseen₁⟩)) hstopping₁).bind ?_
    intro _ l₂ hl₂
    rw [own_self (congrFun howned₁ failed)] at hl₂
    subst hl₂
    have hextends₂ : held.Extends (l₁.bury failed) := hextends₁.trans (l₁.extends_bury failed)
    have hmay₂ : (l₁.bury failed).MayRestart index := hextends₂.mayRestart hmay
    have hdead : ∀ worker, current = some worker → worker ∈ (l₁.bury failed).dead :=
      fun worker hworker => hnone rfl worker hworker
    have hspawn : (l₁.bury failed).MaySpawn index :=
      .inr ⟨current, hslot₁, ⟨failed, hseen₁⟩, hdead, hmay₂⟩
    refine (safe_spawnInitialized hspawn hstopping₁).bind ?_
    intro result l₃ hresult
    cases result with
    | error source =>
      have hextends₃ : held.Extends l₃ := hextends₂.trans hresult
      have hslot₃ : l₃.slot = some (index, current) := by rw [hextends₃.eq]
      have howned₃ : l₃.owned = fun _ => none := by
        rw [hextends₃.eq]
        exact hcalm.owned
      exact safe_release hslot₃ howned₃ ⟨hextends.trans (hextends₃.release hcalm.slot), by simp⟩
    | ok replacement =>
      obtain ⟨hfresh, rfl⟩ := hresult
      have hothers : ∀ other, other ≠ replacement →
          ((l₁.bury failed).own replacement (some (index, .replaying []))).owned other = none := by
        intro other hother
        have hnone : (l₁.bury failed).owned other = none := congrFun howned₁ other
        simpa [Local.own, Function.update_of_ne hother] using hnone
      refine safe_then.mpr ⟨⟨⟨current, hslot₁, hdead⟩, owned_own _ _ _, hothers⟩, fun _ _ => ?_⟩
      refine safe_then.mpr ⟨trivial, fun _ _ => ?_⟩
      have hafter : ((l₁.bury failed).own replacement (some (index, .replaying []))).own
          replacement none = l₁.bury failed := by
        rw [own_own, own_self hfresh]
      have hsee : held.Extends ((l₁.bury failed).see index (some replacement)) :=
        hextends₂.trans (Local.extends_see _ _ _)
      have hl : after (.unlockSlot index (some replacement)) ()
          ((l₁.bury failed).own replacement (some (index, .replaying []))) =
            { (l₁.bury failed).see index (some replacement) with slot := none } := by
        simp only [after, hafter]
      refine ⟨?_, ?_⟩
      · show l.Extends (after (.unlockSlot index (some replacement)) () _)
        rw [hl]
        exact hextends.trans (hsee.release hcalm.slot)
      · intro worker hworker
        obtain rfl := Except.ok.inj hworker
        exact .inr ⟨rfl, rfl⟩

theorem safe_ensureRunning {index : ℕ} {l : Local} (hcalm : l.Calm) (hmay : l.MayRestart index) :
    (ensureRunning index).Safe (discipline capacity) (Ensured l index) l := by
  refine safe_then.mpr ⟨trivial, ?_⟩
  intro answer _
  have hextends := l.extends_see index answer
  cases answer with
  | none => exact ⟨hextends, by simp⟩
  | some worker =>
    have hseen := l.mem_seen_see index worker
    refine safe_then.mpr ⟨.inr (.inl ⟨index, hseen⟩), ?_⟩
    intro running _
    cases running with
    | true =>
      refine ⟨hextends, ?_⟩
      intro worker' hworker'
      obtain rfl := Except.ok.inj hworker'
      exact hseen
    | false =>
      have hextends' := hextends.trans (Local.extends_bury _ worker)
      refine (safe_restart (hextends'.calm hcalm) hseen (hextends'.mayRestart hmay)).mono ?_
      intro result l' h
      exact ⟨hextends'.trans h.extends_l, h.seen⟩

theorem safe_recoverIfNeeded {index : ℕ} {worker : WorkerId} {isOk : Bool} {l : Local}
    (hcalm : l.Calm) (hserving : l.growth = true → l.serving = true)
    (hseen : (index, worker) ∈ l.seen) (hmay : isOk = false → l.MayRestart index) :
    (recoverIfNeeded index worker isOk).Safe (discipline capacity)
      (fun _ l' => l.Extends l') l := by
  unfold recoverIfNeeded
  cases isOk with
  | true => exact .refl l
  | false =>
    refine safe_then.mpr ⟨.inr (.inl ⟨index, hseen⟩), ?_⟩
    intro running _
    cases running with
    | true => exact .refl l
    | false =>
      refine safe_then.mpr ⟨trivial, ?_⟩
      intro state _
      have hload : after .loadState state (l.bury worker) = l.bury worker := by
        cases hgrowth : l.growth with
        | false => simp [after, Local.bury, hgrowth]
        | true => simp [after, Local.bury, hserving hgrowth]
      have hextends := l.extends_bury worker
      show Safe _ (if state ≠ .running then _ else _) _ (after .loadState state (l.bury worker))
      rw [hload]
      split_ifs
      · exact hextends
      · refine safe_then.mpr ⟨trivial, ?_⟩
        intro answer _
        have hextends' := hextends.trans (Local.extends_see _ index answer)
        cases answer with
        | none => exact hextends'
        | some failed =>
          dsimp only
          split_ifs with hfailed
          · subst hfailed
            refine (safe_restart (hextends'.calm hcalm) (hextends'.seen hseen)
              (hextends'.mayRestart (hmay rfl))).bind ?_
            intro result l' h
            cases result with
            | ok _ => exact hextends'.trans h.extends_l
            | error _ => exact hextends'.trans h.extends_l
          · exact hextends'

end Recovery

end Mago.Extension
