import Mago.Extension.Ownership

/-!
# The lifecycle of a pool

One shutdown takes the pool out of its running state, and the state only moves on. Once the pool
is stopping it does not grow and nothing is recorded; where no worker is started for a slot that
the shutdown has looked at, no worker runs after it.
-/
namespace Mago.Extension
open Mago.Library

variable {capacity t : ℕ} {pool pool' : WorkerPool} {l l' : Local} {locals : ℕ → Local}

namespace PoolState

def rank : PoolState → ℕ
  | running => 0
  | finalizing => 1
  | stopping => 2
  | stopped => 3

/-- The pool may still grow and record. -/
def Serves (state : PoolState) : Prop := state = running ∨ state = finalizing

end PoolState

/-- What a thread has to do with the lifecycle. -/
structure Stance where
  growth : Bool
  serving : Bool
  finalizer : Bool
  halting : Bool
  looked : ℕ
  stopping : List WorkerId

def Local.stance (l : Local) : Stance :=
  ⟨l.growth, l.serving, l.finalizer, l.halting, l.looked, l.stopping⟩

/-- What a step of a thread does to the lifecycle. -/
inductive Turn (capacity t : ℕ) (command : Command) (pool pool' : WorkerPool) (s : Stance) :
    Stance → Prop
  | keep (hstate : pool'.state = pool.state) (hlooked : pool'.looked = pool.looked)
      (hstarted : pool'.started = pool.started) : Turn capacity t command pool pool' s s
  | check (hpool : pool' = pool) :
      Turn capacity t command pool pool' s { s with
        serving := s.serving || (s.growth && decide (pool.state = .running)) }
  | finalize (hrunning : pool.state = .running)
      (hpool : pool' = { pool with state := .finalizing }) :
      Turn capacity t command pool pool' s { s with finalizer := true }
  | stop (hfinalizer : s.finalizer = true) (hhalting : s.halting = false)
      (hgrowth : s.growth = true) (hserving : s.serving = false)
      (hpool : pool' = { pool with state := .stopping }) :
      Turn capacity t command pool pool' s
        { s with halting := true, looked := 0, stopping := [] }
  | close (hhalting : s.halting = true) (hdone : capacity ≤ s.looked) (hnone : s.stopping = [])
      (hpool : pool' = { pool with state := .stopped }) :
      Turn capacity t command pool pool' s
        { s with finalizer := false, halting := false, looked := 0 }
  | lock (hstate : pool'.state = pool.state) (hlooked : pool'.looked = pool.looked)
      (hstarted : pool'.started = pool.started) (hgrowth : s.growth = false) :
      Turn capacity t command pool pool' s { s with growth := true, serving := false }
  | unlock (hstate : pool'.state = pool.state) (hlooked : pool'.looked = pool.looked)
      (hstarted : pool'.started = pool.started) (hhalting : s.halting = false) :
      Turn capacity t command pool pool' s { s with growth := false, serving := false }
  | look (hhalting : s.halting = true) (hfree : pool.slotLock s.looked = none)
      (hpool : pool' = { pool with looked := Function.update pool.looked s.looked true }) :
      Turn capacity t command pool pool' s { s with
        looked := s.looked + 1, stopping := s.stopping ++ (pool.slots s.looked).toList }
  | finish (worker : WorkerId) (hpool : pool' = pool.setWorker worker Worker.finishShutdown) :
      Turn capacity t command pool pool' s { s with
        stopping := s.stopping.filter fun other => other ≠ worker }
  | spawn (index : ℕ) (hcommand : command = .spawn index) (hpool : pool' = { pool with
        workers := Function.update pool.workers pool.started ⟨index, .running, [], some t⟩
        started := pool.started + 1 }) :
      Turn capacity t command pool pool' s s

/-- A payload changes nothing but workers. -/
theorem workers_of_deliver {worker : WorkerId} {message : Message} {reply : Reply}
    (h : pool.deliver worker message reply = some pool') :
    ∃ workers, pool' = { pool with workers } := by
  cases reply with
  | ok response =>
    obtain ⟨-, hpool'⟩ := Option.ite_none_right_eq_some.mp h
    exact ⟨_, (Option.some.inj hpool').symm⟩
  | error processed crashed =>
    obtain ⟨-, hpool'⟩ := Option.ite_none_left_eq_some.mp h
    obtain rfl := Option.some.inj hpool'
    cases processed <;> cases crashed <;> exact ⟨_, rfl⟩

theorem workers_of_serve {worker : WorkerId} {reply : Reply}
    (h : pool.serve worker reply = some pool') : ∃ workers, pool' = { pool with workers } := by
  cases reply with
  | ok response =>
    obtain ⟨-, hpool'⟩ := Option.ite_none_right_eq_some.mp h
    exact ⟨_, (Option.some.inj hpool').symm⟩
  | error processed crashed =>
    obtain rfl := Option.some.inj h
    cases crashed <;> exact ⟨_, rfl⟩

theorem turn_of_exec {command : Command} {answer : command.Answer}
    (hallowed : allowed capacity command l) (hexec : exec t command answer pool = some pool') :
    Turn capacity t command pool pool' l.stance (after command answer l).stance := by
  cases command with
  | loadState =>
    obtain ⟨hanswer, hpool'⟩ := Option.ite_none_right_eq_some.mp hexec
    subst hanswer
    exact .check (Option.some.inj hpool').symm
  | finalize =>
    obtain ⟨hanswer, hpool'⟩ := Option.ite_none_right_eq_some.mp hexec
    obtain rfl := Option.some.inj hpool'
    cases answer with
    | false =>
      have hkeep : Turn capacity t .finalize pool pool l.stance l.stance := .keep rfl rfl rfl
      simpa [after, Local.stance] using hkeep
    | true =>
      have hfinalize :
          Turn capacity t .finalize pool { pool with state := .finalizing } l.stance _ :=
        .finalize (of_decide_eq_true hanswer.symm) rfl
      simpa [after, Local.stance] using hfinalize
  | storeState state =>
    obtain rfl := Option.some.inj hexec
    cases state with
    | running => exact hallowed.elim
    | finalizing => exact hallowed.elim
    | stopping =>
      obtain ⟨hfinalizer, hhalting, hgrowth, hserving, -⟩ := hallowed
      exact .stop hfinalizer hhalting hgrowth hserving rfl
    | stopped =>
      obtain ⟨-, -, hhalting, hdone, hnone⟩ := hallowed
      exact .close hhalting hdone hnone rfl
  | lockGrowth =>
    obtain ⟨-, hpool'⟩ := Option.ite_none_right_eq_some.mp hexec
    obtain rfl := Option.some.inj hpool'
    exact .lock rfl rfl rfl hallowed.1
  | tryLockGrowth =>
    obtain ⟨-, hpool'⟩ := Option.ite_none_right_eq_some.mp hexec
    obtain rfl := Option.some.inj hpool'
    cases answer with
    | false => exact .keep rfl rfl rfl
    | true => exact .lock rfl rfl rfl hallowed.1
  | unlockGrowth =>
    obtain rfl := Option.some.inj hexec
    exact .unlock rfl rfl rfl hallowed.2.2.1
  | lookSlot index =>
    obtain ⟨⟨hfree, rfl⟩, hpool'⟩ := Option.ite_none_right_eq_some.mp hexec
    obtain ⟨hhalting, rfl⟩ := hallowed
    exact .look hhalting hfree (Option.some.inj hpool').symm
  | finishShutdown worker => exact .finish worker (Option.some.inj hexec).symm
  | unlockSlot index replacement =>
    cases replacement with
    | none =>
      obtain rfl := Option.some.inj hexec
      exact .keep rfl rfl rfl
    | some worker =>
      obtain rfl := Option.some.inj hexec
      exact .keep rfl rfl rfl
  | spawn index =>
    cases answer with
    | none =>
      obtain rfl := Option.some.inj hexec
      exact .keep rfl rfl rfl
    | some worker =>
      obtain ⟨rfl, hpool'⟩ := Option.ite_none_right_eq_some.mp hexec
      exact .spawn index rfl (Option.some.inj hpool').symm
  | replay worker message =>
    obtain ⟨workers, rfl⟩ := workers_of_deliver hexec
    exact .keep rfl rfl rfl
  | send index worker message =>
    obtain ⟨workers, rfl⟩ := workers_of_deliver hexec
    exact .keep rfl rfl rfl
  | exchange worker payload =>
    obtain ⟨workers, rfl⟩ := workers_of_serve hexec
    exact .keep rfl rfl rfl
  | isRunning worker =>
    obtain ⟨-, hpool'⟩ := Option.ite_none_right_eq_some.mp hexec
    obtain rfl := Option.some.inj hpool'
    cases answer <;> exact .keep rfl rfl rfl
  | loadActive | lockRestart index | lockSlot index | readSlot index | storeSlot index worker
  | cloneBootstraps worker =>
    obtain ⟨-, hpool'⟩ := Option.ite_none_right_eq_some.mp hexec
    obtain rfl := Option.some.inj hpool'
    exact .keep rfl rfl rfl
  | storeActive n | unlockRestart index | beginShutdown worker | record group replacements
  | choose | pick | beginBroadcast group payloads | takeWorker worker | endBroadcast ok =>
    obtain rfl := Option.some.inj hexec
    exact .keep rfl rfl rfl

/-- Growth and records need the pool to serve. -/
theorem frozen_of_exec (h : Agrees t pool l) {command : Command} {answer : command.Answer}
    (hallowed : allowed capacity command l) (hexec : exec t command answer pool = some pool') :
    l.serving = true ∨ pool'.activeWorkers = pool.activeWorkers ∧
      pool'.bootstraps = pool.bootstraps ∧
        ∀ index, pool'.slots index ≠ none → pool.slots index ≠ none := by
  cases command with
  | storeActive n => exact .inl hallowed.2.1
  | storeSlot index worker => exact .inl hallowed.2.1
  | record group replacements =>
    obtain ⟨broadcast, -, -, -, hserving, -⟩ := hallowed
    exact .inl hserving
  | unlockSlot index replacement =>
    refine .inr ?_
    cases replacement with
    | none =>
      obtain rfl := Option.some.inj hexec
      exact ⟨rfl, rfl, fun _ h => h⟩
    | some worker =>
      obtain rfl := Option.some.inj hexec
      obtain ⟨⟨current, hslot, -⟩, howned, -⟩ := hallowed
      refine ⟨rfl, rfl, ?_⟩
      intro index' hfilled
      by_cases hindex : index' = index
      · subst hindex
        obtain ⟨-, -, -, hstarts⟩ := h.owned worker index' _ howned
        rcases hstarts with ⟨-, occupant, hoccupant, -⟩ | ⟨hnone, -⟩
        · simp [hoccupant]
        · rw [hslot] at hnone
          cases hnone
      · simpa [Function.update_of_ne hindex] using hfilled
  | finalize =>
    obtain ⟨-, hpool'⟩ := Option.ite_none_right_eq_some.mp hexec
    obtain rfl := Option.some.inj hpool'
    cases answer <;> exact .inr ⟨rfl, rfl, fun _ h => h⟩
  | tryLockGrowth =>
    obtain ⟨-, hpool'⟩ := Option.ite_none_right_eq_some.mp hexec
    obtain rfl := Option.some.inj hpool'
    cases answer <;> exact .inr ⟨rfl, rfl, fun _ h => h⟩
  | spawn index =>
    cases answer with
    | none =>
      obtain rfl := Option.some.inj hexec
      exact .inr ⟨rfl, rfl, fun _ h => h⟩
    | some worker =>
      obtain ⟨-, hpool'⟩ := Option.ite_none_right_eq_some.mp hexec
      obtain rfl := Option.some.inj hpool'
      exact .inr ⟨rfl, rfl, fun _ h => h⟩
  | replay worker message =>
    obtain ⟨workers, rfl⟩ := workers_of_deliver hexec
    exact .inr ⟨rfl, rfl, fun _ h => h⟩
  | send index worker message =>
    obtain ⟨workers, rfl⟩ := workers_of_deliver hexec
    exact .inr ⟨rfl, rfl, fun _ h => h⟩
  | exchange worker payload =>
    obtain ⟨workers, rfl⟩ := workers_of_serve hexec
    exact .inr ⟨rfl, rfl, fun _ h => h⟩
  | loadState | loadActive | lockGrowth | lockRestart index | lockSlot index | readSlot index
  | lookSlot index | isRunning worker | cloneBootstraps worker =>
    obtain ⟨-, hpool'⟩ := Option.ite_none_right_eq_some.mp hexec
    obtain rfl := Option.some.inj hpool'
    exact .inr ⟨rfl, rfl, fun _ h => h⟩
  | storeState state | unlockGrowth | unlockRestart index | beginShutdown worker
  | finishShutdown worker | choose | pick | beginBroadcast group payloads | takeWorker worker
  | endBroadcast ok =>
    obtain rfl := Option.some.inj hexec
    exact .inr ⟨rfl, rfl, fun _ h => h⟩

/-! ## Phases -/

/-- One thread at most finalises the pool, and the phases of threads fit the state. -/
structure Phased (capacity : ℕ) (pool : WorkerPool) (s : ℕ → Stance) : Prop where
  serving : ∀ t, (s t).serving = true → (s t).growth = true ∧ pool.state.Serves
  finalizing : ∀ t, (s t).finalizer = true → (s t).halting = false → pool.state = .finalizing
  unique : ∀ t t', (s t).finalizer = true → (s t').finalizer = true → t = t'
  halting : ∀ t, (s t).halting = true →
    (s t).finalizer = true ∧ (s t).growth = true ∧ pool.state = .stopping
  early : pool.state.Serves → ∀ index, pool.looked index = false
  half : ∀ t, (s t).halting = true → ∀ index, pool.looked index = true ↔ index < (s t).looked
  late : pool.state = .stopped → ∀ index < capacity, pool.looked index = true

/-- Workers that run during a shutdown are still to be looked at or to be stopped. -/
structure Doomed (pool : WorkerPool) (s : ℕ → Stance) : Prop where
  halting : ∀ t, (s t).halting = true → ∀ worker, pool.IsRunning worker →
    pool.looked (pool.workers worker).id = false ∨ worker ∈ (s t).stopping
  stopped : pool.state = .stopped → ∀ worker, ¬ pool.IsRunning worker

section Turns

variable {command : Command} {s s' : ℕ → Stance} {stance : Stance}

/-- What the thread does not touch is the same for all. -/
theorem proj_eq {β : Type} (f : Stance → β) (hothers : ∀ t', t' ≠ t → s' t' = s t')
    (h : f (s' t) = f (s t)) (t' : ℕ) : f (s' t') = f (s t') := by
  by_cases ht : t' = t
  · rw [ht, h]
  · rw [hothers t' ht]

theorem Phased.of_eq (h : Phased capacity pool s) (hstate : pool'.state = pool.state)
    (hlooked : pool'.looked = pool.looked) (hfinalizer : ∀ t, (s' t).finalizer = (s t).finalizer)
    (hhalting : ∀ t, (s' t).halting = (s t).halting)
    (hindex : ∀ t, (s' t).looked = (s t).looked)
    (hserving : ∀ t, (s' t).serving = true → (s' t).growth = true ∧ pool.state.Serves)
    (hgrowth : ∀ t, (s t).halting = true → (s' t).growth = true) : Phased capacity pool' s' where
  serving := by
    rw [hstate]
    exact hserving
  finalizing := by
    intro t
    rw [hstate, hfinalizer, hhalting]
    exact h.finalizing t
  unique := by
    intro t t'
    rw [hfinalizer, hfinalizer]
    exact h.unique t t'
  halting := by
    intro t
    rw [hstate, hfinalizer, hhalting]
    intro hhalting
    obtain ⟨hfinalizer, -, hstopping⟩ := h.halting t hhalting
    exact ⟨hfinalizer, hgrowth t hhalting, hstopping⟩
  early := by
    rw [hstate, hlooked]
    exact h.early
  half := by
    intro t
    rw [hlooked, hhalting, hindex]
    exact h.half t
  late := by
    rw [hstate, hlooked]
    exact h.late

theorem Phased.turn (h : Phased capacity pool s)
    (hgrowth : ∀ t t', (s t).growth = true → (s t').growth = true → t = t')
    (hothers : ∀ t', t' ≠ t → s' t' = s t')
    (hturn : Turn capacity t command pool pool' (s t) (s' t)) : Phased capacity pool' s' := by
  have hkeep : ∀ t', (s t').halting = true → (s t').growth = true := fun t' hhalting =>
    (h.halting t' hhalting).2.1
  generalize hself : s' t = stance at hturn
  cases hturn with
  | keep hstate hlooked hstarted =>
    have hsame : ∀ t', s' t' = s t' := proj_eq id hothers hself
    exact h.of_eq hstate hlooked (fun t' => by rw [hsame]) (fun t' => by rw [hsame])
      (fun t' => by rw [hsame]) (fun t' => by rw [hsame]; exact h.serving t')
      (fun t' => by rw [hsame]; exact hkeep t')
  | spawn index hcommand hpool =>
    subst hpool
    have hsame : ∀ t', s' t' = s t' := proj_eq id hothers hself
    exact h.of_eq rfl rfl (fun t' => by rw [hsame]) (fun t' => by rw [hsame])
      (fun t' => by rw [hsame]) (fun t' => by rw [hsame]; exact h.serving t')
      (fun t' => by rw [hsame]; exact hkeep t')
  | check hpool =>
    subst hpool
    have hheld := proj_eq Stance.growth hothers (by rw [hself])
    refine h.of_eq rfl rfl (proj_eq Stance.finalizer hothers (by rw [hself]))
      (proj_eq Stance.halting hothers (by rw [hself]))
      (proj_eq Stance.looked hothers (by rw [hself])) ?_ ?_
    · intro t' hserving
      rw [hheld]
      by_cases ht : t' = t
      · subst ht
        rw [hself] at hserving
        rcases (Bool.or_eq_true _ _).mp hserving with hold | hnew
        · exact h.serving t' hold
        · obtain ⟨hgrowth, hrunning⟩ := (Bool.and_eq_true _ _).mp hnew
          exact ⟨hgrowth, .inl (of_decide_eq_true hrunning)⟩
      · rw [hothers t' ht] at hserving
        exact h.serving t' hserving
    · intro t' hhalting
      rw [hheld]
      exact hkeep t' hhalting
  | finalize hrunning hpool =>
    subst hpool
    have hnone : ∀ t', ¬ (s t').finalizer = true := by
      intro t' hfinalizer
      cases hhalting : (s t').halting with
      | false =>
        have hstate := h.finalizing t' hfinalizer hhalting
        rw [hrunning] at hstate
        cases hstate
      | true =>
        have hstate := (h.halting t' hhalting).2.2
        rw [hrunning] at hstate
        cases hstate
    have hcalm : ∀ t', ¬ (s' t').halting = true := by
      intro t' hhalting
      rw [proj_eq Stance.halting hothers (by rw [hself]) t'] at hhalting
      exact hnone t' (h.halting t' hhalting).1
    have honly : ∀ t', (s' t').finalizer = true → t' = t := by
      intro t' hfinalizer
      by_contra ht
      rw [hothers t' ht] at hfinalizer
      exact hnone t' hfinalizer
    refine ⟨?_, fun _ _ _ => rfl, ?_, fun t' h' => absurd h' (hcalm t'),
      fun _ => h.early (.inl hrunning), fun t' h' => absurd h' (hcalm t'), fun h' => by cases h'⟩
    · intro t'
      rw [proj_eq Stance.serving hothers (by rw [hself]) t',
        proj_eq Stance.growth hothers (by rw [hself]) t']
      exact fun hserving => ⟨(h.serving t' hserving).1, .inr rfl⟩
    · intro t' t'' h' h''
      rw [honly t' h', honly t'' h'']
  | stop hfinalizer hhalting hheld hserving hpool =>
    subst hpool
    have hfinal : pool.state = .finalizing := h.finalizing t hfinalizer hhalting
    have hstill := proj_eq Stance.finalizer hothers (by rw [hself])
    have honly : ∀ t', (s t').finalizer = true → t' = t := fun t' h' => h.unique t' t h' hfinalizer
    have hhalt : ∀ t', (s' t').halting = true → t' = t := by
      intro t' hhalting'
      by_contra ht
      rw [hothers t' ht] at hhalting'
      exact ht (honly t' (h.halting t' hhalting').1)
    refine ⟨?_, ?_, ?_, ?_, ?_, ?_, fun hstate => by cases hstate⟩
    · intro t' hserving'
      rw [proj_eq Stance.serving hothers (by rw [hself]) t'] at hserving'
      obtain rfl := hgrowth t' t (h.serving t' hserving').1 hheld
      rw [hserving'] at hserving
      cases hserving
    · intro t' hfinalizer' hhalting'
      rw [hstill] at hfinalizer'
      rw [honly t' hfinalizer', hself] at hhalting'
      cases hhalting'
    · intro t' t''
      rw [hstill, hstill]
      exact h.unique t' t''
    · intro t' hhalting'
      rw [hhalt t' hhalting', hself]
      exact ⟨hfinalizer, hheld, rfl⟩
    · intro hserves
      rcases hserves with hserves | hserves <;> cases hserves
    · intro t' hhalting' index
      rw [hhalt t' hhalting', hself]
      simp [h.early (.inr hfinal) index]
  | close hhalting hdone hnone hpool =>
    subst hpool
    have honly : ∀ t', (s t').finalizer = true → t' = t := fun t' h' =>
      h.unique t' t h' (h.halting t hhalting).1
    have hfinalizer : ∀ t', ¬ (s' t').finalizer = true := by
      intro t' h'
      by_cases ht : t' = t
      · rw [ht, hself] at h'
        cases h'
      · rw [hothers t' ht] at h'
        exact ht (honly t' h')
    have hcalm : ∀ t', ¬ (s' t').halting = true := by
      intro t' h'
      by_cases ht : t' = t
      · rw [ht, hself] at h'
        cases h'
      · rw [hothers t' ht] at h'
        exact ht (honly t' (h.halting t' h').1)
    refine ⟨?_, fun t' h' => absurd h' (hfinalizer t'), fun t' _ h' => absurd h' (hfinalizer t'),
      fun t' h' => absurd h' (hcalm t'), ?_, fun t' h' => absurd h' (hcalm t'), ?_⟩
    · intro t' hserving
      rw [proj_eq Stance.serving hothers (by rw [hself]) t'] at hserving
      have hserves := (h.serving t' hserving).2
      rw [(h.halting t hhalting).2.2] at hserves
      rcases hserves with hserves | hserves <;> cases hserves
    · intro hserves
      rcases hserves with hserves | hserves <;> cases hserves
    · intro _ index hindex
      exact (h.half t hhalting index).mpr (hindex.trans_le hdone)
  | lock hstate hlooked hstarted hfree =>
    refine h.of_eq hstate hlooked (proj_eq Stance.finalizer hothers (by rw [hself]))
      (proj_eq Stance.halting hothers (by rw [hself]))
      (proj_eq Stance.looked hothers (by rw [hself])) ?_ ?_
    · intro t' hserving
      by_cases ht : t' = t
      · rw [ht, hself] at hserving
        cases hserving
      · rw [hothers t' ht] at hserving ⊢
        exact h.serving t' hserving
    · intro t' hhalting
      by_cases ht : t' = t
      · rw [ht, hself]
      · rw [hothers t' ht]
        exact hkeep t' hhalting
  | unlock hstate hlooked hstarted hhalting =>
    refine h.of_eq hstate hlooked (proj_eq Stance.finalizer hothers (by rw [hself]))
      (proj_eq Stance.halting hothers (by rw [hself]))
      (proj_eq Stance.looked hothers (by rw [hself])) ?_ ?_
    · intro t' hserving
      by_cases ht : t' = t
      · rw [ht, hself] at hserving
        cases hserving
      · rw [hothers t' ht] at hserving ⊢
        exact h.serving t' hserving
    · intro t' hhalting'
      have ht : t' ≠ t := by
        rintro rfl
        rw [hhalting'] at hhalting
        cases hhalting
      rw [hothers t' ht]
      exact hkeep t' hhalting'
  | look hhalting hfree hpool =>
    subst hpool
    obtain ⟨hfinalizer, -, hstopping⟩ := h.halting t hhalting
    have hstill := proj_eq Stance.halting hothers (by rw [hself])
    have hsame := proj_eq Stance.finalizer hothers (by rw [hself])
    have hheld := proj_eq Stance.growth hothers (by rw [hself])
    refine ⟨?_, ?_, ?_, ?_, ?_, ?_, ?_⟩
    · intro t'
      rw [proj_eq Stance.serving hothers (by rw [hself]) t', hheld]
      exact h.serving t'
    · intro t'
      rw [hsame, hstill]
      exact h.finalizing t'
    · intro t' t''
      rw [hsame, hsame]
      exact h.unique t' t''
    · intro t'
      rw [hstill, hsame, hheld]
      exact h.halting t'
    · intro hserves
      have hserves' : pool.state.Serves := hserves
      rw [hstopping] at hserves'
      rcases hserves' with hserves' | hserves' <;> cases hserves'
    · intro t' hhalting' index
      rw [hstill] at hhalting'
      obtain rfl := h.unique t' t (h.halting t' hhalting').1 hfinalizer
      rw [hself]
      have hhalf := h.half t' hhalting index
      by_cases hindex : index = (s t').looked
      · subst hindex
        simp
      · show Function.update pool.looked _ true index = true ↔ index < (s t').looked + 1
        rw [Function.update_of_ne hindex, hhalf]
        omega
    · intro hstopped
      have hstopped' : pool.state = .stopped := hstopped
      rw [hstopping] at hstopped'
      cases hstopped'
  | finish worker hpool =>
    subst hpool
    have hheld := proj_eq Stance.growth hothers (by rw [hself])
    refine h.of_eq rfl rfl (proj_eq Stance.finalizer hothers (by rw [hself]))
      (proj_eq Stance.halting hothers (by rw [hself]))
      (proj_eq Stance.looked hothers (by rw [hself])) ?_ ?_
    · intro t'
      rw [proj_eq Stance.serving hothers (by rw [hself]) t', hheld]
      exact h.serving t'
    · intro t' hhalting
      rw [hheld]
      exact hkeep t' hhalting

/-- A worker that runs after a step ran before, or the step has started it. -/
theorem running_of_turn (hplaced : Settled capacity pool') (hframe : Framed t pool pool')
    {stance stance' : Stance} (hturn : Turn capacity t command pool pool' stance stance')
    {worker : WorkerId} (hrunning : pool'.IsRunning worker) :
    pool.IsRunning worker ∧ (pool'.workers worker).id = (pool.workers worker).id ∨
      ∃ index, command = .spawn index ∧ (pool'.workers worker).id = index := by
  have hlt' := (hplaced.running worker hrunning).1
  by_cases hlt : worker < pool.started
  · exact .inl ⟨hframe.dead worker hlt hrunning, hframe.id worker hlt⟩
  · cases hturn with
    | keep hstate hlooked hstarted => exact absurd (hstarted ▸ hlt') hlt
    | lock hstate hlooked hstarted hfree => exact absurd (hstarted ▸ hlt') hlt
    | unlock hstate hlooked hstarted hhalting => exact absurd (hstarted ▸ hlt') hlt
    | check hpool | finalize hrunning hpool | stop hfinalizer hhalting hheld hserving hpool
    | close hhalting hdone hnone hpool | look hhalting hfree hpool | finish worker hpool =>
      subst hpool
      exact absurd hlt' hlt
    | spawn index hcommand hpool =>
      subst hpool
      obtain rfl : worker = pool.started :=
        Nat.le_antisymm (Nat.lt_succ_iff.mp hlt') (not_lt.mp hlt)
      exact .inr ⟨index, hcommand, by simp⟩

end Turns

section Doom

variable {command : Command} {s' : ℕ → Stance}

theorem Ownership.starts_lt (h : Ownership capacity pool locals) {index : ℕ}
    (hserving : (locals t).serving = false) (hstarts : Starts pool (locals t) index) :
    index < capacity := by
  rcases hstarts with ⟨-, worker, hworker, -⟩ | ⟨-, -, htrue, -⟩
  · exact h.placed.slots_lt index (by simp [hworker])
  · rw [hserving] at htrue
    cases htrue

theorem Ownership.id_lt (h : Ownership capacity pool locals)
    (hserving : ∀ t, (locals t).serving = false) {worker : WorkerId}
    (hrunning : pool.IsRunning worker) : (pool.workers worker).id < capacity := by
  cases howner : (pool.workers worker).owner with
  | none =>
    have hslot := (h.placed.running worker hrunning).2 howner
    exact h.placed.slots_lt _ (by simp [hslot])
  | some t =>
    obtain ⟨entry, howned⟩ :=
      Option.isSome_iff_exists.mp ((h.agrees t).owner worker howner hrunning)
    obtain ⟨-, -, hid, hstarts⟩ := (h.agrees t).owned worker entry.1 entry.2 howned
    rw [hid]
    exact h.starts_lt (hserving t) hstarts

/-- What runs for a slot that nobody holds is in the slot. -/
theorem Ownership.in_slot (h : Ownership capacity pool locals)
    (hserving : ∀ t, (locals t).serving = false) {worker : WorkerId}
    (hrunning : pool.IsRunning worker) (hfree : pool.slotLock (pool.workers worker).id = none) :
    pool.slots (pool.workers worker).id = some worker := by
  cases howner : (pool.workers worker).owner with
  | none => exact (h.placed.running worker hrunning).2 howner
  | some t =>
    obtain ⟨entry, howned⟩ :=
      Option.isSome_iff_exists.mp ((h.agrees t).owner worker howner hrunning)
    obtain ⟨-, -, hid, hstarts⟩ := (h.agrees t).owned worker entry.1 entry.2 howned
    rcases hstarts with ⟨hslot, -⟩ | ⟨-, -, htrue, -⟩
    · have hlock := ((h.agrees t).slot entry.1).mpr hslot
      rw [← hid, hfree] at hlock
      cases hlock
    · rw [hserving t] at htrue
      cases htrue

theorem Phased.not_serving (h : Phased capacity pool fun t => (locals t).stance)
    (hstate : ¬ pool.state.Serves) (t : ℕ) : (locals t).serving = false := by
  rw [Bool.eq_false_iff]
  exact fun hserving => hstate (h.serving t hserving).2

theorem not_serves_stopping (h : pool.state = .stopping) : ¬ pool.state.Serves := by
  rw [h]
  rintro (h | h) <;> cases h

theorem not_serves_stopped (h : pool.state = .stopped) : ¬ pool.state.Serves := by
  rw [h]
  rintro (h | h) <;> cases h

theorem Doomed.turn (h : Doomed pool fun t => (locals t).stance)
    (hI : Ownership capacity pool locals)
    (hphased : Phased capacity pool fun t => (locals t).stance)
    (hplaced : Settled capacity pool') (hframe : Framed t pool pool')
    (hguard : ∀ index, command = .spawn index → pool.looked index = false)
    (hspawn : ∀ index, command = .spawn index → Starts pool (locals t) index)
    (hothers : ∀ t', t' ≠ t → s' t' = (locals t').stance)
    (hturn : Turn capacity t command pool pool' (locals t).stance (s' t)) : Doomed pool' s' := by
  have hborn : ∀ worker, pool'.IsRunning worker →
      pool.IsRunning worker ∧ (pool'.workers worker).id = (pool.workers worker).id ∨
        ∃ index, command = .spawn index ∧ (pool'.workers worker).id = index :=
    fun worker => running_of_turn hplaced hframe hturn
  -- The thread that shuts the pool down goes on with the workers that are left to it.
  have hrest : ∀ t', (s' t').halting = (locals t').halting →
      (s' t').stopping = (locals t').stopping → pool'.looked = pool.looked →
      (s' t').halting = true → ∀ worker, pool'.IsRunning worker →
        pool'.looked (pool'.workers worker).id = false ∨ worker ∈ (s' t').stopping := by
    intro t' hhalt hstop hlooked hhalting worker hrunning
    rw [hlooked, hstop]
    rw [hhalt] at hhalting
    rcases hborn worker hrunning with ⟨hold, hid⟩ | ⟨index, hcommand, hid⟩
    · rw [hid]
      exact h.halting t' hhalting worker hold
    · rw [hid]
      exact .inl (hguard index hcommand)
  have hdone : pool'.state = pool.state → pool'.state = .stopped →
      ∀ worker, ¬ pool'.IsRunning worker := by
    intro hsame hstate worker hrunning
    rw [hsame] at hstate
    rcases hborn worker hrunning with ⟨hold, -⟩ | ⟨index, hcommand, -⟩
    · exact h.stopped hstate worker hold
    · have hserving := hphased.not_serving (not_serves_stopped hstate) t
      have hlooked := hphased.late hstate index (hI.starts_lt hserving (hspawn index hcommand))
      rw [hguard index hcommand] at hlooked
      cases hlooked
  generalize hself : s' t = stance at hturn
  cases hturn with
  | keep hstate hlooked hstarted =>
    have hsame : ∀ t', s' t' = (locals t').stance := proj_eq id hothers hself
    refine ⟨fun t' => hrest t' ?_ ?_ hlooked, hdone hstate⟩ <;> rw [hsame] <;> rfl
  | spawn index hcommand hpool =>
    subst hpool
    have hsame : ∀ t', s' t' = (locals t').stance := proj_eq id hothers hself
    refine ⟨fun t' => hrest t' ?_ ?_ rfl, hdone rfl⟩ <;> rw [hsame] <;> rfl
  | check hpool =>
    subst hpool
    have hhalt := proj_eq Stance.halting hothers (by rw [hself])
    have hstop := proj_eq Stance.stopping hothers (by rw [hself])
    exact ⟨fun t' => hrest t' (hhalt t') (hstop t') rfl, hdone rfl⟩
  | finalize hrunning hpool =>
    subst hpool
    have hhalt := proj_eq Stance.halting hothers (by rw [hself])
    have hstop := proj_eq Stance.stopping hothers (by rw [hself])
    exact ⟨fun t' => hrest t' (hhalt t') (hstop t') rfl, fun hstate => by cases hstate⟩
  | stop hfinalizer hhalting hheld hserving hpool =>
    subst hpool
    refine ⟨?_, fun hstate => by cases hstate⟩
    intro t' _ worker _
    exact .inl (hphased.early (.inr (hphased.finalizing t hfinalizer hhalting)) _)
  | close hhalting hlast hnone hpool =>
    subst hpool
    have hstate := (hphased.halting t hhalting).2.2
    have hserving := hphased.not_serving (not_serves_stopping hstate)
    have hdead : ∀ worker, ¬ pool.IsRunning worker := by
      intro worker hrunning
      have hlooked := (hphased.half t hhalting (pool.workers worker).id).mpr
        ((hI.id_lt hserving hrunning).trans_le hlast)
      rcases h.halting t hhalting worker hrunning with hnew | hleft
      · rw [hlooked] at hnew
        cases hnew
      · rw [hnone] at hleft
        cases hleft
    refine ⟨?_, fun _ => hdead⟩
    intro t' _ worker hrunning
    exact absurd hrunning (hdead worker)
  | lock hstate hlooked hstarted hfree =>
    have hhalt := proj_eq Stance.halting hothers (by rw [hself])
    have hstop := proj_eq Stance.stopping hothers (by rw [hself])
    exact ⟨fun t' => hrest t' (hhalt t') (hstop t') hlooked, hdone hstate⟩
  | unlock hstate hlooked hstarted hhalting =>
    have hhalt := proj_eq Stance.halting hothers (by rw [hself])
    have hstop := proj_eq Stance.stopping hothers (by rw [hself])
    exact ⟨fun t' => hrest t' (hhalt t') (hstop t') hlooked, hdone hstate⟩
  | look hhalting hfree hpool =>
    subst hpool
    obtain ⟨hfinalizer, -, hstate⟩ := hphased.halting t hhalting
    have hserving := hphased.not_serving (not_serves_stopping hstate)
    refine ⟨?_, hdone rfl⟩
    intro t' hhalting' worker hrunning
    rw [proj_eq Stance.halting hothers (by rw [hself]) t'] at hhalting'
    obtain rfl := hphased.unique t' t (hphased.halting t' hhalting').1 hfinalizer
    rw [hself]
    by_cases hid : (pool.workers worker).id = (locals t').looked
    · have hslot := hI.in_slot hserving hrunning (hid ▸ hfree)
      rw [hid] at hslot
      refine .inr (List.mem_append_right _ ?_)
      show worker ∈ (pool.slots (locals t').looked).toList
      simp [hslot]
    · rcases h.halting t' hhalting worker hrunning with hnew | hleft
      · refine .inl ?_
        rw [← hnew]
        exact Function.update_of_ne hid _ _
      · exact .inr (List.mem_append_left _ hleft)
  | finish other hpool =>
    subst hpool
    have hhalt := proj_eq Stance.halting hothers (by rw [hself])
    refine ⟨?_, hdone rfl⟩
    intro t' hhalting worker hrunning
    rw [hhalt] at hhalting
    have hold := (Quiet.finishShutdown pool other).running worker hrunning
    have hne : worker ≠ other := by
      rintro rfl
      simp [WorkerPool.IsRunning, WorkerPool.setWorker, Worker.finishShutdown] at hrunning
    rw [(Quiet.finishShutdown pool other).id worker]
    rcases h.halting t' hhalting worker hold with hnew | hleft
    · exact .inl hnew
    · refine .inr ?_
      by_cases ht : t' = t
      · subst ht
        rw [hself]
        exact List.mem_filter.mpr ⟨hleft, by simpa using hne⟩
      · rwa [hothers t' ht]

end Doom

/-! ## Runs -/

section Runs

variable {maximumPayloadSize initialWorkers : ℕ} {guard : ℕ → Command → WorkerPool → Prop}
  {config config' : Config Command Command.Answer WorkerPool}

/-- The pool with what threads know of it and have to do with its lifecycle. -/
structure Living (capacity : ℕ) (pool : WorkerPool) (locals : ℕ → Local) : Prop where
  owned : Ownership capacity pool locals
  phased : Phased capacity pool fun t => (locals t).stance

theorem stance_update_of_ne {t' : ℕ} (h : t' ≠ t) :
    (Function.update locals t l t').stance = (locals t').stance := by
  rw [Function.update_of_ne h]

theorem Turn.rank_le {command : Command} {s : ℕ → Stance} {stance : Stance}
    (h : Phased capacity pool s) (hturn : Turn capacity t command pool pool' (s t) stance) :
    pool.state.rank ≤ pool'.state.rank := by
  cases hturn with
  | keep hstate | lock hstate | unlock hstate => rw [hstate]
  | check hpool | look hhalting hfree hpool | finish worker hpool
  | spawn index hcommand hpool => exact hpool ▸ le_rfl
  | finalize hrunning hpool =>
    rw [hpool, hrunning]
    exact Nat.zero_le _
  | stop hfinalizer hhalting hheld hserving hpool =>
    rw [hpool, h.finalizing t hfinalizer hhalting]
    exact Nat.le_succ _
  | close hhalting hdone hnone hpool =>
    rw [hpool, (h.halting t hhalting).2.2]
    exact Nat.le_succ _

namespace Living

theorem spawn (hpos : 0 < initialWorkers) (hle : initialWorkers ≤ capacity) :
    Living capacity (.spawn initialWorkers) fun _ => .idle := by
  refine ⟨⟨.spawn hpos hle, fun _ => .idle⟩, ?_⟩
  refine ⟨?_, ?_, ?_, ?_, fun _ _ => rfl, ?_, fun h => by cases h⟩
  · exact fun _ h => by cases h
  · exact fun _ h => by cases h
  · exact fun _ _ h => by cases h
  · exact fun _ h => by cases h
  · exact fun _ h => by cases h

theorem quiet (h : Living capacity pool locals) (hquiet : Quiet pool pool')
    (hstate : pool'.state = pool.state) (hlooked : pool'.looked = pool.looked) :
    Living capacity pool' locals where
  owned := h.owned.quiet hquiet
  phased := h.phased.of_eq hstate hlooked (fun _ => rfl) (fun _ => rfl) (fun _ => rfl)
    h.phased.serving fun t hhalting => (h.phased.halting t hhalting).2.1

theorem act (h : Living capacity pool locals) {command : Command} {answer : command.Answer}
    (hallowed : allowed capacity command (locals t))
    (hexec : exec t command answer pool = some pool') :
    Living capacity pool' (Function.update locals t (after command answer (locals t))) := by
  have howned := (h.owned.act hallowed hexec).2.2
  have hturn := turn_of_exec hallowed hexec
  have halone : ∀ t' t'', (locals t').stance.growth = true →
      (locals t'').stance.growth = true → t' = t'' := by
    intro t' t'' h' h''
    have hheld := ((h.owned.agrees t').growth.mp h').symm.trans ((h.owned.agrees t'').growth.mp h'')
    exact Option.some.inj hheld
  rw [← Function.update_self t (after command answer (locals t)) locals] at hturn
  exact ⟨howned, h.phased.turn halone (fun t' => stance_update_of_ne) hturn⟩

end Living

/-- Every thread is disciplined, and no step has been against the lifecycle. -/
def Lives (capacity : ℕ) (config : Config Command Command.Answer WorkerPool) : Prop :=
  System.Invariant (discipline capacity) Local.Free (Living capacity) config

theorem Crash.state (h : Crash pool pool') : pool'.state = pool.state ∧
    pool'.looked = pool.looked ∧ pool'.bootstraps = pool.bootstraps := by
  obtain ⟨worker, rfl⟩ := h
  exact ⟨rfl, rfl, rfl⟩

theorem lives_of_run (hpos : 0 < initialWorkers) (hle : initialWorkers ≤ capacity)
    (hrun : (poolSystem capacity maximumPayloadSize).Run guard (poolStart initialWorkers) config) :
    Lives capacity config := by
  refine hrun.invariant (I := Living capacity) ?_ ?_ ?_
    ⟨fun _ => .idle, .spawn hpos hle, fun _ => Local.free_idle⟩
  · intro p hp
    exact Operation.safe hp
  · intro t command answer pool pool' locals hI hallowed _ hexec
    exact ⟨(hI.owned.act hallowed hexec).1, hI.act hallowed hexec⟩
  · intro pool pool' locals hI hcrash
    obtain ⟨hstate, hlooked, -⟩ := hcrash.state
    exact hI.quiet hcrash.quiet hstate hlooked

/-- The pool is the one that the run starts from, or it has moved on. -/
structure Later (base pool : WorkerPool) : Prop where
  rank : base.state.rank ≤ pool.state.rank
  activeWorkers : ¬ base.state.Serves → pool.activeWorkers = base.activeWorkers
  bootstraps : ¬ base.state.Serves → pool.bootstraps = base.bootstraps
  slots : ¬ base.state.Serves → ∀ index, pool.slots index ≠ none ↔ base.slots index ≠ none

theorem serves_iff (state : PoolState) : state.Serves ↔ state.rank ≤ 1 := by
  cases state <;> simp [PoolState.Serves, PoolState.rank]

theorem Later.act {base : WorkerPool} (h : Later base pool) (hI : Living capacity pool locals)
    {command : Command} {answer : command.Answer} (hallowed : allowed capacity command (locals t))
    (hexec : exec t command answer pool = some pool') : Later base pool' := by
  have hrank := h.rank.trans (Turn.rank_le hI.phased (turn_of_exec hallowed hexec))
  have hframe := (hI.owned.act hallowed hexec).2.1
  have hfrozen : ¬ base.state.Serves → pool'.activeWorkers = pool.activeWorkers ∧
      pool'.bootstraps = pool.bootstraps ∧
        ∀ index, pool'.slots index ≠ none → pool.slots index ≠ none := by
    intro hbase
    refine (frozen_of_exec (hI.owned.agrees t) hallowed hexec).resolve_left ?_
    intro hserving
    refine hbase ((serves_iff _).mpr (h.rank.trans ?_))
    exact (serves_iff _).mp (hI.phased.serving t hserving).2
  refine ⟨hrank, ?_, ?_, ?_⟩
  · exact fun hbase => (hfrozen hbase).1.trans (h.activeWorkers hbase)
  · exact fun hbase => (hfrozen hbase).2.1.trans (h.bootstraps hbase)
  · intro hbase index
    rw [← h.slots hbase index]
    exact ⟨(hfrozen hbase).2.2 index, hframe.filled index⟩

theorem Lives.later (h : Lives capacity config)
    (hrun : (poolSystem capacity maximumPayloadSize).Run guard config config') :
    Later config.shared config'.shared := by
  obtain ⟨locals, hI, hthreads⟩ := h
  have hend : System.Invariant (discipline capacity) Local.Free (fun pool locals =>
      Living capacity pool locals ∧ Later config.shared pool) config' := by
    refine hrun.invariant ?_ ?_ ?_
      ⟨locals, ⟨hI, le_rfl, fun _ => rfl, fun _ => rfl, fun _ _ => Iff.rfl⟩, hthreads⟩
    · intro p hp
      exact Operation.safe hp
    · intro t command answer pool pool' locals hlater hallowed _ hexec
      obtain ⟨hI, hlater⟩ := hlater
      exact ⟨(hI.owned.act hallowed hexec).1, hI.act hallowed hexec, hlater.act hI hallowed hexec⟩
    · intro pool pool' locals hlater hcrash
      obtain ⟨hI, hlater⟩ := hlater
      obtain ⟨hstate, hlooked, hbootstraps⟩ := hcrash.state
      refine ⟨hI.quiet hcrash.quiet hstate hlooked, ?_, ?_, ?_, ?_⟩
      · rw [hstate]
        exact hlater.rank
      · rw [hcrash.quiet.activeWorkers]
        exact hlater.activeWorkers
      · rw [hbootstraps]
        exact hlater.bootstraps
      · rw [hcrash.quiet.slots]
        exact hlater.slots
  obtain ⟨_, hlater, _⟩ := hend
  exact hlater.2

/-- No worker is started for a slot that a shutdown has looked at. -/
def Unlooked (_ : ℕ) (command : Command) (pool : WorkerPool) : Prop :=
  ∀ index, command = .spawn index → pool.looked index = false

/-- A shutdown of a pool with one worker. -/
theorem exists_shutdown : ∃ config config' : Config Command Command.Answer WorkerPool,
    (poolSystem 1 1000).Run Unlooked (poolStart 1) config ∧ config.shared.state = .stopping ∧
      config.shared.IsRunning 0 ∧ (poolSystem 1 1000).Run Unlooked config config' ∧
        config'.shared.state = .stopped := by
  have hspawn : ∀ {command : Command} {pool}, (∀ index, command ≠ .spawn index) →
      Unlooked 0 command pool := fun h index hcommand => absurd hcommand (h index)
  have hstart : (poolSystem 1 1000).Step Unlooked (poolStart 1) _ := .start 0 _ rfl (.shutdown [])
  have hfinalize := (Relation.ReflTransGen.single hstart).tail
    (.act 0 .finalize _ true rfl (hspawn (by simp)) rfl)
  have hlock := hfinalize.tail (.act 0 .lockGrowth _ () rfl (hspawn (by simp)) rfl)
  have hchoose := hlock.tail (.act 0 .choose _ false rfl (hspawn (by simp)) rfl)
  have hstopping := hchoose.tail (.act 0 (.storeState .stopping) _ () rfl (hspawn (by simp)) rfl)
  exact ⟨_, _, hstopping, rfl, rfl, Relation.ReflTransGen.head
    (.act 0 (.lookSlot 0) _ (some 0) rfl (hspawn (by simp)) rfl) (.head
    (.act 0 (.beginShutdown 0) _ () rfl (hspawn (by simp)) rfl) (.head
    (.act 0 (.finishShutdown 0) _ () rfl (hspawn (by simp)) rfl) (.single
    (.act 0 (.storeState .stopped) _ () rfl (hspawn (by simp)) rfl)))), rfl⟩

/-- The state of a pool only moves on, and a pool that stops neither grows nor records. -/
theorem later_of_run (hpos : 0 < initialWorkers) (hle : initialWorkers ≤ capacity)
    (hrun : (poolSystem capacity maximumPayloadSize).Run guard (poolStart initialWorkers) config)
    (hrun' : (poolSystem capacity maximumPayloadSize).Run guard config config') :
    Later config.shared config'.shared :=
  (lives_of_run hpos hle hrun).later hrun'

theorem later_of_run_shutdown : ∃ config config' : Config Command Command.Answer WorkerPool,
    config.shared.state = .stopping ∧ config'.shared.state = .stopped ∧
      Later config.shared config'.shared := by
  obtain ⟨config, config', hrun, hstate, -, hrun', hstate'⟩ := exists_shutdown
  exact ⟨config, config', hstate, hstate', later_of_run (by decide) (by decide) hrun hrun'⟩

theorem not_running_of_run (hpos : 0 < initialWorkers) (hle : initialWorkers ≤ capacity)
    (hrun : (poolSystem capacity maximumPayloadSize).Run Unlooked (poolStart initialWorkers) config)
    (hstate : config.shared.state = .stopped) (worker : WorkerId) :
    ¬ config.shared.IsRunning worker := by
  have hend : System.Invariant (discipline capacity) Local.Free (fun pool locals =>
      Living capacity pool locals ∧ Doomed pool fun t => (locals t).stance) config := by
    refine hrun.invariant ?_ ?_ ?_ ⟨fun _ => .idle, ⟨.spawn hpos hle, ?_⟩, fun _ => Local.free_idle⟩
    · intro p hp
      exact Operation.safe hp
    · intro t command answer pool pool' locals hliving hallowed hguard hexec
      obtain ⟨hI, hdoomed⟩ := hliving
      obtain ⟨hpossible, hframe, howned⟩ := hI.owned.act hallowed hexec
      refine ⟨hpossible, hI.act hallowed hexec, hdoomed.turn hI.owned hI.phased howned.placed
        hframe hguard ?_ (fun t' => stance_update_of_ne) ?_⟩
      · intro index hcommand
        subst hcommand
        exact (hI.owned.agrees t).starts_of_maySpawn hallowed
      · rw [Function.update_self]
        exact turn_of_exec hallowed hexec
    · intro pool pool' locals hliving hcrash
      obtain ⟨hI, hdoomed⟩ := hliving
      obtain ⟨hstate, hlooked, -⟩ := hcrash.state
      refine ⟨hI.quiet hcrash.quiet hstate hlooked, ?_, ?_⟩
      · intro t hhalting worker hrunning
        rw [hlooked, hcrash.quiet.id]
        exact hdoomed.halting t hhalting worker (hcrash.quiet.running worker hrunning)
      · intro hstopped worker hrunning
        exact hdoomed.stopped (hstate ▸ hstopped) worker (hcrash.quiet.running worker hrunning)
    · exact ⟨fun _ h => (by cases h), fun h => (by cases h)⟩
  obtain ⟨_, hdoomed, _⟩ := hend
  exact hdoomed.2.stopped hstate worker

/-- A pool that is stopped stays so, and no worker ever runs again. -/
theorem stopped_of_run (hpos : 0 < initialWorkers) (hle : initialWorkers ≤ capacity)
    (hrun : (poolSystem capacity maximumPayloadSize).Run Unlooked (poolStart initialWorkers) config)
    (hstate : config.shared.state = .stopped)
    (hrun' : (poolSystem capacity maximumPayloadSize).Run Unlooked config config') :
    config'.shared.state = .stopped ∧ ∀ worker, ¬ config'.shared.IsRunning worker := by
  have hrank := (later_of_run hpos hle hrun hrun').rank
  have hstate' : config'.shared.state = .stopped := by
    rw [hstate] at hrank
    cases hend : config'.shared.state <;> rw [hend] at hrank <;> revert hrank <;> decide
  exact ⟨hstate', not_running_of_run hpos hle (hrun.trans hrun') hstate'⟩

theorem stopped_of_run_shutdown : ∃ config config' : Config Command Command.Answer WorkerPool,
    config.shared.IsRunning 0 ∧ config'.shared.state = .stopped ∧
      ∀ worker, ¬ config'.shared.IsRunning worker := by
  obtain ⟨config, config', hrun, -, hrunning, hrun', hstate'⟩ := exists_shutdown
  exact ⟨config, config', hrunning,
    stopped_of_run (by decide) (by decide) (hrun.trans hrun') hstate' .refl⟩

end Runs

end Mago.Extension
