import Mago.Library.Threads

/-!
# Worker pools

A pool of worker processes that threads share. Every load, store and lock is a command of its own;
a lock that is held for one access only is taken and released by that access. Scheduling data
(loads, cursors, timings) is answered arbitrarily.
-/
namespace Mago.Extension
open Mago.Library

abbrev Payload := List UInt8

abbrev WorkerId := ℕ

inductive PoolState where
  | running
  | finalizing
  | stopping
  | stopped
  deriving DecidableEq, Repr

inductive WorkerState where
  | running
  | failed
  | stopping
  | stopped
  deriving DecidableEq, Repr

inductive WorkerError where
  | unavailable
  | spawn (worker : ℕ)
  | request (worker : ℕ)
  | restart (worker : ℕ) (source : WorkerError)
  | inconsistentInitialization (worker : ℕ)
  | reduction (worker : ℕ)
  | frameTooLarge (length maximum : ℕ)
  deriving DecidableEq, Repr

/-- A payload of a broadcast, with the group of the broadcast. -/
structure Message where
  group : Option ℕ
  request : Payload
  deriving DecidableEq, Repr

structure Bootstrap where
  group : Option ℕ
  request : Payload
  response : Payload
  deriving DecidableEq, Repr

def Bootstrap.message (bootstrap : Bootstrap) : Message := ⟨bootstrap.group, bootstrap.request⟩

/-- A process that was started for a slot, with the payloads of broadcasts it has processed. The
owner is history: the thread that has started it, until the worker is in a slot. -/
structure Worker where
  id : ℕ
  state : WorkerState
  processed : List Message
  owner : Option ℕ
  deriving DecidableEq, Repr

/-- The pool, with the thread that holds each lock. The last four fields are history: the slots
that a shutdown has looked at, the slots whose workers the current broadcast has taken, the
threads that broadcast, and whether a broadcast has failed. -/
structure WorkerPool where
  state : PoolState
  activeWorkers : ℕ
  growth : Option ℕ
  restart : ℕ → Option ℕ
  slotLock : ℕ → Option ℕ
  slots : ℕ → Option WorkerId
  bootstraps : List Bootstrap
  workers : WorkerId → Worker
  started : ℕ
  looked : ℕ → Bool
  taken : ℕ
  broadcasting : ℕ → Bool
  failed : Bool

namespace WorkerPool

def IsRunning (pool : WorkerPool) (worker : WorkerId) : Prop :=
  (pool.workers worker).state = .running

instance (pool : WorkerPool) (worker : WorkerId) : Decidable (pool.IsRunning worker) :=
  inferInstanceAs (Decidable (_ = _))

def setWorker (pool : WorkerPool) (worker : WorkerId) (f : Worker → Worker) : WorkerPool :=
  { pool with workers := Function.update pool.workers worker (f (pool.workers worker)) }

/-- The pool after its constructor, with the first workers in their slots. -/
def spawn (initialWorkers : ℕ) : WorkerPool where
  state := .running
  activeWorkers := initialWorkers
  growth := none
  restart := fun _ => none
  slotLock := fun _ => none
  slots := fun index => if index < initialWorkers then some index else none
  bootstraps := []
  workers := fun worker =>
    ⟨worker, if worker < initialWorkers then .running else .stopped, [], none⟩
  started := initialWorkers
  looked := fun _ => false
  taken := 0
  broadcasting := fun _ => false
  failed := false

end WorkerPool

/-- What comes back for a payload; with an error the payload may have been processed, and the
worker may have failed. -/
inductive Reply where
  | ok (response : Payload)
  | error (processed crashed : Bool)
  deriving DecidableEq, Repr

def Reply.isOk : Reply → Bool
  | ok _ => true
  | error _ _ => false

inductive Command where
  | loadState
  | finalize
  | storeState (state : PoolState)
  | loadActive
  | storeActive (activeWorkers : ℕ)
  | lockGrowth
  | tryLockGrowth
  | unlockGrowth
  | lockRestart (index : ℕ)
  | unlockRestart (index : ℕ)
  | lockSlot (index : ℕ)
  | unlockSlot (index : ℕ) (replacement : Option WorkerId)
  | readSlot (index : ℕ)
  | lookSlot (index : ℕ)
  | storeSlot (index : ℕ) (worker : WorkerId)
  | isRunning (worker : WorkerId)
  | spawn (index : ℕ)
  | beginShutdown (worker : WorkerId)
  | finishShutdown (worker : WorkerId)
  | cloneBootstraps (worker : WorkerId)
  | replay (worker : WorkerId) (message : Message)
  | send (index : ℕ) (worker : WorkerId) (message : Message)
  | exchange (worker : WorkerId) (payload : Payload)
  | record (group : Option ℕ) (replacements : List Bootstrap)
  | choose
  | pick
  | beginBroadcast (group : Option ℕ) (payloads : List Payload)
  | takeWorker (worker : WorkerId)
  | endBroadcast (ok : Bool)

namespace Command

@[reducible] def Answer : Command → Type
  | loadState => PoolState
  | finalize => Bool
  | loadActive => ℕ
  | tryLockGrowth => Bool
  | lockSlot _ => Option WorkerId
  | readSlot _ => Option WorkerId
  | lookSlot _ => Option WorkerId
  | isRunning _ => Bool
  | spawn _ => Option WorkerId
  | cloneBootstraps _ => List Bootstrap
  | replay _ _ => Reply
  | send _ _ _ => Reply
  | exchange _ _ => Reply
  | choose => Bool
  | pick => ℕ
  | _ => Unit

end Command

/-- Failing is final. -/
def Worker.fail (worker : Worker) : Worker :=
  if worker.state = .running then { worker with state := .failed } else worker

def Worker.beginShutdown (worker : Worker) : Worker :=
  match worker.state with
  | .running | .failed => { worker with state := .stopping }
  | .stopping | .stopped => worker

def Worker.finishShutdown (worker : Worker) : Worker := { worker with state := .stopped }

def Worker.place (worker : Worker) : Worker := { worker with owner := none }

def Worker.process (message : Message) (worker : Worker) : Worker :=
  { worker with processed := worker.processed ++ [message] }

/-- A group's sequence replaces the one that is recorded, other payloads are added. -/
def recordBootstraps (group : Option ℕ) (replacements bootstraps : List Bootstrap) :
    List Bootstrap :=
  (if group.isSome then bootstraps.filter fun bootstrap => decide (bootstrap.group ≠ group)
    else bootstraps) ++ replacements

namespace WorkerPool

/-- A worker that is running takes the payload. -/
def deliver (worker : WorkerId) (message : Message) (pool : WorkerPool) :
    Reply → Option WorkerPool
  | .ok _ =>
    if pool.IsRunning worker then some (pool.setWorker worker (Worker.process message)) else none
  | .error processed crashed =>
    if processed = true ∧ ¬ pool.IsRunning worker then none
    else
      let pool := if processed then pool.setWorker worker (Worker.process message) else pool
      some (if crashed then pool.setWorker worker Worker.fail else pool)

/-- A request that is no broadcast. -/
def serve (worker : WorkerId) (pool : WorkerPool) : Reply → Option WorkerPool
  | .ok _ => if pool.IsRunning worker then some pool else none
  | .error _ crashed => some (if crashed then pool.setWorker worker Worker.fail else pool)

end WorkerPool

open Command in
/-- What a command of the thread does for an answer; none where it gets another answer or has to
wait. -/
def exec (t : ℕ) : (command : Command) → command.Answer → WorkerPool → Option WorkerPool
  | loadState, answer, pool => if answer = pool.state then some pool else none
  | finalize, answer, pool =>
    if answer = decide (pool.state = .running) then
      some (if answer then { pool with state := .finalizing } else pool)
    else none
  | storeState state, _, pool => some { pool with state }
  | loadActive, answer, pool => if answer = pool.activeWorkers then some pool else none
  | storeActive activeWorkers, _, pool => some { pool with activeWorkers }
  | lockGrowth, _, pool =>
    if pool.growth = none then some { pool with growth := some t } else none
  | tryLockGrowth, answer, pool =>
    if answer = decide (pool.growth = none) then
      some (if answer then { pool with growth := some t } else pool)
    else none
  | unlockGrowth, _, pool => some { pool with growth := none, taken := 0 }
  | lockRestart index, _, pool =>
    if pool.restart index = none then
      some { pool with restart := Function.update pool.restart index (some t) }
    else none
  | unlockRestart index, _, pool =>
    some { pool with restart := Function.update pool.restart index none }
  | lockSlot index, answer, pool =>
    if pool.slotLock index = none ∧ answer = pool.slots index then
      some { pool with slotLock := Function.update pool.slotLock index (some t) }
    else none
  | unlockSlot index none, _, pool =>
    some { pool with slotLock := Function.update pool.slotLock index none }
  | unlockSlot index (some worker), _, pool =>
    some { pool.setWorker worker Worker.place with
      slotLock := Function.update pool.slotLock index none
      slots := Function.update pool.slots index (some worker) }
  | readSlot index, answer, pool =>
    if pool.slotLock index = none ∧ answer = pool.slots index then some pool else none
  | lookSlot index, answer, pool =>
    if pool.slotLock index = none ∧ answer = pool.slots index then
      some { pool with looked := Function.update pool.looked index true }
    else none
  | storeSlot index worker, _, pool =>
    if pool.slotLock index = none then
      some { pool.setWorker worker Worker.place with
        slots := Function.update pool.slots index (some worker) }
    else none
  | isRunning worker, answer, pool =>
    if answer = decide (pool.IsRunning worker) then some pool else none
  | spawn index, answer, pool =>
    match answer with
    | none => some pool
    | some worker =>
      if worker = pool.started then
        some { pool with
          workers := Function.update pool.workers worker ⟨index, .running, [], some t⟩
          started := pool.started + 1 }
      else none
  | beginShutdown worker, _, pool => some (pool.setWorker worker Worker.beginShutdown)
  | finishShutdown worker, _, pool => some (pool.setWorker worker Worker.finishShutdown)
  | cloneBootstraps _, answer, pool => if answer = pool.bootstraps then some pool else none
  | replay worker message, answer, pool => pool.deliver worker message answer
  | send _ worker message, answer, pool => pool.deliver worker message answer
  | exchange worker _, answer, pool => pool.serve worker answer
  | record group replacements, _, pool =>
    some { pool with
      bootstraps := recordBootstraps group replacements pool.bootstraps
      taken := 0 }
  | choose, _, pool => some pool
  | pick, _, pool => some pool
  | beginBroadcast _ _, _, pool =>
    some { pool with broadcasting := Function.update pool.broadcasting t true }
  | takeWorker _, _, pool => some { pool with taken := pool.taken + 1 }
  | endBroadcast ok, _, pool =>
    some { pool with
      broadcasting := Function.update pool.broadcasting t false
      failed := pool.failed || !ok }

end Mago.Extension
