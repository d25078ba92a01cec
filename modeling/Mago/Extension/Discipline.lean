import Mago.Extension.Operations

/-!
# The discipline of a worker pool's threads

What a thread of the pool keeps track of: the locks it holds, the workers it has started, the
workers it has seen in a slot or found dead, and how far its broadcast or shutdown is.
-/
namespace Mago.Extension
open Mago.Library Command

/-- How far a worker that is in no slot is initialised. -/
inductive Progress where
  | fresh
  | replaying (messages : List Message)
  | broken

/-- A broadcast: the workers it has taken, with the messages that they have not processed yet. -/
structure Broadcast where
  group : Option ℕ
  payloads : List Payload
  jobs : List (WorkerId × List Message)
  broken : Bool

def Broadcast.messages (broadcast : Broadcast) : List Message :=
  broadcast.payloads.map fun payload => ⟨broadcast.group, payload⟩

structure Local where
  growth : Bool
  /-- The pool was running after the thread got the growth lock. -/
  serving : Bool
  activeWorkers : Option ℕ
  /-- The slots it has filled and not yet counted lie below. -/
  placed : ℕ
  finalizer : Bool
  halting : Bool
  looked : ℕ
  stopping : List WorkerId
  slot : Option (ℕ × Option WorkerId)
  owned : WorkerId → Option (ℕ × Progress)
  broadcast : Option Broadcast
  dead : Set WorkerId
  seen : Set (ℕ × WorkerId)

namespace Local

/-- A worker that the thread has started, seen in a slot or found dead. -/
def Knows (l : Local) (worker : WorkerId) : Prop :=
  (l.owned worker).isSome ∨ (∃ index, (index, worker) ∈ l.seen) ∨ worker ∈ l.dead

/-- The broadcast of the thread fails anyway, or it has not taken the worker of the slot. -/
def MayRestart (l : Local) (index : ℕ) : Prop :=
  ∀ broadcast, l.broadcast = some broadcast → broadcast.broken = true ∨
    broadcast.jobs.length ≤ index

/-- The thread may start a worker for the slot: the slot is beyond the active ones and the thread
grows the pool, or it holds the slot and the worker there is dead. -/
def MaySpawn (l : Local) (index : ℕ) : Prop :=
  (l.growth = true ∧ l.serving = true ∧ l.slot = none ∧ l.broadcast = none ∧
      ∃ activeWorkers, l.activeWorkers = some activeWorkers ∧ activeWorkers ≤ index) ∨
    ∃ current, l.slot = some (index, current) ∧ (∃ worker, (index, worker) ∈ l.seen) ∧
      (∀ worker, current = some worker → worker ∈ l.dead) ∧ l.MayRestart index

def see (l : Local) (index : ℕ) (answer : Option WorkerId) : Local :=
  { l with seen := l.seen ∪ {entry | entry.1 = index ∧ answer = some entry.2} }

def bury (l : Local) (worker : WorkerId) : Local := { l with dead := insert worker l.dead }

def own (l : Local) (worker : WorkerId) (state : Option (ℕ × Progress)) : Local :=
  { l with owned := Function.update l.owned worker state }

def setBroadcast (l : Local) (f : Broadcast → Broadcast) : Local :=
  { l with broadcast := l.broadcast.map f }

/-- Between two operations. -/
structure Free (l : Local) : Prop where
  growth : l.growth = false
  serving : l.serving = false
  activeWorkers : l.activeWorkers = none
  placed : l.placed = 0
  finalizer : l.finalizer = false
  halting : l.halting = false
  looked : l.looked = 0
  stopping : l.stopping = []
  slot : l.slot = none
  owned : l.owned = fun _ => none
  broadcast : l.broadcast = none

end Local

def allowed (capacity : ℕ) : Command → Local → Prop
  | storeState .stopping, l =>
    l.finalizer = true ∧ l.halting = false ∧ l.growth = true ∧ l.serving = false ∧ l.slot = none ∧
      l.owned = fun _ => none
  | storeState .stopped, l =>
    l.finalizer = true ∧ l.growth = true ∧ l.halting = true ∧ capacity ≤ l.looked ∧ l.stopping = []
  | storeState _, _ => False
  | storeActive n, l =>
    l.growth = true ∧ l.serving = true ∧ l.placed = n ∧ (l.owned = fun _ => none) ∧
      ∃ activeWorkers, l.activeWorkers = some activeWorkers ∧ activeWorkers ≤ n
  | lockGrowth, l | tryLockGrowth, l => l.growth = false ∧ l.slot = none
  | unlockGrowth, l =>
    l.growth = true ∧ l.placed = 0 ∧ l.halting = false ∧ l.slot = none ∧ l.broadcast = none ∧
      l.owned = fun _ => none
  | lockSlot _, l => l.slot = none ∧ l.owned = fun _ => none
  | unlockSlot index none, l =>
    (∃ current, l.slot = some (index, current)) ∧ l.owned = fun _ => none
  | unlockSlot index (some worker), l =>
    (∃ current, l.slot = some (index, current) ∧
      ∀ worker, current = some worker → worker ∈ l.dead) ∧
      l.owned worker = some (index, .replaying []) ∧
      ∀ other, other ≠ worker → l.owned other = none
  | lookSlot index, l => l.halting = true ∧ index = l.looked
  | storeSlot index worker, l =>
    l.growth = true ∧ l.serving = true ∧ l.slot = none ∧
      l.owned worker = some (index, .replaying []) ∧ index < capacity ∧
      ∃ activeWorkers, l.activeWorkers = some activeWorkers ∧
        activeWorkers ≤ index ∧ (l.placed = index ∨ l.placed = 0 ∧ activeWorkers = index)
  | isRunning worker, l | beginShutdown worker, l | finishShutdown worker, l => l.Knows worker
  | spawn index, l => l.MaySpawn index
  | cloneBootstraps worker, l =>
    ∃ index, l.owned worker = some (index, .fresh) ∧ l.MaySpawn index
  | replay worker message, l =>
    ∃ index messages, l.owned worker = some (index, .replaying (message :: messages))
  | send index worker message, l =>
    ∃ broadcast messages, l.broadcast = some broadcast ∧
      broadcast.jobs[index]? = some (worker, message :: messages)
  | record group replacements, l =>
    ∃ broadcast, l.broadcast = some broadcast ∧ broadcast.group = group ∧ l.growth = true ∧
      l.serving = true ∧ (l.owned = fun _ => none) ∧ l.placed = 0 ∧ broadcast.broken = false ∧
      l.activeWorkers = some broadcast.jobs.length ∧
      (∀ job ∈ broadcast.jobs, job.2 = []) ∧
      replacements.map Bootstrap.message = broadcast.messages
  | beginBroadcast _ _, l => l.broadcast = none ∧ l.growth = false
  | takeWorker worker, l =>
    ∃ broadcast, l.broadcast = some broadcast ∧ l.growth = true ∧ l.slot = none ∧
      (l.owned = fun _ => none) ∧ broadcast.payloads ≠ [] ∧
      (broadcast.jobs.length, worker) ∈ l.seen
  | Command.endBroadcast ok, l =>
    ∃ broadcast, l.broadcast = some broadcast ∧
      (ok = true → broadcast.broken = false ∧ broadcast.jobs = [])
  | _, _ => True

/-- A worker that is started is a new one, and some slot is active. -/
def possible : (command : Command) → command.Answer → Local → Prop
  | loadActive, answer, _ => 0 < answer
  | spawn _, answer, l => ∀ worker, answer = some worker → l.owned worker = none
  | _, _, _ => True

def after : (command : Command) → command.Answer → Local → Local
  | loadState, answer, l => { l with serving := l.serving || (l.growth && answer = .running) }
  | finalize, answer, l => { l with finalizer := l.finalizer || answer }
  | storeState .stopping, _, l => { l with halting := true, looked := 0, stopping := [] }
  | storeState _, _, l => { l with finalizer := false, halting := false, looked := 0 }
  | loadActive, answer, l =>
    { l with activeWorkers := if l.growth then some answer else l.activeWorkers }
  | storeActive n, _, l => { l with activeWorkers := some n, placed := 0 }
  | lockGrowth, _, l =>
    { l with growth := true, serving := false, activeWorkers := none, placed := 0 }
  | tryLockGrowth, answer, l =>
    if answer then { l with growth := true, serving := false, activeWorkers := none, placed := 0 }
    else l
  | unlockGrowth, _, l => { l with growth := false, serving := false, activeWorkers := none }
  | lockSlot index, answer, l => { l.see index answer with slot := some (index, answer) }
  | unlockSlot _ none, _, l => { l with slot := none }
  | unlockSlot index (some worker), _, l =>
    { (l.own worker none).see index (some worker) with slot := none }
  | readSlot index, answer, l => l.see index answer
  | lookSlot index, answer, l =>
    { l.see index answer with looked := l.looked + 1, stopping := l.stopping ++ answer.toList }
  | storeSlot index worker, _, l =>
    { (l.own worker none).see index (some worker) with placed := index + 1 }
  | isRunning worker, answer, l => if answer then l else l.bury worker
  | spawn index, answer, l =>
    match answer with
    | none => l
    | some worker => l.own worker (some (index, .fresh))
  | beginShutdown worker, _, l => l.bury worker
  | finishShutdown worker, _, l =>
    { (l.own worker none).bury worker with stopping := l.stopping.filter fun w => w ≠ worker }
  | cloneBootstraps worker, answer, l =>
    l.own worker ((l.owned worker).map fun entry =>
      (entry.1, .replaying (answer.map Bootstrap.message)))
  | replay worker _, answer, l =>
    l.own worker ((l.owned worker).map fun entry =>
      (entry.1, match answer, entry.2 with
        | .ok _, .replaying messages => .replaying messages.tail
        | _, _ => .broken))
  | send index _ _, answer, l =>
    l.setBroadcast fun broadcast =>
      match answer with
      | .ok _ => { broadcast with
          jobs := broadcast.jobs.modify index fun job => (job.1, job.2.tail) }
      | .error _ _ => { broadcast with broken := true }
  | record _ _, _, l => l.setBroadcast fun broadcast => { broadcast with jobs := [] }
  | beginBroadcast group payloads, _, l => { l with broadcast := some ⟨group, payloads, [], false⟩ }
  | takeWorker worker, _, l =>
    l.setBroadcast fun broadcast =>
      { broadcast with jobs := broadcast.jobs ++ [(worker, broadcast.messages)] }
  | Command.endBroadcast _, _, l => { l with broadcast := none }
  | _, _, l => l

def discipline (capacity : ℕ) : Discipline Command Command.Answer Local :=
  ⟨allowed capacity, possible, after⟩

end Mago.Extension
