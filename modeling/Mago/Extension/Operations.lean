import Mago.Extension.Pool

/-!
# Operations of a worker pool

The programs that threads run: requests with their recovery, growth, broadcasts and the shutdown.
Scoped threads are jobs of the thread that joins them, in any interleaving.
-/
namespace Mago.Extension
open Mago.Library

abbrev Action := Program Command Command.Answer

def perform (command : Command) : Action command.Answer := Program.perform command

def pick : Action ℕ := perform .pick

def shutdownWorker (worker : WorkerId) : Action Unit := do
  perform (.beginShutdown worker)
  perform (.finishShutdown worker)

def beginShutdowns : List WorkerId → Action Unit
  | [] => pure ()
  | worker :: workers => do
    perform (.beginShutdown worker)
    beginShutdowns workers

def finishShutdowns : List WorkerId → Action Unit
  | [] => pure ()
  | worker :: workers => do
    perform (.finishShutdown worker)
    finishShutdowns workers

def shutdownWorkers (workers : List WorkerId) : Action Unit := do
  beginShutdowns workers
  finishShutdowns workers

section Spawn

/-- One recorded exchange; the worker is shut down where it answers something else. -/
def replayOne (index : ℕ) (worker : WorkerId) (bootstrap : Bootstrap) :
    Action (Option WorkerError) := do
  match ← perform (.replay worker bootstrap.message) with
  | .error _ _ => do
    shutdownWorker worker
    pure (some (.request index))
  | .ok response =>
    if response ≠ bootstrap.response then do
      shutdownWorker worker
      pure (some (.inconsistentInitialization index))
    else pure none

def replayAll (index : ℕ) (worker : WorkerId) :
    List Bootstrap → Action (Except WorkerError WorkerId)
  | [] => pure (.ok worker)
  | bootstrap :: bootstraps => do
    match ← replayOne index worker bootstrap with
    | some error => pure (.error error)
    | none => replayAll index worker bootstraps

def replayBootstraps (index : ℕ) (worker : WorkerId) : Action (Except WorkerError WorkerId) := do
  let bootstraps ← perform (.cloneBootstraps worker)
  replayAll index worker bootstraps

def spawnInitialized (index : ℕ) : Action (Except WorkerError WorkerId) := do
  match ← perform (.spawn index) with
  | none => pure (.error (.spawn index))
  | some worker => replayBootstraps index worker

/-- A scoped thread that spawns a worker, between two of its commands. -/
inductive Spawning where
  | waiting (index : ℕ)
  | initializing (index : ℕ) (worker : WorkerId)
  | replaying (index : ℕ) (worker : WorkerId) (bootstraps : List Bootstrap)
  | ended (index : ℕ) (result : Except WorkerError WorkerId)

namespace Spawning

def step : Spawning → Action Spawning
  | waiting index => do
    match ← perform (.spawn index) with
    | none => pure (ended index (.error (.spawn index)))
    | some worker => pure (initializing index worker)
  | initializing index worker => do
    let bootstraps ← perform (.cloneBootstraps worker)
    pure (replaying index worker bootstraps)
  | replaying index worker [] => pure (ended index (.ok worker))
  | replaying index worker (bootstrap :: bootstraps) => do
    match ← replayOne index worker bootstrap with
    | some error => pure (ended index (.error error))
    | none => pure (replaying index worker bootstraps)
  | ended index result => pure (ended index result)

def index : Spawning → ℕ
  | waiting index | initializing index _ | replaying index _ _ | ended index _ => index

def join : Spawning → Action (Except WorkerError WorkerId)
  | waiting index => spawnInitialized index
  | initializing index worker => replayBootstraps index worker
  | replaying index worker bootstraps => replayAll index worker bootstraps
  | ended _ result => pure result

def finish (spawning : Spawning) : Action (ℕ × Except WorkerError WorkerId) := do
  let result ← spawning.join
  pure (spawning.index, result)

end Spawning

end Spawn

section Recovery

/-- The worker that is in the slot already instead of the failed one, where it is running. -/
def replaced (failed : WorkerId) : Option WorkerId → Action (Option WorkerId)
  | none => pure none
  | some current =>
    if current = failed then pure none
    else do
      if ← perform (.isRunning current) then pure (some current) else pure none

def restart (index : ℕ) (failed : WorkerId) : Action (Except WorkerError WorkerId) := do
  perform (.lockRestart index)
  let current ← perform (.lockSlot index)
  match ← replaced failed current with
  | some current => do
    perform (.unlockSlot index none)
    perform (.unlockRestart index)
    pure (.ok current)
  | none => do
    shutdownWorker failed
    match ← spawnInitialized index with
    | .error source => do
      perform (.unlockSlot index none)
      perform (.unlockRestart index)
      pure (.error (.restart index source))
    | .ok replacement => do
      perform (.unlockSlot index (some replacement))
      perform (.unlockRestart index)
      pure (.ok replacement)

def ensureRunning (index : ℕ) : Action (Except WorkerError WorkerId) := do
  match ← perform (.readSlot index) with
  | none => pure (.error .unavailable)
  | some worker => do
    if ← perform (.isRunning worker) then pure (.ok worker) else restart index worker

def recoverIfNeeded (index : ℕ) (worker : WorkerId) (isOk : Bool) :
    Action (Except WorkerError Unit) := do
  if isOk then pure (.ok ())
  else if ← perform (.isRunning worker) then pure (.ok ())
  else if (← perform .loadState) ≠ .running then pure (.ok ())
  else
    match ← perform (.readSlot index) with
    | none => pure (.ok ())
    | some failed =>
      if failed = worker then do
        match ← restart index failed with
        | .error error => pure (.error error)
        | .ok _ => pure (.ok ())
      else pure (.ok ())

end Recovery

section Growth

variable (capacity : ℕ)

/-- Grows by one worker unless another thread grows the pool or broadcasts. -/
def tryGrow (observedWorkers : ℕ) : Action (Except WorkerError (Option (ℕ × WorkerId))) := do
  if capacity ≤ observedWorkers then pure (.ok none)
  else if ← perform .tryLockGrowth then
    if (← perform .loadState) ≠ .running then
      perform .unlockGrowth
      pure (.ok none)
    else
      let activeWorkers ← perform .loadActive
      let shouldGrow ← perform .choose
      if activeWorkers ≠ observedWorkers ∨ capacity ≤ activeWorkers ∨ shouldGrow = false then
        perform .unlockGrowth
        pure (.ok none)
      else
        match ← spawnInitialized activeWorkers with
        | .error error => do
          perform .unlockGrowth
          pure (.error error)
        | .ok worker => do
          perform (.storeSlot activeWorkers worker)
          perform (.storeActive (activeWorkers + 1))
          perform .unlockGrowth
          pure (.ok (some (activeWorkers, worker)))
  else pure (.ok none)

/-- The workers that were started, or the first error. -/
def collectSpawned : List (ℕ × Except WorkerError WorkerId) →
    List (ℕ × WorkerId) × Option WorkerError
  | [] => ([], none)
  | (index, .ok worker) :: results =>
    ((index, worker) :: (collectSpawned results).1, (collectSpawned results).2)
  | (_, .error error) :: results => ((collectSpawned results).1, some error)

def storeSlots : List (ℕ × WorkerId) → Action Unit
  | [] => pure ()
  | (index, worker) :: workers => do
    perform (.storeSlot index worker)
    storeSlots workers

def growTo (target : ℕ) : Action (Except WorkerError Unit) := do
  perform .lockGrowth
  if (← perform .loadState) ≠ .running then
    perform .unlockGrowth
    pure (.ok ())
  else
    let activeWorkers ← perform .loadActive
    let target := min target capacity
    if target ≤ activeWorkers then
      perform .unlockGrowth
      pure (.ok ())
    else
      let results ← Program.concurrently pick Spawning.step Spawning.finish
        ((List.range' activeWorkers (target - activeWorkers)).map Spawning.waiting)
      match collectSpawned results with
      | (workers, some error) => do
        shutdownWorkers (workers.map Prod.snd)
        perform .unlockGrowth
        pure (.error error)
      | (workers, none) => do
        storeSlots workers
        perform (.storeActive target)
        perform .unlockGrowth
        pure (.ok ())

end Growth

section Request

/-- The running worker of least load among the slots that are left. -/
def selectWorker : List ℕ → Option (ℕ × WorkerId × ℕ) → Option WorkerError →
    Action (Option (ℕ × WorkerId × ℕ) × Option WorkerError)
  | [], selected, lastError => pure (selected, lastError)
  | index :: indexes, selected, lastError => do
    match ← ensureRunning index with
    | .error error => selectWorker indexes selected (some error)
    | .ok worker => do
      let load ← pick
      if selected.all fun best => decide (load < best.2.2) then
        selectWorker indexes (some (index, worker, load)) lastError
      else selectWorker indexes selected lastError

/-- The reservation stands where the pool is still running. -/
def confirm (index : ℕ) (worker : WorkerId) : Action (Except WorkerError (ℕ × WorkerId)) := do
  if (← perform .loadState) ≠ .running then pure (.error .unavailable)
  else pure (.ok (index, worker))

def reserveWorker (capacity : ℕ) : Action (Except WorkerError (ℕ × WorkerId)) := do
  if (← perform .loadState) ≠ .running then pure (.error .unavailable)
  else
    let activeWorkers ← perform .loadActive
    let start ← pick
    let indexes := (List.range activeWorkers).map fun offset => (start + offset) % activeWorkers
    match ← selectWorker indexes none none with
    | (none, lastError) => pure (.error (lastError.getD .unavailable))
    | (some (index, worker, load), _) => do
      let shouldGrow ← perform .choose
      if 0 < load ∧ shouldGrow = true then
        match ← tryGrow capacity activeWorkers with
        | .error error => pure (.error error)
        | .ok (some (index, worker)) => confirm index worker
        | .ok none => confirm index worker
      else confirm index worker

def requestInner (capacity : ℕ) (payload : Payload) : Action (Except WorkerError Payload) := do
  match ← reserveWorker capacity with
  | .error error => pure (.error error)
  | .ok (index, worker) => do
    let reply ← perform (.exchange worker payload)
    match ← recoverIfNeeded index worker reply.isOk with
    | .error error => pure (.error error)
    | .ok _ =>
      match reply with
      | .ok response => pure (.ok response)
      | .error _ _ => pure (.error (.request index))

end Request

section Broadcast

/-- A scoped thread that sends the payloads to one worker. -/
structure Exchange where
  index : ℕ
  worker : WorkerId
  remaining : List Payload
  result : Except WorkerError (List Payload)

namespace Exchange

def start (payloads : List Payload) (worker : ℕ × WorkerId) : Exchange :=
  ⟨worker.1, worker.2, payloads, .ok []⟩

def responses (exchange : Exchange) : List Payload :=
  match exchange.result with
  | .ok responses => responses
  | .error _ => []

def error? (exchange : Exchange) : Option WorkerError :=
  match exchange.result with
  | .ok _ => none
  | .error error => some error

def step (group : Option ℕ) (exchange : Exchange) : Action Exchange :=
  match exchange.remaining with
  | [] => pure exchange
  | payload :: payloads => do
    match ← perform (.send exchange.index exchange.worker ⟨group, payload⟩) with
    | .error _ _ =>
      pure { exchange with remaining := [], result := .error (.request exchange.worker) }
    | .ok response =>
      pure { exchange with
        remaining := payloads
        result := .ok (exchange.responses ++ [response]) }

def steps (group : Option ℕ) : ℕ → Exchange → Action Exchange
  | 0, exchange => pure exchange
  | n + 1, exchange => do
    let exchange ← exchange.step group
    steps group n exchange

def finish (group : Option ℕ) (exchange : Exchange) : Action Exchange :=
  steps group exchange.remaining.length exchange

end Exchange

/-- The workers of the slots, restarted where they are not running. -/
def takeWorkers : List ℕ → Action (Except WorkerError (List (ℕ × WorkerId)))
  | [] => pure (.ok [])
  | index :: indexes => do
    match ← ensureRunning index with
    | .error error => pure (.error error)
    | .ok worker => do
      perform (.takeWorker worker)
      match ← takeWorkers indexes with
      | .error error => pure (.error error)
      | .ok workers => pure (.ok ((index, worker) :: workers))

/-- Recovers the workers that failed and returns the first error. -/
def recoverAll : List Exchange → Option WorkerError → Action (Option WorkerError)
  | [], firstError => pure firstError
  | exchange :: exchanges, firstError => do
    match ← recoverIfNeeded exchange.index exchange.worker exchange.error?.isNone with
    | .error error => recoverAll exchanges ((firstError.or (some error)).or exchange.error?)
    | .ok _ => recoverAll exchanges (firstError.or exchange.error?)

/-- The responses of the workers to each payload. -/
def responseRows (payloads : List Payload) (exchanges : List Exchange) : List (List Payload) :=
  (List.range payloads.length).map fun i => exchanges.filterMap fun exchange =>
    exchange.responses[i]?

/-- What is recorded: the payloads with the responses of the first worker. -/
def replacements (group : Option ℕ) (payloads : List Payload) (rows : List (List Payload)) :
    List Bootstrap :=
  (payloads.zip rows).filterMap fun (request, responses) =>
    responses.head?.map fun response => ⟨group, request, response⟩

def broadcastLocked (group : Option ℕ) (payloads : List Payload) :
    Action (Except WorkerError (List (List Payload))) := do
  if (← perform .loadState) ≠ .running then pure (.error .unavailable)
  else
    let activeWorkers ← perform .loadActive
    match ← takeWorkers (List.range activeWorkers) with
    | .error error => pure (.error error)
    | .ok workers => do
      let exchanges ← Program.concurrently pick (Exchange.step group) (Exchange.finish group)
        (workers.map (Exchange.start payloads))
      match ← recoverAll exchanges none with
      | some error => pure (.error error)
      | none => do
        let rows := responseRows payloads exchanges
        perform (.record group (replacements group payloads rows))
        pure (.ok rows)

/-- The end of a broadcast. -/
def endBroadcast {α : Type} (result : Except WorkerError α) : Action (Except WorkerError α) := do
  perform (.endBroadcast result.isOk)
  pure result

def broadcastInner (maximumPayloadSize : ℕ) (group : Option ℕ) (payloads : List Payload) :
    Action (Except WorkerError (List (List Payload))) := do
  perform (.beginBroadcast group payloads)
  if (← perform .loadState) ≠ .running then endBroadcast (.error .unavailable)
  else if payloads.isEmpty then endBroadcast (.ok [])
  else
    match payloads.find? fun payload => decide (maximumPayloadSize < payload.length) with
    | some payload => endBroadcast (.error (.frameTooLarge payload.length maximumPayloadSize))
    | none => do
      perform .lockGrowth
      let result ← broadcastLocked group payloads
      let result ← endBroadcast result
      perform .unlockGrowth
      pure result

def broadcast (maximumPayloadSize : ℕ) (payload : Payload) :
    Action (Except WorkerError (List Payload)) := do
  match ← broadcastInner maximumPayloadSize none [payload] with
  | .error error => pure (.error error)
  | .ok responses => pure (.ok (responses.getLast?.getD []))

def broadcastSequence (maximumPayloadSize group : ℕ) (payloads : List Payload) :
    Action (Except WorkerError (List (List Payload))) :=
  broadcastInner maximumPayloadSize (some group) payloads

end Broadcast

section Shutdown

/-- The workers of the slots, an error where one is not running. -/
def runningWorkers : List ℕ → Action (Except WorkerError (List WorkerId))
  | [] => pure (.ok [])
  | index :: indexes => do
    match ← perform (.readSlot index) with
    | none => pure (.error (.reduction index))
    | some worker => do
      if ← perform (.isRunning worker) then
        match ← runningWorkers indexes with
        | .error error => pure (.error error)
        | .ok workers => pure (.ok (worker :: workers))
      else pure (.error (.reduction index))

/-- Asks every worker for its state; an error where one does not answer or is inconsistent. -/
def collectReductions (request : Payload) : List WorkerId → Action (Option WorkerError)
  | [] => pure none
  | worker :: workers => do
    let reply ← perform (.exchange worker request)
    let consistent ← perform .choose
    let error ← collectReductions request workers
    if reply.isOk && consistent then pure error else pure (some (.reduction worker))

/-- The followers are stopped before the leader reduces what was collected. -/
def reduceWorkerState (request : Payload) : Action (Except WorkerError Unit) := do
  let activeWorkers ← perform .loadActive
  match ← runningWorkers (List.range activeWorkers) with
  | .error error => pure (.error error)
  | .ok [] => pure (.ok ())
  | .ok (leader :: followers) => do
    match ← collectReductions request (leader :: followers) with
    | some error => pure (.error error)
    | none => do
      let hasReducers ← perform .choose
      if hasReducers then
        shutdownWorkers followers
        let reply ← perform (.exchange leader request)
        if reply.isOk then pure (.ok ()) else pure (.error (.reduction leader))
      else pure (.ok ())

def lookSlots : List ℕ → Action (List WorkerId)
  | [] => pure []
  | index :: indexes => do
    let worker ← perform (.lookSlot index)
    let workers ← lookSlots indexes
    pure (worker.toList ++ workers)

def shutdown (capacity : ℕ) (request : Payload) : Action Unit := do
  if ← perform .finalize then
    perform .lockGrowth
    let workerReduction ← perform .choose
    if workerReduction then
      let _ ← reduceWorkerState request
      stopWorkers
    else stopWorkers
  else pure ()
where
  stopWorkers : Action Unit := do
    perform (.storeState .stopping)
    let workers ← lookSlots (List.range capacity)
    shutdownWorkers workers
    perform (.storeState .stopped)
    perform .unlockGrowth

end Shutdown

/-- What threads do with a pool. -/
inductive Operation (capacity maximumPayloadSize : ℕ) : Action Unit → Prop
  | request (payload : Payload) :
      Operation capacity maximumPayloadSize (requestInner capacity payload >>= fun _ => pure ())
  | broadcast (payload : Payload) :
      Operation capacity maximumPayloadSize
        (broadcast maximumPayloadSize payload >>= fun _ => pure ())
  | broadcastSequence (group : ℕ) (payloads : List Payload) :
      Operation capacity maximumPayloadSize
        (broadcastSequence maximumPayloadSize group payloads >>= fun _ => pure ())
  | growTo (target : ℕ) :
      Operation capacity maximumPayloadSize (growTo capacity target >>= fun _ => pure ())
  | shutdown (request : Payload) : Operation capacity maximumPayloadSize (shutdown capacity request)

/-- Workers crash at any time. -/
def Crash (pool pool' : WorkerPool) : Prop :=
  ∃ worker, pool' = pool.setWorker worker Worker.fail

def poolSystem (capacity maximumPayloadSize : ℕ) : System Command Command.Answer WorkerPool where
  exec := exec
  environment := Crash
  operation := Operation capacity maximumPayloadSize

end Mago.Extension
