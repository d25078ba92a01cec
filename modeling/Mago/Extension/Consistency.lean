import Mago.Extension.Lifecycle
import Mago.Library.Replay

/-!
# Workers are initialised alike

A broadcast reaches the workers of the active slots, and workers that are started later replay what
was recorded. Where no worker replays an old record into a slot that a broadcast has taken, the
workers in the slots agree with the record whenever no broadcast goes on.
-/
namespace Mago.Extension
open Mago.Library

variable {capacity t : ℕ} {pool pool' : WorkerPool} {l l' : Local} {locals locals' : ℕ → Local}

/-- The messages that are recorded for workers to come. -/
def WorkerPool.recorded (pool : WorkerPool) : List Message := pool.bootstraps.map Bootstrap.message

theorem message_recordBootstraps (group : Option ℕ) (replacements bootstraps : List Bootstrap) :
    (recordBootstraps group replacements bootstraps).map Bootstrap.message =
      replaceGroup Message.group group (replacements.map Bootstrap.message)
        (bootstraps.map Bootstrap.message) := by
  unfold recordBootstraps replaceGroup
  rw [List.map_append]
  congr 1
  split_ifs
  · rw [List.filter_map]
    rfl
  · rfl

theorem Broadcast.group_of_mem_messages {broadcast : Broadcast} {message : Message}
    (h : message ∈ broadcast.messages) : message.group = broadcast.group := by
  obtain ⟨payload, -, rfl⟩ := List.mem_map.mp h
  rfl

/-- What a step of a thread does to the messages of workers. -/
inductive Deed (t : ℕ) (command : Command) (pool pool' : WorkerPool) (l l' : Local) : Prop
  | still (hbootstraps : pool'.bootstraps = pool.bootstraps) (hslots : pool'.slots = pool.slots)
      (htaken : pool'.taken = pool.taken) (hbroadcasting : pool'.broadcasting = pool.broadcasting)
      (hfailed : pool'.failed = pool.failed)
      (hprocessed : ∀ worker, (pool'.workers worker).processed = (pool.workers worker).processed)
      (hrunning : ∀ worker, pool'.IsRunning worker → pool.IsRunning worker)
      (hgrowth : l'.growth = l.growth) (hbroadcast : l'.broadcast = l.broadcast)
      (howned : ∀ worker entry, l'.owned worker = some entry → l.owned worker = some entry)
  | lock (hfree : pool.growth = none) (hpool : pool' = { pool with growth := some t })
      (hgrowth : l.growth = false) (hbroadcast : l'.broadcast = l.broadcast)
      (howned : l'.owned = l.owned)
  | unlock (hpool : pool' = { pool with growth := none, taken := 0 }) (hheld : l.growth = true)
      (hnone : l.broadcast = none) (hbroadcast : l'.broadcast = none) (howned : l'.owned = l.owned)
  | spawn (index : ℕ) (hmay : l.MaySpawn index) (hpool : pool' = { pool with
        workers := Function.update pool.workers pool.started ⟨index, .running, [], some t⟩
        started := pool.started + 1 })
      (hl : l' = l.own pool.started (some (index, .fresh)))
  | clone (worker : WorkerId) (index : ℕ) (hcommand : command = .cloneBootstraps worker)
      (howned : l.owned worker = some (index, .fresh)) (hpool : pool' = pool)
      (hl : l' = l.own worker (some (index, .replaying pool.recorded)))
  | replay (worker : WorkerId) (index : ℕ) (message : Message) (messages : List Message)
      (howned : l.owned worker = some (index, .replaying (message :: messages)))
      (hpool : pool' = pool.setWorker worker (Worker.process message))
      (hl : l' = l.own worker (some (index, .replaying messages)))
  | spoil (worker : WorkerId) (index : ℕ) (progress : Progress)
      (howned : l.owned worker = some (index, progress)) (workers : WorkerId → Worker)
      (hpool : pool' = { pool with workers })
      (hothers : ∀ other, other ≠ worker → workers other = pool.workers other)
      (hrunning : ∀ other, pool'.IsRunning other → pool.IsRunning other)
      (hl : l' = l.own worker (some (index, .broken)))
  | place (worker : WorkerId) (index : ℕ) (howned : l.owned worker = some (index, .replaying []))
      (hbootstraps : pool'.bootstraps = pool.bootstraps)
      (hslots : pool'.slots = Function.update pool.slots index (some worker))
      (htaken : pool'.taken = pool.taken) (hbroadcasting : pool'.broadcasting = pool.broadcasting)
      (hfailed : pool'.failed = pool.failed)
      (hprocessed : ∀ worker, (pool'.workers worker).processed = (pool.workers worker).processed)
      (hrunning : ∀ worker, pool'.IsRunning worker → pool.IsRunning worker)
      (hgrowth : l'.growth = l.growth) (hbroadcast : l'.broadcast = l.broadcast)
      (howned' : l'.owned = (l.own worker none).owned)
  | start (group : Option ℕ) (payloads : List Payload) (hnone : l.broadcast = none)
      (hgrowth : l.growth = false)
      (hpool : pool' = { pool with broadcasting := Function.update pool.broadcasting t true })
      (hl : l' = { l with broadcast := some ⟨group, payloads, [], false⟩ })
  | take (worker : WorkerId) (broadcast : Broadcast) (hbroadcast : l.broadcast = some broadcast)
      (hgrowth : l.growth = true) (hnone : l.owned = fun _ => none)
      (hpayloads : broadcast.payloads ≠ [])
      (hseen : (broadcast.jobs.length, worker) ∈ l.seen)
      (hpool : pool' = { pool with taken := pool.taken + 1 })
      (hl : l' = { l with broadcast := some { broadcast with
        jobs := broadcast.jobs ++ [(worker, broadcast.messages)] } })
  | send (index : ℕ) (worker : WorkerId) (message : Message) (messages : List Message)
      (broadcast : Broadcast) (hbroadcast : l.broadcast = some broadcast)
      (hjob : broadcast.jobs[index]? = some (worker, message :: messages))
      (hrunning : pool.IsRunning worker)
      (hpool : pool' = pool.setWorker worker (Worker.process message))
      (hl : l' = { l with broadcast := some { broadcast with
        jobs := broadcast.jobs.set index (worker, messages) } })
  | fault (broadcast : Broadcast) (hbroadcast : l'.broadcast = some broadcast)
      (hbroken : broadcast.broken = true) (hfailed : pool'.failed = pool.failed)
      (hbroadcasting : pool'.broadcasting = pool.broadcasting) (hsome : l.broadcast.isSome = true)
  | record (broadcast : Broadcast) (hbroadcast : l.broadcast = some broadcast)
      (hgrowth : l.growth = true) (hnone : l.owned = fun _ => none) (hplaced : l.placed = 0)
      (hactive : l.activeWorkers = some broadcast.jobs.length)
      (hdone : ∀ job ∈ broadcast.jobs, job.2 = []) (bootstraps : List Bootstrap)
      (hbootstraps : bootstraps.map Bootstrap.message =
        replaceGroup Message.group broadcast.group broadcast.messages pool.recorded)
      (hpool : pool' = { pool with bootstraps, taken := 0 })
      (hl : l' = { l with broadcast := some { broadcast with jobs := [] } })
  | finish (broadcast : Broadcast) (ok : Bool) (hbroadcast : l.broadcast = some broadcast)
      (hok : ok = true → broadcast.broken = false ∧ broadcast.jobs = [])
      (hpool : pool' = { pool with
        broadcasting := Function.update pool.broadcasting t false
        failed := pool.failed || !ok })
      (hl : l' = { l with broadcast := none })

/-- Steps that touch neither messages nor slots. -/
theorem Deed.of_eq {command : Command} (hbootstraps : pool'.bootstraps = pool.bootstraps)
    (hslots : pool'.slots = pool.slots) (htaken : pool'.taken = pool.taken)
    (hbroadcasting : pool'.broadcasting = pool.broadcasting)
    (hfailed : pool'.failed = pool.failed) (hworkers : pool'.workers = pool.workers)
    (hgrowth : l'.growth = l.growth) (hbroadcast : l'.broadcast = l.broadcast)
    (howned : l'.owned = l.owned) : Deed t command pool pool' l l' :=
  .still hbootstraps hslots htaken hbroadcasting hfailed (fun _ => by rw [hworkers])
    (fun worker h => (isRunning_congr hworkers worker).mp h) hgrowth hbroadcast
    fun _ _ h => by rwa [howned] at h

/-- Steps that only change how far a worker's process is. -/
theorem Deed.of_setWorker {command : Command} (worker : WorkerId) {f : Worker → Worker}
    (hprocessed : ∀ w, (f w).processed = w.processed)
    (hstate : ∀ w, (f w).state = .running → w.state = .running) (hgrowth : l'.growth = l.growth)
    (hbroadcast : l'.broadcast = l.broadcast)
    (howned : ∀ other entry, l'.owned other = some entry → l.owned other = some entry) :
    Deed t command pool (pool.setWorker worker f) l l' := by
  refine .still rfl rfl rfl rfl rfl ?_ ?_ hgrowth hbroadcast howned
  · intro other
    by_cases hother : other = worker
    · subst hother
      simp [WorkerPool.setWorker, hprocessed]
    · simp [WorkerPool.setWorker, Function.update_of_ne hother]
  · intro other hrunning
    by_cases hother : other = worker
    · subst hother
      refine hstate _ ?_
      simpa [WorkerPool.IsRunning, WorkerPool.setWorker] using hrunning
    · simpa [WorkerPool.IsRunning, WorkerPool.setWorker, Function.update_of_ne hother]
        using hrunning

theorem Worker.fail_processed (worker : Worker) : worker.fail.processed = worker.processed := by
  unfold Worker.fail
  split_ifs <;> rfl

theorem Worker.fail_state (worker : Worker) (h : worker.fail.state = .running) :
    worker.state = .running := by
  unfold Worker.fail at h
  split_ifs at h with hrunning
  exact absurd h hrunning

/-- A payload concerns the worker it is sent to. -/
theorem others_of_deliver {worker : WorkerId} {message : Message} {reply : Reply}
    (h : pool.deliver worker message reply = some pool') :
    ∃ workers, pool' = { pool with workers } ∧
      ∀ other, other ≠ worker → workers other = pool.workers other := by
  have hset : ∀ (pool : WorkerPool) (f : Worker → Worker) (other : WorkerId), other ≠ worker →
      (pool.setWorker worker f).workers other = pool.workers other := fun pool f other hother =>
    Function.update_of_ne hother _ _
  cases reply with
  | ok response =>
    obtain ⟨-, hpool'⟩ := Option.ite_none_right_eq_some.mp h
    exact ⟨_, (Option.some.inj hpool').symm, hset pool _⟩
  | error processed crashed =>
    obtain ⟨-, hpool'⟩ := Option.ite_none_left_eq_some.mp h
    obtain rfl := Option.some.inj hpool'
    cases processed <;> cases crashed
    · exact ⟨_, rfl, fun _ _ => rfl⟩
    · exact ⟨_, rfl, hset pool _⟩
    · exact ⟨_, rfl, hset pool _⟩
    · exact ⟨_, rfl, fun other hother => (hset _ _ other hother).trans (hset pool _ other hother)⟩

theorem deed_of_place {command : Command} {worker : WorkerId} {index : ℕ}
    (howned : l.owned worker = some (index, .replaying []))
    (hworkers : pool'.workers = (pool.setWorker worker Worker.place).workers)
    (hbootstraps : pool'.bootstraps = pool.bootstraps)
    (hslots : pool'.slots = Function.update pool.slots index (some worker))
    (htaken : pool'.taken = pool.taken) (hbroadcasting : pool'.broadcasting = pool.broadcasting)
    (hfailed : pool'.failed = pool.failed) (hgrowth : l'.growth = l.growth)
    (hbroadcast : l'.broadcast = l.broadcast) (howned' : l'.owned = (l.own worker none).owned) :
    Deed t command pool pool' l l' := by
  refine .place worker index howned hbootstraps hslots htaken hbroadcasting hfailed ?_ ?_ hgrowth
    hbroadcast howned'
  · intro other
    rw [hworkers]
    by_cases hother : other = worker
    · subst hother
      simp [WorkerPool.setWorker, Worker.place]
    · simp [WorkerPool.setWorker, Function.update_of_ne hother]
  · intro other hrunning
    unfold WorkerPool.IsRunning at hrunning ⊢
    rw [hworkers] at hrunning
    by_cases hother : other = worker
    · subst hother
      simpa [WorkerPool.setWorker, Worker.place] using hrunning
    · simpa [WorkerPool.setWorker, Function.update_of_ne hother] using hrunning

theorem deed_of_exec {command : Command} {answer : command.Answer}
    (hallowed : allowed capacity command l) (hexec : exec t command answer pool = some pool') :
    Deed t command pool pool' l (after command answer l) := by
  cases command with
  | finalize =>
    obtain ⟨-, hpool'⟩ := Option.ite_none_right_eq_some.mp hexec
    obtain rfl := Option.some.inj hpool'
    cases answer <;> exact .of_eq rfl rfl rfl rfl rfl rfl rfl rfl rfl
  | storeState state =>
    obtain rfl := Option.some.inj hexec
    cases state <;> exact .of_eq rfl rfl rfl rfl rfl rfl rfl rfl rfl
  | lockGrowth =>
    obtain ⟨hfree, hpool'⟩ := Option.ite_none_right_eq_some.mp hexec
    exact .lock hfree (Option.some.inj hpool').symm hallowed.1 rfl rfl
  | tryLockGrowth =>
    obtain ⟨hanswer, hpool'⟩ := Option.ite_none_right_eq_some.mp hexec
    obtain rfl := Option.some.inj hpool'
    cases answer with
    | false => exact .of_eq rfl rfl rfl rfl rfl rfl rfl rfl rfl
    | true => exact .lock (of_decide_eq_true hanswer.symm) rfl hallowed.1 rfl rfl
  | unlockGrowth =>
    obtain ⟨hgrowth, -, -, -, hnone, -⟩ := hallowed
    exact .unlock (Option.some.inj hexec).symm hgrowth hnone hnone rfl
  | unlockSlot index replacement =>
    cases replacement with
    | none =>
      obtain rfl := Option.some.inj hexec
      exact .of_eq rfl rfl rfl rfl rfl rfl rfl rfl rfl
    | some worker =>
      obtain rfl := Option.some.inj hexec
      exact deed_of_place hallowed.2.1 rfl rfl rfl rfl rfl rfl rfl rfl rfl
  | storeSlot index worker =>
    obtain ⟨-, hpool'⟩ := Option.ite_none_right_eq_some.mp hexec
    obtain rfl := Option.some.inj hpool'
    exact deed_of_place hallowed.2.2.2.1 rfl rfl rfl rfl rfl rfl rfl rfl rfl
  | isRunning worker =>
    obtain ⟨-, hpool'⟩ := Option.ite_none_right_eq_some.mp hexec
    obtain rfl := Option.some.inj hpool'
    cases answer <;> exact .of_eq rfl rfl rfl rfl rfl rfl rfl rfl rfl
  | spawn index =>
    cases answer with
    | none =>
      obtain rfl := Option.some.inj hexec
      exact .of_eq rfl rfl rfl rfl rfl rfl rfl rfl rfl
    | some worker =>
      obtain ⟨rfl, hpool'⟩ := Option.ite_none_right_eq_some.mp hexec
      exact .spawn index hallowed (Option.some.inj hpool').symm rfl
  | beginShutdown worker =>
    obtain rfl := Option.some.inj hexec
    refine .of_setWorker worker ?_ ?_ rfl rfl fun _ _ h => h
    · intro w
      unfold Worker.beginShutdown
      split <;> rfl
    · intro w hrunning
      unfold Worker.beginShutdown at hrunning
      split at hrunning <;> simp_all
  | finishShutdown worker =>
    obtain rfl := Option.some.inj hexec
    refine .of_setWorker worker (fun _ => rfl) (fun _ h => by cases h) rfl rfl ?_
    intro other entry howned
    by_cases hother : other = worker
    · subst hother
      have hnone : (after (.finishShutdown other) answer l).owned other = none := by
        show Function.update l.owned other none other = none
        exact Function.update_self _ _ _
      rw [hnone] at howned
      cases howned
    · rw [← howned]
      exact (Function.update_of_ne hother _ _).symm
  | cloneBootstraps worker =>
    obtain ⟨hanswer, hpool'⟩ := Option.ite_none_right_eq_some.mp hexec
    obtain ⟨index, howned, -⟩ := hallowed
    subst hanswer
    refine .clone worker index rfl howned (Option.some.inj hpool').symm ?_
    show l.own worker _ = _
    rw [howned]
    rfl
  | replay worker message =>
    obtain ⟨index, messages, howned⟩ := hallowed
    cases answer with
    | ok response =>
      obtain ⟨-, hpool'⟩ := Option.ite_none_right_eq_some.mp hexec
      refine .replay worker index message messages howned (Option.some.inj hpool').symm ?_
      show l.own worker _ = _
      rw [howned]
      rfl
    | error processed crashed =>
      have hdeliver : pool.deliver worker message (.error processed crashed) = some pool' := hexec
      obtain ⟨workers, hpool', hothers⟩ := others_of_deliver hdeliver
      refine .spoil worker index _ howned workers hpool' hothers (Quiet.deliver hdeliver).running ?_
      show l.own worker _ = _
      rw [howned]
      rfl
  | send index worker message =>
    obtain ⟨broadcast, messages, hbroadcast, hjob⟩ := hallowed
    cases answer with
    | ok response =>
      obtain ⟨hrunning, hpool'⟩ := Option.ite_none_right_eq_some.mp hexec
      refine .send index worker message messages broadcast hbroadcast hjob hrunning
        (Option.some.inj hpool').symm ?_
      show l.setBroadcast _ = _
      rw [Local.setBroadcast, hbroadcast]
      show { l with broadcast := some { broadcast with jobs := broadcast.jobs.modify index _ } } = _
      rw [List.modify_eq_set, hjob]
      rfl
    | error processed crashed =>
      have hdeliver : pool.deliver worker message (.error processed crashed) = some pool' := hexec
      obtain ⟨workers, rfl, -⟩ := others_of_deliver hdeliver
      refine .fault { broadcast with broken := true } ?_ rfl rfl rfl (by rw [hbroadcast]; rfl)
      show (l.setBroadcast _).broadcast = _
      rw [Local.setBroadcast, hbroadcast]
      rfl
  | exchange worker payload =>
    cases answer with
    | ok response =>
      obtain ⟨-, hpool'⟩ := Option.ite_none_right_eq_some.mp hexec
      obtain rfl := Option.some.inj hpool'
      exact .of_eq rfl rfl rfl rfl rfl rfl rfl rfl rfl
    | error processed crashed =>
      obtain rfl := Option.some.inj hexec
      cases crashed with
      | false => exact .of_eq rfl rfl rfl rfl rfl rfl rfl rfl rfl
      | true =>
        exact .of_setWorker worker Worker.fail_processed Worker.fail_state rfl rfl fun _ _ h => h
  | record group replacements =>
    obtain ⟨broadcast, hbroadcast, rfl, hgrowth, -, hnone, hplaced, -, hactive, hdone,
      hmessages⟩ := hallowed
    refine .record broadcast hbroadcast hgrowth hnone hplaced hactive hdone _ ?_
      (Option.some.inj hexec).symm ?_
    · rw [message_recordBootstraps, hmessages]
      rfl
    · show l.setBroadcast _ = _
      rw [Local.setBroadcast, hbroadcast]
      rfl
  | beginBroadcast group payloads =>
    obtain ⟨hnone, hgrowth⟩ := hallowed
    exact .start group payloads hnone hgrowth (Option.some.inj hexec).symm rfl
  | takeWorker worker =>
    obtain ⟨broadcast, hbroadcast, hgrowth, -, hnone, hpayloads, hseen⟩ := hallowed
    refine .take worker broadcast hbroadcast hgrowth hnone hpayloads hseen
      (Option.some.inj hexec).symm ?_
    show l.setBroadcast _ = _
    rw [Local.setBroadcast, hbroadcast]
    rfl
  | endBroadcast ok =>
    obtain ⟨broadcast, hbroadcast, hok⟩ := hallowed
    exact .finish broadcast ok hbroadcast hok (Option.some.inj hexec).symm rfl
  | loadState | loadActive | lockRestart index | lockSlot index | readSlot index
  | lookSlot index =>
    obtain ⟨-, hpool'⟩ := Option.ite_none_right_eq_some.mp hexec
    obtain rfl := Option.some.inj hpool'
    exact .of_eq rfl rfl rfl rfl rfl rfl rfl rfl rfl
  | storeActive n | unlockRestart index | choose | pick =>
    obtain rfl := Option.some.inj hexec
    exact .of_eq rfl rfl rfl rfl rfl rfl rfl rfl rfl

/-! ## What the workers have processed -/

/-- No broadcast has failed, and none is bound to. -/
structure Sane (pool : WorkerPool) (locals : ℕ → Local) : Prop where
  failed : pool.failed = false
  broken : ∀ t broadcast, (locals t).broadcast = some broadcast → broadcast.broken = false

/-- The worker of a broadcast is in its slot and has processed what it was sent. -/
structure Intact (pool : WorkerPool) (locals : ℕ → Local) (broadcast : Broadcast) (index : ℕ)
    (worker : WorkerId) (messages : List Message) : Prop where
  slot : pool.slots index = some worker
  alone : ∀ t other rest, (locals t).owned other ≠ some (index, .replaying rest)
  processed : ∃ history sent, broadcast.messages = sent ++ messages ∧
    (pool.workers worker).processed = history ++ sent ∧
      Replays Message.group history pool.recorded

/-- The worker of a broadcast is dead before it was sent anything. -/
def Lost (pool : WorkerPool) (broadcast : Broadcast) (worker : WorkerId)
    (messages : List Message) : Prop :=
  worker < pool.started ∧ ¬ pool.IsRunning worker ∧ messages = broadcast.messages

structure Fine (pool : WorkerPool) (locals : ℕ → Local) : Prop where
  taken : ∀ t broadcast, (locals t).broadcast = some broadcast → (locals t).growth = true →
    broadcast.jobs.length = pool.taken
  waiting : ∀ t broadcast, (locals t).broadcast = some broadcast → (locals t).growth = false →
    broadcast.jobs = []
  holder : pool.taken ≠ 0 → ∃ t, (locals t).growth = true ∧ (locals t).broadcast ≠ none
  fresh : ∀ t worker index, (locals t).owned worker = some (index, .fresh) →
    (pool.workers worker).processed = []
  replaying : ∀ t worker index messages,
    (locals t).owned worker = some (index, .replaying messages) →
      (pool.workers worker).processed ++ messages = pool.recorded
  beyond : ∀ t broadcast worker index progress, (locals t).broadcast = some broadcast →
    (locals t).owned worker = some (index, progress) → broadcast.jobs.length ≤ index
  placed : ∀ index worker, pool.slots index = some worker → pool.taken ≤ index →
    Replays Message.group (pool.workers worker).processed pool.recorded
  nonempty : ∀ t broadcast, (locals t).broadcast = some broadcast → broadcast.jobs ≠ [] →
    broadcast.payloads ≠ []
  jobs : ∀ t broadcast index worker messages, (locals t).broadcast = some broadcast →
    broadcast.jobs[index]? = some (worker, messages) →
      Intact pool locals broadcast index worker messages ∨ Lost pool broadcast worker messages

theorem Fine.still (h : Fine pool locals) (hbootstraps : pool'.bootstraps = pool.bootstraps)
    (hslots : pool'.slots = pool.slots) (htaken : pool'.taken = pool.taken)
    (hstarted : pool.started ≤ pool'.started)
    (hprocessed : ∀ worker, (pool'.workers worker).processed = (pool.workers worker).processed)
    (hrunning : ∀ worker, pool'.IsRunning worker → pool.IsRunning worker)
    (hgrowth : ∀ t, (locals' t).growth = (locals t).growth)
    (hbroadcast : ∀ t, (locals' t).broadcast = (locals t).broadcast)
    (howned : ∀ t worker entry, (locals' t).owned worker = some entry →
      (locals t).owned worker = some entry) : Fine pool' locals' := by
  have hrecorded : pool'.recorded = pool.recorded := by
    unfold WorkerPool.recorded
    rw [hbootstraps]
  refine ⟨?_, ?_, ?_, ?_, ?_, ?_, ?_, ?_, ?_⟩
  · intro t
    rw [hbroadcast, hgrowth, htaken]
    exact h.taken t
  · intro t
    rw [hbroadcast, hgrowth]
    exact h.waiting t
  · intro hne
    rw [htaken] at hne
    obtain ⟨t, hheld, hsome⟩ := h.holder hne
    exact ⟨t, by rwa [hgrowth], by rwa [hbroadcast]⟩
  · intro t worker index hfresh
    rw [hprocessed]
    exact h.fresh t worker index (howned t worker _ hfresh)
  · intro t worker index messages hreplaying
    rw [hprocessed, hrecorded]
    exact h.replaying t worker index messages (howned t worker _ hreplaying)
  · intro t broadcast worker index progress hsome hentry
    rw [hbroadcast] at hsome
    exact h.beyond t broadcast worker index progress hsome (howned t worker _ hentry)
  · intro index worker
    rw [hslots, htaken, hprocessed, hrecorded]
    exact h.placed index worker
  · intro t
    rw [hbroadcast]
    exact h.nonempty t
  · intro t broadcast index worker messages hsome hjob
    rw [hbroadcast] at hsome
    rcases h.jobs t broadcast index worker messages hsome hjob with hintact | ⟨hlt, hdead, hall⟩
    · refine .inl ⟨by rw [hslots]; exact hintact.slot, ?_, ?_⟩
      · intro t' other rest hreplaying
        exact hintact.alone t' other rest (howned t' other _ hreplaying)
      · rw [hprocessed, hrecorded]
        exact hintact.processed
    · exact .inr ⟨hlt.trans_le hstarted, fun hrun => hdead (hrunning worker hrun), hall⟩

theorem Fine.index_lt (h : Fine pool locals) {broadcast : Broadcast} {index : ℕ}
    {job : WorkerId × List Message} (hsome : (locals t).broadcast = some broadcast)
    (hjob : broadcast.jobs[index]? = some job) :
    (locals t).growth = true ∧ index < pool.taken := by
  have hlt : index < broadcast.jobs.length := (List.getElem?_eq_some_iff.mp hjob).1
  cases hgrowth : (locals t).growth with
  | false =>
    rw [h.waiting t broadcast hsome hgrowth] at hlt
    exact absurd hlt (Nat.not_lt_zero _)
  | true => exact ⟨rfl, h.taken t broadcast hsome hgrowth ▸ hlt⟩

/-- A thread gets further with a worker that is in no slot. -/
theorem Fine.own (h : Fine pool locals) {worker : WorkerId} {index : ℕ} {progress : Progress}
    (hbootstraps : pool'.bootstraps = pool.bootstraps) (hslots : pool'.slots = pool.slots)
    (htaken : pool'.taken = pool.taken) (hstarted : pool.started ≤ pool'.started)
    (hvacant : ∀ index, pool.slots index ≠ some worker)
    (hprocessed : ∀ other, other ≠ worker →
      (pool'.workers other).processed = (pool.workers other).processed)
    (hrunning : ∀ other, other < pool.started → pool'.IsRunning other → pool.IsRunning other)
    (hlocals : ∀ t', t' ≠ t → locals' t' = locals t')
    (hl : locals' t = (locals t).own worker (some (index, progress)))
    (hothers : ∀ t', t' ≠ t → (locals t').owned worker = none)
    (hfresh : progress = .fresh → (pool'.workers worker).processed = [])
    (hreplaying : ∀ messages, progress = .replaying messages →
      (pool'.workers worker).processed ++ messages = pool.recorded ∧
        (pool.taken ≤ index ∨ ∃ messages', (locals t).owned worker =
          some (index, .replaying messages')))
    (hbeyond : ∀ broadcast, (locals t).broadcast = some broadcast →
      broadcast.jobs.length ≤ index) : Fine pool' locals' := by
  have hrecorded : pool'.recorded = pool.recorded := by
    unfold WorkerPool.recorded
    rw [hbootstraps]
  have hgrowth : ∀ t', (locals' t').growth = (locals t').growth := by
    intro t'
    by_cases ht : t' = t
    · rw [ht, hl]
      rfl
    · rw [hlocals t' ht]
  have hbroadcast : ∀ t', (locals' t').broadcast = (locals t').broadcast := by
    intro t'
    by_cases ht : t' = t
    · rw [ht, hl]
      rfl
    · rw [hlocals t' ht]
  have howned : ∀ t' other entry, (locals' t').owned other = some entry →
      t' = t ∧ other = worker ∧ entry = (index, progress) ∨
        other ≠ worker ∧ (locals t').owned other = some entry := by
    intro t' other entry hsome
    by_cases ht : t' = t
    · subst ht
      rw [hl] at hsome
      by_cases hother : other = worker
      · subst hother
        rw [owned_own] at hsome
        exact .inl ⟨rfl, rfl, (Option.some.inj hsome).symm⟩
      · rw [owned_own_of_ne hother] at hsome
        exact .inr ⟨hother, hsome⟩
    · rw [hlocals t' ht] at hsome
      refine .inr ⟨?_, hsome⟩
      rintro rfl
      rw [hothers t' ht] at hsome
      cases hsome
  refine ⟨?_, ?_, ?_, ?_, ?_, ?_, ?_, ?_, ?_⟩
  · intro t'
    rw [hbroadcast, hgrowth, htaken]
    exact h.taken t'
  · intro t'
    rw [hbroadcast, hgrowth]
    exact h.waiting t'
  · intro hne
    rw [htaken] at hne
    obtain ⟨t', hheld, hsome⟩ := h.holder hne
    exact ⟨t', by rwa [hgrowth], by rwa [hbroadcast]⟩
  · intro t' other index' hentry
    rcases howned t' other _ hentry with ⟨rfl, rfl, hsame⟩ | ⟨hother, hold⟩
    · exact hfresh (Prod.mk.inj hsame).2.symm
    · rw [hprocessed other hother]
      exact h.fresh t' other index' hold
  · intro t' other index' messages hentry
    rw [hrecorded]
    rcases howned t' other _ hentry with ⟨rfl, rfl, hsame⟩ | ⟨hother, hold⟩
    · exact (hreplaying messages (Prod.mk.inj hsame).2.symm).1
    · rw [hprocessed other hother]
      exact h.replaying t' other index' messages hold
  · intro t' broadcast other index' progress' hsome hentry
    rw [hbroadcast] at hsome
    rcases howned t' other _ hentry with ⟨rfl, rfl, hsame⟩ | ⟨-, hold⟩
    · rw [(Prod.mk.inj hsame).1]
      exact hbeyond broadcast hsome
    · exact h.beyond t' broadcast other index' progress' hsome hold
  · intro index' other hslot
    have hother : other ≠ worker := by
      rintro rfl
      exact hvacant index' (hslots ▸ hslot)
    rw [hprocessed other hother, hrecorded, htaken]
    exact h.placed index' other (hslots ▸ hslot)
  · intro t'
    rw [hbroadcast]
    exact h.nonempty t'
  · intro t' broadcast index' other messages hsome hjob
    rw [hbroadcast] at hsome
    rcases h.jobs t' broadcast index' other messages hsome hjob with hintact | ⟨hlt, hdead, hall⟩
    · have hother : other ≠ worker := by
        rintro rfl
        exact hvacant index' hintact.slot
      refine .inl ⟨by rw [hslots]; exact hintact.slot, ?_, ?_⟩
      · intro t'' other' rest hentry
        rcases howned t'' other' _ hentry with ⟨rfl, rfl, hsame⟩ | ⟨-, hold⟩
        · obtain ⟨rfl, hprogress⟩ := Prod.mk.inj hsame
          rcases (hreplaying rest hprogress.symm).2 with hbehind | ⟨messages', hbefore⟩
          · exact absurd (h.index_lt hsome hjob).2 (not_lt.mpr hbehind)
          · exact hintact.alone _ _ messages' hbefore
        · exact hintact.alone t'' other' rest hold
      · rw [hprocessed other hother, hrecorded]
        exact hintact.processed
    · exact .inr ⟨hlt.trans_le hstarted, fun hrun => hdead (hrunning other hlt hrun), hall⟩

/-- A worker that has replayed the record comes into a slot. -/
theorem Fine.place (h : Fine pool locals) {worker : WorkerId} {index : ℕ}
    (hentry : (locals t).owned worker = some (index, .replaying []))
    (hbootstraps : pool'.bootstraps = pool.bootstraps)
    (hslots : pool'.slots = Function.update pool.slots index (some worker))
    (htaken : pool'.taken = pool.taken) (hstarted : pool.started ≤ pool'.started)
    (hprocessed : ∀ worker, (pool'.workers worker).processed = (pool.workers worker).processed)
    (hrunning : ∀ worker, pool'.IsRunning worker → pool.IsRunning worker)
    (hgrowth : ∀ t, (locals' t).growth = (locals t).growth)
    (hbroadcast : ∀ t, (locals' t).broadcast = (locals t).broadcast)
    (howned : ∀ t worker entry, (locals' t).owned worker = some entry →
      (locals t).owned worker = some entry) : Fine pool' locals' := by
  -- Nothing but the slot is different, and no broadcast has an intact worker there.
  have hfine : Fine { pool' with slots := pool.slots } locals' :=
    h.still hbootstraps rfl htaken hstarted hprocessed hrunning hgrowth hbroadcast howned
  refine ⟨hfine.taken, hfine.waiting, hfine.holder, hfine.fresh, hfine.replaying, hfine.beyond,
    ?_, hfine.nonempty, ?_⟩
  · intro index' other hslot hbehind
    by_cases hindex : index' = index
    · subst hindex
      rw [hslots, Function.update_self] at hslot
      obtain rfl := Option.some.inj hslot
      have hall := h.replaying t worker index' [] hentry
      rw [List.append_nil] at hall
      rw [hprocessed, hall, WorkerPool.recorded, WorkerPool.recorded, hbootstraps]
      exact .replay _
    · rw [hslots, Function.update_of_ne hindex] at hslot
      exact hfine.placed index' other hslot hbehind
  · intro t' broadcast index' other messages hsome hjob
    rw [hbroadcast] at hsome
    rcases h.jobs t' broadcast index' other messages hsome hjob with hintact | ⟨hlt, hdead, hall⟩
    · have hindex : index' ≠ index := by
        rintro rfl
        exact hintact.alone t worker [] hentry
      refine .inl ⟨?_, ?_, ?_⟩
      · rw [hslots, Function.update_of_ne hindex]
        exact hintact.slot
      · intro t'' other' rest hreplaying
        exact hintact.alone t'' other' rest (howned t'' other' _ hreplaying)
      · rw [hprocessed, WorkerPool.recorded, hbootstraps]
        exact hintact.processed
    · exact .inr ⟨hlt.trans_le hstarted, fun hrun => hdead (hrunning other hrun), hall⟩

/-- No broadcast has taken workers. -/
theorem Fine.calm (h : Fine pool locals) (hnone : pool.taken = 0) (htaken : pool'.taken = 0)
    (hbootstraps : pool'.bootstraps = pool.bootstraps) (hslots : pool'.slots = pool.slots)
    (hworkers : pool'.workers = pool.workers)
    (hbroadcast : ∀ t, (locals' t).broadcast = (locals t).broadcast)
    (howned : ∀ t, (locals' t).owned = (locals t).owned) : Fine pool' locals' := by
  have hrecorded : pool'.recorded = pool.recorded := by
    unfold WorkerPool.recorded
    rw [hbootstraps]
  have hjobs : ∀ t broadcast, (locals' t).broadcast = some broadcast → broadcast.jobs = [] := by
    intro t broadcast hsome
    rw [hbroadcast] at hsome
    cases hgrowth : (locals t).growth with
    | false => exact h.waiting t broadcast hsome hgrowth
    | true =>
      have hlength := h.taken t broadcast hsome hgrowth
      rw [hnone] at hlength
      exact List.eq_nil_of_length_eq_zero hlength
  refine ⟨?_, fun t broadcast hsome _ => hjobs t broadcast hsome, fun hne => absurd htaken hne,
    ?_, ?_, ?_, ?_, ?_, ?_⟩
  · intro t broadcast hsome _
    rw [hjobs t broadcast hsome, htaken]
    rfl
  · intro t
    rw [howned, hworkers]
    exact h.fresh t
  · intro t
    rw [howned, hworkers, hrecorded]
    exact h.replaying t
  · intro t broadcast worker index progress hsome _
    rw [hjobs t broadcast hsome]
    exact Nat.zero_le _
  · intro index worker hslot _
    rw [hworkers, hrecorded]
    exact h.placed index worker (hslots ▸ hslot) (hnone ▸ Nat.zero_le _)
  · intro t broadcast hsome hne
    exact absurd (hjobs t broadcast hsome) hne
  · intro t broadcast index worker messages hsome hjob
    rw [hjobs t broadcast hsome] at hjob
    cases hjob

/-- A broadcast that has taken no workers begins or ends. -/
theorem Fine.swap (h : Fine pool locals) (hbootstraps : pool'.bootstraps = pool.bootstraps)
    (hslots : pool'.slots = pool.slots) (htaken : pool'.taken = pool.taken)
    (hstarted : pool'.started = pool.started) (hworkers : pool'.workers = pool.workers)
    (hothers : ∀ t', t' ≠ t → locals' t' = locals t')
    (hgrowth : (locals' t).growth = (locals t).growth)
    (howned : (locals' t).owned = (locals t).owned)
    (hold : ∀ broadcast, (locals t).broadcast = some broadcast → broadcast.jobs = [])
    (hnew : ∀ broadcast, (locals' t).broadcast = some broadcast →
      broadcast.jobs = [] ∧ (locals t).growth = false) : Fine pool' locals' := by
  have hrecorded : pool'.recorded = pool.recorded := by
    unfold WorkerPool.recorded
    rw [hbootstraps]
  have howned' : ∀ t', (locals' t').owned = (locals t').owned := by
    intro t'
    by_cases ht : t' = t
    · rw [ht, howned]
    · rw [hothers t' ht]
  refine ⟨?_, ?_, ?_, ?_, ?_, ?_, ?_, ?_, ?_⟩
  · intro t' broadcast hsome hheld
    by_cases ht : t' = t
    · subst ht
      rw [hgrowth, (hnew broadcast hsome).2] at hheld
      cases hheld
    · rw [hothers t' ht] at hsome hheld
      rw [htaken]
      exact h.taken t' broadcast hsome hheld
  · intro t' broadcast hsome hfree
    by_cases ht : t' = t
    · subst ht
      exact (hnew broadcast hsome).1
    · rw [hothers t' ht] at hsome hfree
      exact h.waiting t' broadcast hsome hfree
  · intro hne
    rw [htaken] at hne
    obtain ⟨t', hheld, hsome⟩ := h.holder hne
    by_cases ht : t' = t
    · subst ht
      obtain ⟨broadcast, hbroadcast⟩ := Option.ne_none_iff_exists'.mp hsome
      have hlength := h.taken t' broadcast hbroadcast hheld
      rw [hold broadcast hbroadcast] at hlength
      exact absurd hlength.symm hne
    · exact ⟨t', by rwa [hothers t' ht], by rwa [hothers t' ht]⟩
  · intro t'
    rw [howned', hworkers]
    exact h.fresh t'
  · intro t'
    rw [howned', hworkers, hrecorded]
    exact h.replaying t'
  · intro t' broadcast worker index progress hsome hentry
    by_cases ht : t' = t
    · subst ht
      rw [(hnew broadcast hsome).1]
      exact Nat.zero_le _
    · rw [hothers t' ht] at hsome hentry
      exact h.beyond t' broadcast worker index progress hsome hentry
  · intro index worker
    rw [hslots, htaken, hworkers, hrecorded]
    exact h.placed index worker
  · intro t' broadcast hsome hne
    by_cases ht : t' = t
    · subst ht
      exact absurd (hnew broadcast hsome).1 hne
    · rw [hothers t' ht] at hsome
      exact h.nonempty t' broadcast hsome hne
  · intro t' broadcast index worker messages hsome hjob
    have ht : t' ≠ t := by
      rintro rfl
      rw [(hnew broadcast hsome).1] at hjob
      cases hjob
    rw [hothers t' ht] at hsome
    rcases h.jobs t' broadcast index worker messages hsome hjob with hintact | ⟨hlt, hdead, hall⟩
    · refine .inl ⟨by rw [hslots]; exact hintact.slot, ?_, ?_⟩
      · intro t'' other rest
        rw [howned']
        exact hintact.alone t'' other rest
      · rw [hworkers, hrecorded]
        exact hintact.processed
    · refine .inr ⟨by rwa [hstarted], ?_, hall⟩
      rwa [isRunning_congr hworkers]

/-- A worker that was seen in a slot is there still, or it is dead. -/
theorem Fine.new_job (h : Fine pool locals) (hI : Ownership capacity pool locals)
    {worker : WorkerId} {broadcast : Broadcast} {index : ℕ} (hgrowth : (locals t).growth = true)
    (hnone : (locals t).owned = fun _ => none) (hbehind : pool.taken ≤ index)
    (hseen : (index, worker) ∈ (locals t).seen)
    (hothers : ∀ t', t' ≠ t → (locals t').growth = false) :
    Intact pool locals broadcast index worker broadcast.messages ∨
      Lost pool broadcast worker broadcast.messages := by
  obtain ⟨hlt, howner, hid, -⟩ := (hI.agrees t).seen index worker hseen
  by_cases hslot : pool.slots index = some worker
  · by_cases halone : ∀ t' other rest, (locals t').owned other ≠ some (index, .replaying rest)
    · exact .inl ⟨hslot, halone, _, [], rfl, (List.append_nil _).symm,
        h.placed index worker hslot hbehind⟩
    · -- Another thread replaces the worker, which is dead therefore.
      push Not at halone
      obtain ⟨t', other, rest, hentry⟩ := halone
      have ht : t' ≠ t := by
        rintro rfl
        rw [hnone] at hentry
        cases hentry
      obtain ⟨-, -, -, hstarts⟩ := (hI.agrees t').owned other index _ hentry
      rcases hstarts with ⟨-, occupant, hoccupant, hdead⟩ | ⟨-, hheld, -⟩
      · obtain rfl := Option.some.inj (hslot.symm.trans hoccupant)
        exact .inr ⟨hlt, hdead, rfl⟩
      · rw [hothers t' ht] at hheld
        cases hheld
  · refine .inr ⟨hlt, ?_, rfl⟩
    intro hrunning
    exact hslot (hid ▸ (hI.placed.running worker hrunning).2 howner)

/-- A broadcast takes the worker of the next slot, or one that is dead already. -/
theorem Fine.take (h : Fine pool locals) (hI : Ownership capacity pool locals)
    {worker : WorkerId} {broadcast : Broadcast} (hbroadcast : (locals t).broadcast = some broadcast)
    (hgrowth : (locals t).growth = true) (hnone : (locals t).owned = fun _ => none)
    (hpayloads : broadcast.payloads ≠ [])
    (hseen : (broadcast.jobs.length, worker) ∈ (locals t).seen)
    (hothers : ∀ t', t' ≠ t → locals' t' = locals t')
    (hl : locals' t = { locals t with broadcast := some { broadcast with
      jobs := broadcast.jobs ++ [(worker, broadcast.messages)] } }) :
    Fine { pool with taken := pool.taken + 1 } locals' := by
  have hlength := h.taken t broadcast hbroadcast hgrowth
  have hothers' : ∀ t', t' ≠ t → (locals t').growth = false := by
    intro t' ht
    rw [Bool.eq_false_iff]
    intro hheld
    have hsame := ((hI.agrees t').growth.mp hheld).symm.trans ((hI.agrees t).growth.mp hgrowth)
    exact ht (Option.some.inj hsame)
  have howned : ∀ t', (locals' t').owned = (locals t').owned := by
    intro t'
    by_cases ht : t' = t
    · rw [ht, hl]
    · rw [hothers t' ht]
  have hsome' : (locals' t).broadcast = some { broadcast with
      jobs := broadcast.jobs ++ [(worker, broadcast.messages)] } := by rw [hl]
  refine ⟨?_, ?_, ?_, ?_, ?_, ?_, ?_, ?_, ?_⟩
  · intro t' broadcast' hsome hheld
    by_cases ht : t' = t
    · subst ht
      obtain rfl := Option.some.inj (hsome'.symm.trans hsome)
      simp [hlength]
    · rw [hothers t' ht, hothers' t' ht] at hheld
      cases hheld
  · intro t' broadcast' hsome hfree
    have ht : t' ≠ t := by
      rintro rfl
      rw [hl] at hfree
      have hfree' : (locals t').growth = false := hfree
      rw [hgrowth] at hfree'
      cases hfree'
    rw [hothers t' ht] at hsome hfree
    exact h.waiting t' broadcast' hsome hfree
  · intro _
    refine ⟨t, ?_, by simp [hsome']⟩
    rw [hl]
    exact hgrowth
  · intro t'
    rw [howned]
    exact h.fresh t'
  · intro t'
    rw [howned]
    exact h.replaying t'
  · intro t' broadcast' other index progress hsome hentry
    have ht : t' ≠ t := by
      rintro rfl
      rw [howned, hnone] at hentry
      cases hentry
    rw [hothers t' ht] at hsome hentry
    exact h.beyond t' broadcast' other index progress hsome hentry
  · intro index other hslot hbehind
    exact h.placed index other hslot (Nat.le_of_succ_le hbehind)
  · intro t' broadcast' hsome hne
    by_cases ht : t' = t
    · subst ht
      obtain rfl := Option.some.inj (hsome'.symm.trans hsome)
      exact hpayloads
    · rw [hothers t' ht] at hsome
      exact h.nonempty t' broadcast' hsome hne
  · intro t' broadcast' index other messages hsome hjob
    have ht : t' = t := by
      by_contra ht
      rw [hothers t' ht] at hsome
      have hheld := (h.index_lt hsome hjob).1
      rw [hothers' t' ht] at hheld
      cases hheld
    subst ht
    obtain rfl := Option.some.inj (hsome'.symm.trans hsome)
    have hkeep : ∀ {other messages}, Intact pool locals broadcast index other messages ∨
        Lost pool broadcast other messages →
          Intact { pool with taken := pool.taken + 1 } locals' { broadcast with
            jobs := broadcast.jobs ++ [(worker, broadcast.messages)] } index other messages ∨
          Lost { pool with taken := pool.taken + 1 } { broadcast with
            jobs := broadcast.jobs ++ [(worker, broadcast.messages)] } other messages := by
      intro other messages hor
      rcases hor with hintact | hlost
      · refine .inl ⟨hintact.slot, ?_, hintact.processed⟩
        intro t'' other' rest
        rw [howned]
        exact hintact.alone t'' other' rest
      · exact .inr hlost
    rcases lt_or_ge index broadcast.jobs.length with hindex | hindex
    · have hold : broadcast.jobs[index]? = some (other, messages) := by
        rw [← hjob]
        exact (List.getElem?_append_left hindex).symm
      exact hkeep (h.jobs t' broadcast index other messages hbroadcast hold)
    · obtain ⟨rfl, hsame⟩ : index = broadcast.jobs.length ∧
          (worker, broadcast.messages) = (other, messages) := by
        have hlt := (List.getElem?_eq_some_iff.mp hjob).1
        rw [List.length_append, List.length_singleton] at hlt
        obtain rfl : index = broadcast.jobs.length := by omega
        rw [List.getElem?_concat_length] at hjob
        exact ⟨rfl, Option.some.inj hjob⟩
      obtain ⟨rfl, rfl⟩ := Prod.mk.inj hsame
      exact hkeep (h.new_job hI hgrowth hnone hlength.ge hseen hothers')

/-- The worker of a broadcast processes the next message. -/
theorem Fine.send (h : Fine pool locals) (hI : Ownership capacity pool locals) {index : ℕ}
    {worker : WorkerId} {message : Message} {messages : List Message} {broadcast : Broadcast}
    (hbroadcast : (locals t).broadcast = some broadcast)
    (hjob : broadcast.jobs[index]? = some (worker, message :: messages))
    (hrunning : pool.IsRunning worker) (hothers : ∀ t', t' ≠ t → locals' t' = locals t')
    (hl : locals' t = { locals t with broadcast := some { broadcast with
      jobs := broadcast.jobs.set index (worker, messages) } }) :
    Fine (pool.setWorker worker (Worker.process message)) locals' := by
  have hlt := (List.getElem?_eq_some_iff.mp hjob).1
  obtain ⟨hheld, hbehind⟩ := h.index_lt hbroadcast hjob
  have hintact : Intact pool locals broadcast index worker (message :: messages) := by
    rcases h.jobs t broadcast index worker _ hbroadcast hjob with hintact | ⟨-, hdead, -⟩
    · exact hintact
    · exact absurd hrunning hdead
  obtain ⟨-, howner, hid⟩ := hI.placed.slots index worker hintact.slot
  have hprocessed : ∀ other, other ≠ worker →
      ((pool.setWorker worker (Worker.process message)).workers other).processed =
        (pool.workers other).processed := by
    intro other hother
    simp [WorkerPool.setWorker, Function.update_of_ne hother]
  have hself : ((pool.setWorker worker (Worker.process message)).workers worker).processed =
      (pool.workers worker).processed ++ [message] := by
    simp [WorkerPool.setWorker, Worker.process]
  have hvacant : ∀ t' other entry, (locals t').owned other = some entry → other ≠ worker := by
    intro t' other entry hentry
    rintro rfl
    obtain ⟨-, hsome, -⟩ := (hI.agrees t').owned other entry.1 entry.2 hentry
    rw [howner] at hsome
    cases hsome
  have hsome' : (locals' t).broadcast = some { broadcast with
      jobs := broadcast.jobs.set index (worker, messages) } := by rw [hl]
  have hgrowth : ∀ t', (locals' t').growth = (locals t').growth := by
    intro t'
    by_cases ht : t' = t
    · rw [ht, hl]
    · rw [hothers t' ht]
  have howned : ∀ t', (locals' t').owned = (locals t').owned := by
    intro t'
    by_cases ht : t' = t
    · rw [ht, hl]
    · rw [hothers t' ht]
  refine ⟨?_, ?_, ?_, ?_, ?_, ?_, ?_, ?_, ?_⟩
  · intro t' broadcast' hsome hheld'
    rw [hgrowth] at hheld'
    by_cases ht : t' = t
    · subst ht
      obtain rfl := Option.some.inj (hsome'.symm.trans hsome)
      rw [List.length_set]
      exact h.taken t' broadcast hbroadcast hheld'
    · rw [hothers t' ht] at hsome
      exact h.taken t' broadcast' hsome hheld'
  · intro t' broadcast' hsome hfree
    rw [hgrowth] at hfree
    have ht : t' ≠ t := by
      rintro rfl
      rw [hheld] at hfree
      cases hfree
    rw [hothers t' ht] at hsome
    exact h.waiting t' broadcast' hsome hfree
  · intro _
    exact ⟨t, by rw [hgrowth, hheld], by simp [hsome']⟩
  · intro t' other index' hentry
    rw [howned] at hentry
    rw [hprocessed other (hvacant t' other _ hentry)]
    exact h.fresh t' other index' hentry
  · intro t' other index' rest hentry
    rw [howned] at hentry
    rw [hprocessed other (hvacant t' other _ hentry)]
    exact h.replaying t' other index' rest hentry
  · intro t' broadcast' other index' progress hsome hentry
    rw [howned] at hentry
    by_cases ht : t' = t
    · subst ht
      obtain rfl := Option.some.inj (hsome'.symm.trans hsome)
      rw [List.length_set]
      exact h.beyond t' broadcast other index' progress hbroadcast hentry
    · rw [hothers t' ht] at hsome
      exact h.beyond t' broadcast' other index' progress hsome hentry
  · intro index' other hslot hle
    have hother : other ≠ worker := by
      rintro rfl
      obtain ⟨-, -, hid'⟩ := hI.placed.slots index' other hslot
      rw [hid] at hid'
      exact absurd (hid' ▸ hbehind) (not_lt.mpr hle)
    rw [hprocessed other hother]
    exact h.placed index' other hslot hle
  · intro t' broadcast' hsome hne
    by_cases ht : t' = t
    · subst ht
      obtain rfl := Option.some.inj (hsome'.symm.trans hsome)
      refine h.nonempty t' broadcast hbroadcast ?_
      rintro hnil
      rw [hnil] at hlt
      exact absurd hlt (Nat.not_lt_zero _)
    · rw [hothers t' ht] at hsome
      exact h.nonempty t' broadcast' hsome hne
  · intro t' broadcast' index' other rest hsome hjob'
    have ht : t' = t := by
      by_contra ht
      rw [hothers t' ht] at hsome
      have hheld' := (h.index_lt hsome hjob').1
      have hsame := ((hI.agrees t').growth.mp hheld').symm.trans ((hI.agrees t).growth.mp hheld)
      exact ht (Option.some.inj hsame)
    subst ht
    obtain rfl := Option.some.inj (hsome'.symm.trans hsome)
    by_cases hindex : index' = index
    · subst hindex
      rw [List.getElem?_set_self hlt] at hjob'
      obtain ⟨rfl, rfl⟩ := Prod.mk.inj (Option.some.inj hjob')
      obtain ⟨history, sent, hmessages, hall, hreplays⟩ := hintact.processed
      refine .inl ⟨hintact.slot, ?_, history, sent ++ [message], ?_, ?_, hreplays⟩
      · intro t'' other' rest'
        rw [howned]
        exact hintact.alone t'' other' rest'
      · rw [List.append_assoc]
        exact hmessages
      · rw [hself, hall, List.append_assoc]
    · rw [List.getElem?_set_ne (Ne.symm hindex)] at hjob'
      rcases h.jobs t' broadcast index' other rest hbroadcast hjob' with hold | hlost
      · have hother : other ≠ worker := by
          rintro rfl
          obtain ⟨-, -, hid'⟩ := hI.placed.slots index' other hold.slot
          exact hindex (hid'.symm.trans hid)
        refine .inl ⟨hold.slot, ?_, ?_⟩
        · intro t'' other' rest'
          rw [howned]
          exact hold.alone t'' other' rest'
        · rw [hprocessed other hother]
          exact hold.processed
      · obtain ⟨hlt', hdead, hall⟩ := hlost
        refine .inr ⟨hlt', ?_, hall⟩
        exact fun hrun => hdead ((Quiet.process pool worker message).running _ hrun)

/-- All workers of a broadcast have processed its messages when they are recorded. -/
theorem Fine.record (h : Fine pool locals) (hI : Ownership capacity pool locals)
    {broadcast : Broadcast} {bootstraps : List Bootstrap}
    (hbroadcast : (locals t).broadcast = some broadcast) (hgrowth : (locals t).growth = true)
    (hnone : (locals t).owned = fun _ => none) (hzero : (locals t).placed = 0)
    (hactive : (locals t).activeWorkers = some broadcast.jobs.length)
    (hdone : ∀ job ∈ broadcast.jobs, job.2 = [])
    (hbootstraps : bootstraps.map Bootstrap.message =
      replaceGroup Message.group broadcast.group broadcast.messages pool.recorded)
    (hothers : ∀ t', t' ≠ t → locals' t' = locals t')
    (hl : locals' t = { locals t with broadcast := some { broadcast with jobs := [] } }) :
    Fine { pool with bootstraps, taken := 0 } locals' := by
  have hothers' : ∀ t', t' ≠ t → (locals t').growth = false := by
    intro t' ht
    rw [Bool.eq_false_iff]
    intro hheld
    have hsame := ((hI.agrees t').growth.mp hheld).symm.trans ((hI.agrees t).growth.mp hgrowth)
    exact ht (Option.some.inj hsame)
  have hlength : broadcast.jobs.length = pool.activeWorkers :=
    (hI.agrees t).activeWorkers hgrowth _ hactive
  -- Every slot with a worker was taken, and its worker has processed all messages.
  have hintact : ∀ index worker, pool.slots index = some worker →
      Intact pool locals broadcast index worker [] := by
    intro index worker hslot
    have hlt : index < broadcast.jobs.length := by
      have hfilled := ((hI.agrees t).placed hgrowth index).mp (by simp [hslot])
      rw [hzero] at hfilled
      omega
    have hjob : broadcast.jobs[index]? = some (broadcast.jobs[index]) :=
      List.getElem?_eq_getElem hlt
    have hempty := hdone _ (List.getElem_mem hlt)
    rcases hentry : broadcast.jobs[index] with ⟨other, rest⟩
    rw [hentry] at hjob hempty
    obtain rfl : rest = [] := hempty
    rcases h.jobs t broadcast index other [] hbroadcast hjob with hintact | ⟨-, -, hall⟩
    · obtain rfl := Option.some.inj (hslot.symm.trans hintact.slot)
      exact hintact
    · have hpayloads := h.nonempty t broadcast hbroadcast (List.ne_nil_of_length_pos (by omega))
      exact absurd (List.map_eq_nil_iff.mp hall.symm) hpayloads
  have hreplays : ∀ index worker, pool.slots index = some worker →
      Replays Message.group (pool.workers worker).processed (bootstraps.map Bootstrap.message) := by
    intro index worker hslot
    obtain ⟨history, sent, hmessages, hall, hreplays⟩ := (hintact index worker hslot).processed
    rw [List.append_nil] at hmessages
    rw [hall, hbootstraps, ← hmessages]
    refine .batch hreplays _ _ ?_
    intro message hmessage
    exact Broadcast.group_of_mem_messages hmessage
  have hidle : ∀ t' other index rest, (locals t').owned other ≠ some (index, .replaying rest) := by
    intro t' other index rest hentry
    have ht : t' ≠ t := by
      rintro rfl
      rw [hnone] at hentry
      cases hentry
    obtain ⟨-, -, -, hstarts⟩ := (hI.agrees t').owned other index _ hentry
    rcases hstarts with ⟨-, occupant, hoccupant, -⟩ | ⟨-, hheld, -⟩
    · exact (hintact index occupant hoccupant).alone t' other rest hentry
    · rw [hothers' t' ht] at hheld
      cases hheld
  have howned : ∀ t', (locals' t').owned = (locals t').owned := by
    intro t'
    by_cases ht : t' = t
    · rw [ht, hl]
    · rw [hothers t' ht]
  have hjobs : ∀ t' broadcast', (locals' t').broadcast = some broadcast' →
      broadcast'.jobs = [] := by
    intro t' broadcast' hsome
    by_cases ht : t' = t
    · subst ht
      rw [hl] at hsome
      obtain rfl := Option.some.inj hsome
      rfl
    · rw [hothers t' ht] at hsome
      exact h.waiting t' broadcast' hsome (hothers' t' ht)
  refine ⟨?_, fun t' broadcast' hsome _ => hjobs t' broadcast' hsome, fun hne => absurd rfl hne, ?_,
    ?_, ?_, fun index worker hslot _ => hreplays index worker hslot, ?_, ?_⟩
  · intro t' broadcast' hsome _
    rw [hjobs t' broadcast' hsome]
    rfl
  · intro t'
    rw [howned]
    exact h.fresh t'
  · intro t' other index rest hentry
    rw [howned] at hentry
    exact absurd hentry (hidle t' other index rest)
  · intro t' broadcast' other index progress hsome _
    rw [hjobs t' broadcast' hsome]
    exact Nat.zero_le _
  · intro t' broadcast' hsome hne
    exact absurd (hjobs t' broadcast' hsome) hne
  · intro t' broadcast' index worker messages hsome hjob
    rw [hjobs t' broadcast' hsome] at hjob
    cases hjob

section Deeds

variable {command : Command}

theorem Sane.of_deed (hothers : ∀ t', t' ≠ t → locals' t' = locals t')
    (hdeed : Deed t command pool pool' (locals t) (locals' t)) (h : Sane pool' locals') :
    Sane pool locals := by
  have hsame : (∀ broadcast, (locals t).broadcast = some broadcast → broadcast.broken = false) →
      ∀ t' broadcast, (locals t').broadcast = some broadcast → broadcast.broken = false := by
    intro hself t' broadcast hsome
    by_cases ht : t' = t
    · exact hself broadcast (ht ▸ hsome)
    · exact h.broken t' broadcast (by rwa [hothers t' ht])
  have hkeep : (locals' t).broadcast = (locals t).broadcast →
      ∀ t' broadcast, (locals t').broadcast = some broadcast → broadcast.broken = false :=
    fun hbroadcast => hsame fun broadcast hsome => h.broken t broadcast (hbroadcast.trans hsome)
  cases hdeed with
  | still _ _ _ _ hfailed _ _ _ hbroadcast _ => exact ⟨hfailed ▸ h.failed, hkeep hbroadcast⟩
  | lock hfree hpool _ hbroadcast _ =>
    subst hpool
    exact ⟨h.failed, hkeep hbroadcast⟩
  | unlock hpool _ hnone hbroadcast _ =>
    subst hpool
    exact ⟨h.failed, hkeep (hbroadcast.trans hnone.symm)⟩
  | spawn index _ hpool hl =>
    subst hpool
    exact ⟨h.failed, hkeep (by rw [hl]; rfl)⟩
  | clone worker index _ _ hpool hl =>
    subst hpool
    exact ⟨h.failed, hkeep (by rw [hl]; rfl)⟩
  | replay worker index message messages _ hpool hl =>
    subst hpool
    exact ⟨h.failed, hkeep (by rw [hl]; rfl)⟩
  | spoil worker index progress _ workers hpool _ _ hl =>
    subst hpool
    exact ⟨h.failed, hkeep (by rw [hl]; rfl)⟩
  | place worker index _ _ _ _ _ hfailed _ _ _ hbroadcast _ =>
    exact ⟨hfailed ▸ h.failed, hkeep hbroadcast⟩
  | start group payloads hnone _ hpool hl =>
    subst hpool
    refine ⟨h.failed, hsame ?_⟩
    intro broadcast hsome
    rw [hnone] at hsome
    cases hsome
  | take worker broadcast hbroadcast _ _ _ _ hpool hl =>
    subst hpool
    refine ⟨h.failed, hsame ?_⟩
    intro broadcast' hsome
    obtain rfl := Option.some.inj (hbroadcast.symm.trans hsome)
    exact h.broken t { broadcast with jobs := broadcast.jobs ++ [(worker, broadcast.messages)] }
      (by rw [hl])
  | send index worker message messages broadcast hbroadcast _ _ hpool hl =>
    subst hpool
    refine ⟨h.failed, hsame ?_⟩
    intro broadcast' hsome
    obtain rfl := Option.some.inj (hbroadcast.symm.trans hsome)
    exact h.broken t { broadcast with jobs := broadcast.jobs.set index (worker, messages) }
      (by rw [hl])
  | fault broadcast hbroadcast hbroken _ _ _ =>
    have hfalse := h.broken t broadcast hbroadcast
    rw [hbroken] at hfalse
    cases hfalse
  | record broadcast hbroadcast _ _ _ _ _ bootstraps _ hpool hl =>
    subst hpool
    refine ⟨h.failed, hsame ?_⟩
    intro broadcast' hsome
    obtain rfl := Option.some.inj (hbroadcast.symm.trans hsome)
    exact h.broken t { broadcast with jobs := [] } (by rw [hl])
  | finish broadcast ok hbroadcast hok hpool hl =>
    subst hpool
    have hfailed : (pool.failed || !ok) = false := h.failed
    obtain ⟨hfailed, hfine⟩ := Bool.or_eq_false_iff.mp hfailed
    refine ⟨hfailed, hsame ?_⟩
    intro broadcast' hsome
    obtain rfl := Option.some.inj (hbroadcast.symm.trans hsome)
    exact (hok (by simpa using hfine)).1

theorem announced_of_deed (h : ∀ t, pool.broadcasting t = (locals t).broadcast.isSome)
    (hothers : ∀ t', t' ≠ t → locals' t' = locals t')
    (hdeed : Deed t command pool pool' (locals t) (locals' t)) (t' : ℕ) :
    pool'.broadcasting t' = (locals' t').broadcast.isSome := by
  by_cases ht : t' = t
  · subst ht
    cases hdeed with
    | still _ _ _ hbroadcasting _ _ _ _ hbroadcast _ => rw [hbroadcasting, hbroadcast, h]
    | lock hfree hpool _ hbroadcast _ => rw [hpool, hbroadcast, ← h]
    | unlock hpool _ hnone hbroadcast _ => rw [hpool, hbroadcast, ← hnone, ← h]
    | spawn index _ hpool hl => rw [hpool, hl]; exact h t'
    | clone worker index _ _ hpool hl => rw [hpool, hl]; exact h t'
    | replay worker index message messages _ hpool hl => rw [hpool, hl]; exact h t'
    | spoil worker index progress _ workers hpool _ _ hl => rw [hpool, hl]; exact h t'
    | place worker index _ _ _ _ hbroadcasting _ _ _ _ hbroadcast _ =>
      rw [hbroadcasting, hbroadcast, h]
    | start group payloads hnone _ hpool hl =>
      rw [hpool, hl]
      exact Function.update_self _ _ _
    | take worker broadcast hbroadcast _ _ _ _ hpool hl => rw [hpool, hl, h, hbroadcast]; rfl
    | send index worker message messages broadcast hbroadcast _ _ hpool hl =>
      rw [hpool, hl]
      exact (h t').trans (by rw [hbroadcast]; rfl)
    | fault broadcast hbroadcast _ _ hbroadcasting hsome =>
      rw [hbroadcasting, hbroadcast, h, hsome]
      rfl
    | record broadcast hbroadcast _ _ _ _ _ bootstraps _ hpool hl =>
      rw [hpool, hl, h, hbroadcast]
      rfl
    | finish broadcast ok hbroadcast hok hpool hl =>
      rw [hpool, hl]
      exact Function.update_self _ _ _
  · rw [hothers t' ht, ← h t']
    cases hdeed with
    | still _ _ _ hbroadcasting => rw [hbroadcasting]
    | place worker index _ _ _ _ hbroadcasting => rw [hbroadcasting]
    | fault broadcast _ _ _ hbroadcasting => rw [hbroadcasting]
    | lock _ hpool | unlock hpool | spawn _ _ hpool | clone _ _ _ _ hpool
    | replay _ _ _ _ _ hpool | spoil _ _ _ _ _ hpool | take _ _ _ _ _ _ _ hpool
    | send _ _ _ _ _ _ _ _ hpool | record _ _ _ _ _ _ _ _ _ hpool => subst hpool; rfl
    | start _ _ _ _ hpool | finish _ _ _ _ hpool =>
      rw [hpool]
      exact Function.update_of_ne ht _ _

theorem Fine.taken_eq_zero (h : Fine pool locals)
    (hnone : ∀ t, (locals t).growth = true → (locals t).broadcast = none) : pool.taken = 0 := by
  by_contra hne
  obtain ⟨t, hheld, hsome⟩ := h.holder hne
  exact hsome (hnone t hheld)

theorem Fine.deed (h : Fine pool locals) (hI : Ownership capacity pool locals)
    (hsane : Sane pool' locals')
    (hguard : ∀ worker, command = .cloneBootstraps worker →
      pool.growth = some t ∨ pool.taken ≤ (pool.workers worker).id)
    (hstarted : pool.started ≤ pool'.started) (hothers : ∀ t', t' ≠ t → locals' t' = locals t')
    (hdeed : Deed t command pool pool' (locals t) (locals' t)) : Fine pool' locals' := by
  have hsame : ∀ {β : Type} (f : Local → β), f (locals' t) = f (locals t) →
      ∀ t', f (locals' t') = f (locals t') := by
    intro β f hf t'
    by_cases ht : t' = t
    · rw [ht, hf]
    · rw [hothers t' ht]
  have hsub : (∀ worker entry, (locals' t).owned worker = some entry →
        (locals t).owned worker = some entry) → ∀ t' worker entry,
      (locals' t').owned worker = some entry → (locals t').owned worker = some entry := by
    intro hself t' worker entry
    by_cases ht : t' = t
    · subst ht
      exact hself worker entry
    · rw [hothers t' ht]
      exact id
  have hbefore : Sane pool locals := hsane.of_deed hothers hdeed
  -- A worker that a thread owns is in no slot, and no other thread owns it.
  have hvacant : ∀ worker entry, (locals t).owned worker = some entry →
      ∀ index, pool.slots index ≠ some worker := by
    intro worker entry hentry index hslot
    obtain ⟨-, hsome, -⟩ := (hI.agrees t).owned worker entry.1 entry.2 hentry
    rw [(hI.placed.slots index worker hslot).2.1] at hsome
    cases hsome
  have hsole : ∀ worker entry, (locals t).owned worker = some entry →
      ∀ t', t' ≠ t → (locals t').owned worker = none := by
    intro worker entry hentry t' ht
    obtain ⟨-, hsome, -⟩ := (hI.agrees t).owned worker entry.1 entry.2 hentry
    cases hother : (locals t').owned worker with
    | none => rfl
    | some entry' =>
      obtain ⟨-, hsome', -⟩ := (hI.agrees t').owned worker entry'.1 entry'.2 hother
      exact absurd (Option.some.inj (hsome'.symm.trans hsome)) ht
  cases hdeed with
  | still hbootstraps hslots htaken _ _ hprocessed hrunning hgrowth hbroadcast howned =>
    exact h.still hbootstraps hslots htaken hstarted hprocessed hrunning
      (hsame Local.growth hgrowth) (hsame Local.broadcast hbroadcast) (hsub howned)
  | lock hfree hpool _ hbroadcast howned =>
    subst hpool
    have hzero := h.taken_eq_zero fun t' hheld => by
      have hsome := (hI.agrees t').growth.mp hheld
      rw [hfree] at hsome
      cases hsome
    exact h.calm hzero hzero rfl rfl rfl (hsame Local.broadcast hbroadcast)
      (hsame Local.owned howned)
  | unlock hpool hheld hnone hbroadcast howned =>
    subst hpool
    have hzero := h.taken_eq_zero fun t' hheld' => by
      have hlock := (hI.agrees t').growth.mp hheld'
      rw [(hI.agrees t).growth.mp hheld] at hlock
      rwa [← Option.some.inj hlock]
    exact h.calm hzero rfl rfl rfl rfl (hsame Local.broadcast (hbroadcast.trans hnone.symm))
      (hsame Local.owned howned)
  | spawn index hmay hpool hl =>
    subst hpool
    refine h.own rfl rfl rfl hstarted ?_ ?_ ?_ hothers hl ?_ (fun _ => by simp)
      (fun _ hfalse => by cases hfalse) ?_
    · intro index' hslot
      exact lt_irrefl _ (hI.placed.slots index' _ hslot).1
    · intro other hother
      exact congrArg Worker.processed (Function.update_of_ne hother _ _)
    · intro other hlt hrunning
      unfold WorkerPool.IsRunning at hrunning ⊢
      simpa [Function.update_of_ne hlt.ne] using hrunning
    · intro t' _
      cases hentry : (locals t').owned pool.started with
      | none => rfl
      | some entry =>
        exact absurd ((hI.agrees t').owned _ entry.1 entry.2 hentry).1 (lt_irrefl _)
    · intro broadcast hsome
      rcases hmay with ⟨-, -, -, hnone, -⟩ | ⟨-, -, -, -, hrestart⟩
      · rw [hsome] at hnone
        cases hnone
      · refine (hrestart broadcast hsome).resolve_left ?_
        rw [hbefore.broken t broadcast hsome]
        simp
  | clone worker index hcommand howned hpool hl =>
    subst hpool
    have hid := ((hI.agrees t).owned worker index _ howned).2.2.1
    refine h.own rfl rfl rfl hstarted (hvacant worker _ howned) (fun _ _ => rfl)
      (fun _ _ hrunning => hrunning) hothers hl (hsole worker _ howned)
      (fun hfalse => by cases hfalse) ?_ ?_
    · intro messages hmessages
      obtain rfl := Progress.replaying.inj hmessages
      refine ⟨by rw [h.fresh t worker index howned, List.nil_append], .inl ?_⟩
      rcases hguard worker hcommand with hheld | hbehind
      · -- Who has the growth lock broadcasts itself, or nobody has taken a worker.
        have hgrowth := (hI.agrees t).growth.mpr hheld
        cases hbroadcast : (locals t).broadcast with
        | none =>
          rw [h.taken_eq_zero fun t' hheld' => ?_]
          · exact Nat.zero_le _
          · have hlock := (hI.agrees t').growth.mp hheld'
            rw [hheld] at hlock
            rwa [← Option.some.inj hlock]
        | some broadcast =>
          rw [← h.taken t broadcast hbroadcast hgrowth]
          exact h.beyond t broadcast worker index _ hbroadcast howned
      · rwa [hid] at hbehind
    · intro broadcast hsome
      exact h.beyond t broadcast worker index _ hsome howned
  | replay worker index message messages howned hpool hl =>
    subst hpool
    refine h.own rfl rfl rfl hstarted (hvacant worker _ howned) ?_
      (fun other _ => (Quiet.process pool worker message).running other) hothers hl
      (hsole worker _ howned) (fun hfalse => by cases hfalse) ?_ ?_
    · intro other hother
      exact congrArg Worker.processed (Function.update_of_ne hother _ _)
    · intro messages' hmessages
      obtain rfl := Progress.replaying.inj hmessages
      refine ⟨?_, .inr ⟨_, howned⟩⟩
      rw [← h.replaying t worker index _ howned]
      simp [WorkerPool.setWorker, Worker.process]
    · intro broadcast hsome
      exact h.beyond t broadcast worker index _ hsome howned
  | spoil worker index progress howned workers hpool hworkers hrunning hl =>
    subst hpool
    refine h.own rfl rfl rfl hstarted (hvacant worker _ howned) ?_
      (fun other _ => hrunning other) hothers hl (hsole worker _ howned)
      (fun hfalse => by cases hfalse) (fun _ hfalse => by cases hfalse) ?_
    · intro other hother
      exact congrArg Worker.processed (hworkers other hother)
    · intro broadcast hsome
      exact h.beyond t broadcast worker index _ hsome howned
  | place worker index hentry hbootstraps hslots htaken _ _ hprocessed hrunning hgrowth hbroadcast
      howned =>
    refine h.place hentry hbootstraps hslots htaken hstarted hprocessed hrunning
      (hsame Local.growth hgrowth) (hsame Local.broadcast hbroadcast) (hsub ?_)
    intro other entry hother
    rw [howned] at hother
    by_cases hne : other = worker
    · subst hne
      rw [owned_own] at hother
      cases hother
    · rwa [owned_own_of_ne hne] at hother
  | start group payloads hnone hgrowth hpool hl =>
    subst hpool
    refine h.swap rfl rfl rfl rfl rfl hothers (by rw [hl]) (by rw [hl]) ?_ ?_
    · intro broadcast hsome
      rw [hnone] at hsome
      cases hsome
    · intro broadcast hsome
      rw [hl] at hsome
      obtain rfl := Option.some.inj hsome
      exact ⟨rfl, hgrowth⟩
  | take worker broadcast hbroadcast hgrowth hnone hpayloads hseen hpool hl =>
    subst hpool
    exact h.take hI hbroadcast hgrowth hnone hpayloads hseen hothers hl
  | send index worker message messages broadcast hbroadcast hjob hrunning hpool hl =>
    subst hpool
    exact h.send hI hbroadcast hjob hrunning hothers hl
  | fault broadcast hbroadcast hbroken _ _ _ =>
    have hfalse := hsane.broken t broadcast hbroadcast
    rw [hbroken] at hfalse
    cases hfalse
  | record broadcast hbroadcast hgrowth hnone hplaced hactive hdone bootstraps hbootstraps hpool
      hl =>
    subst hpool
    exact h.record hI hbroadcast hgrowth hnone hplaced hactive hdone hbootstraps hothers hl
  | finish broadcast ok hbroadcast hok hpool hl =>
    subst hpool
    have hfailed : (pool.failed || !ok) = false := hsane.failed
    have htrue : ok = true := by simpa using (Bool.or_eq_false_iff.mp hfailed).2
    refine h.swap rfl rfl rfl rfl rfl hothers (by rw [hl]) (by rw [hl]) ?_ ?_
    · intro broadcast' hsome
      obtain rfl := Option.some.inj (hbroadcast.symm.trans hsome)
      exact (hok htrue).2
    · intro broadcast' hsome
      rw [hl] at hsome
      cases hsome

end Deeds

/-! ## Runs -/

/-- The pool with what threads know of it and the messages that workers have processed. -/
structure Alike (capacity : ℕ) (pool : WorkerPool) (locals : ℕ → Local) : Prop where
  owned : Ownership capacity pool locals
  announced : ∀ t, pool.broadcasting t = (locals t).broadcast.isSome
  fine : Sane pool locals → Fine pool locals

/-- No worker replays the record for a slot that a broadcast has taken, unless the thread of the
broadcast starts it. -/
def Unraced (t : ℕ) (command : Command) (pool : WorkerPool) : Prop :=
  ∀ worker, command = .cloneBootstraps worker →
    pool.growth = some t ∨ pool.taken ≤ (pool.workers worker).id

namespace Alike

theorem spawn {initialWorkers : ℕ} (hpos : 0 < initialWorkers) (hle : initialWorkers ≤ capacity) :
    Alike capacity (.spawn initialWorkers) fun _ => .idle := by
  refine ⟨⟨.spawn hpos hle, fun _ => .idle⟩, fun _ => rfl, fun _ => ?_⟩
  refine ⟨?_, ?_, fun hne => absurd rfl hne, ?_, ?_, ?_, fun _ _ _ _ => .replay _, ?_, ?_⟩
  · exact fun _ _ h => by cases h
  · exact fun _ _ h => by cases h
  · exact fun _ _ _ h => by cases h
  · exact fun _ _ _ _ h => by cases h
  · exact fun _ _ _ _ _ h => by cases h
  · exact fun _ _ h => by cases h
  · exact fun _ _ _ _ _ h => by cases h

theorem act (h : Alike capacity pool locals) {command : Command} {answer : command.Answer}
    (hallowed : allowed capacity command (locals t)) (hguard : Unraced t command pool)
    (hexec : exec t command answer pool = some pool') :
    Alike capacity pool' (Function.update locals t (after command answer (locals t))) := by
  obtain ⟨-, hframe, howned⟩ := h.owned.act hallowed hexec
  have hothers : ∀ t', t' ≠ t →
      Function.update locals t (after command answer (locals t)) t' = locals t' :=
    fun t' ht => Function.update_of_ne ht _ _
  have hdeed : Deed t command pool pool' (locals t)
      (Function.update locals t (after command answer (locals t)) t) := by
    rw [Function.update_self]
    exact deed_of_exec hallowed hexec
  refine ⟨howned, announced_of_deed h.announced hothers hdeed, fun hsane => ?_⟩
  exact (h.fine (hsane.of_deed hothers hdeed)).deed h.owned hsane hguard hframe.started hothers
    hdeed

theorem crash (h : Alike capacity pool locals) (hcrash : Crash pool pool') :
    Alike capacity pool' locals := by
  have howned := h.owned.quiet hcrash.quiet
  obtain ⟨worker, rfl⟩ := hcrash
  refine ⟨howned, h.announced, fun hsane => ?_⟩
  have hprocessed : ∀ other, ((pool.setWorker worker Worker.fail).workers other).processed =
      (pool.workers other).processed := by
    intro other
    by_cases hother : other = worker
    · subst hother
      simp [WorkerPool.setWorker, Worker.fail_processed]
    · simp [WorkerPool.setWorker, Function.update_of_ne hother]
  exact (h.fine ⟨hsane.failed, hsane.broken⟩).still rfl rfl rfl le_rfl hprocessed
    (Quiet.fail pool worker).running (fun _ => rfl) (fun _ => rfl) fun _ _ _ h => h

end Alike

section Runs

variable {maximumPayloadSize initialWorkers : ℕ}
  {config : Config Command Command.Answer WorkerPool}

/-- The worker has processed what was recorded: the payloads of no group as they came, and of each
group the last sequence last. -/
structure Initialized (pool : WorkerPool) (worker : WorkerId) : Prop where
  replays : Replays Message.group (pool.workers worker).processed pool.recorded
  ungrouped : pool.recorded.filter (fun message => decide (message.group = none)) =
    (pool.workers worker).processed.filter fun message => decide (message.group = none)
  latest : ∀ group, pool.recorded.filter (fun message => decide (message.group = some group)) <:+
    (pool.workers worker).processed.filter fun message => decide (message.group = some group)

/-- While no broadcast goes on and none has failed, the workers in the slots are initialised. -/
theorem initialized_of_run (hpos : 0 < initialWorkers) (hle : initialWorkers ≤ capacity)
    (hrun : (poolSystem capacity maximumPayloadSize).Run Unraced (poolStart initialWorkers) config)
    (hfailed : config.shared.failed = false) (hidle : ∀ t, config.shared.broadcasting t = false)
    {index : ℕ} {worker : WorkerId} (hslot : config.shared.slots index = some worker) :
    Initialized config.shared worker := by
  have hend : System.Invariant (discipline capacity) Local.Free (Alike capacity) config := by
    refine hrun.invariant ?_ ?_ ?_ ⟨fun _ => .idle, .spawn hpos hle, fun _ => Local.free_idle⟩
    · intro p hp
      exact Operation.safe hp
    · intro t command answer pool pool' locals hI hallowed hguard hexec
      exact ⟨(hI.owned.act hallowed hexec).1, hI.act hallowed hguard hexec⟩
    · intro pool pool' locals hI hcrash
      exact hI.crash hcrash
  obtain ⟨locals, hI, -⟩ := hend
  have hnone : ∀ t, (locals t).broadcast = none := by
    intro t
    have hannounced := hI.announced t
    rw [hidle t] at hannounced
    exact Option.isSome_eq_false_iff.mp hannounced.symm |> Option.isNone_iff_eq_none.mp
  have hfine := hI.fine ⟨hfailed, fun t broadcast hsome => by rw [hnone t] at hsome; cases hsome⟩
  have hzero := hfine.taken_eq_zero fun t _ => hnone t
  have hreplays := hfine.placed index worker hslot (hzero ▸ Nat.zero_le _)
  exact ⟨hreplays, hreplays.ungrouped, hreplays.latest⟩

/-- A broadcast to the only worker of a pool. -/
theorem initialized_of_run_broadcast : ∃ config : Config Command Command.Answer WorkerPool,
    (config.shared.workers 0).processed = [⟨none, [7]⟩] ∧ Initialized config.shared 0 := by
  have hclone : ∀ {command : Command} {pool}, (∀ worker, command ≠ .cloneBootstraps worker) →
      Unraced 0 command pool := fun h worker hcommand => absurd hcommand (h worker)
  have hrun : ∃ config, (poolSystem 1 1000).Run Unraced (poolStart 1) config ∧
      config.shared.failed = false ∧ (∀ t, config.shared.broadcasting t = false) ∧
        config.shared.slots 0 = some 0 ∧
          (config.shared.workers 0).processed = [⟨none, [7]⟩] := by
    refine ⟨_, Relation.ReflTransGen.head (.start 0 _ rfl (.broadcast [7])) (.head
      (.act 0 (.beginBroadcast none [[7]]) _ () rfl (hclone (by simp)) rfl) (.head
      (.act 0 .loadState _ .running rfl (hclone (by simp)) rfl) (.head
      (.act 0 .lockGrowth _ () rfl (hclone (by simp)) rfl) (.head
      (.act 0 .loadState _ .running rfl (hclone (by simp)) rfl) (.head
      (.act 0 .loadActive _ 1 rfl (hclone (by simp)) rfl) (.head
      (.act 0 (.readSlot 0) _ (some 0) rfl (hclone (by simp)) rfl) (.head
      (.act 0 (.isRunning 0) _ true rfl (hclone (by simp)) rfl) (.head
      (.act 0 (.takeWorker 0) _ () rfl (hclone (by simp)) rfl) (.head
      (.act 0 .pick _ 0 rfl (hclone (by simp)) rfl) (.head
      (.act 0 (.send 0 0 ⟨none, [7]⟩) _ (.ok []) rfl (hclone (by simp)) rfl) (.head
      (.act 0 (.record none [⟨none, [7], []⟩]) _ () rfl (hclone (by simp)) rfl) (.head
      (.act 0 (.endBroadcast true) _ () rfl (hclone (by simp)) rfl) (.single
      (.act 0 .unlockGrowth _ () rfl (hclone (by simp)) rfl)))))))))))))), rfl, ?_, rfl, rfl⟩
    intro t
    by_cases ht : t = 0
    · subst ht
      rfl
    · exact (Function.update_of_ne ht _ _).trans (Function.update_of_ne ht _ _)
  obtain ⟨config, hrun, hfailed, hidle, hslot, hprocessed⟩ := hrun
  exact ⟨config, hprocessed, initialized_of_run (by decide) (by decide) hrun hfailed hidle hslot⟩

end Runs

end Mago.Extension
