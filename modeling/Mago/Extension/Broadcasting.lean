import Mago.Extension.Growing

/-!
# Requests and broadcasts are disciplined

A request sees the worker it is sent to in a slot. A broadcast takes the workers of all active
slots in order, sends them every payload in any interleaving, and records the payloads only after
all of them were answered.
-/
namespace Mago.Extension
open Mago.Library Program

variable {capacity : ℕ}

section Request

theorem after_loadState {l : Local} (h : l.growth = false) (state : PoolState) :
    after .loadState state l = l := by
  have hserving : (l.serving || (l.growth && decide (state = .running))) = l.serving := by
    simp [h]
  show ({ l with serving := _ } : Local) = l
  rw [hserving]

theorem after_loadActive {l : Local} (h : l.growth = false) (activeWorkers : ℕ) :
    after .loadActive activeWorkers l = l := by
  have hactive : (if l.growth = true then some activeWorkers else l.activeWorkers) =
      l.activeWorkers := by
    simp [h]
  show ({ l with activeWorkers := _ } : Local) = l
  rw [hactive]

theorem safe_selectWorker {indexes : List ℕ} {selected : Option (ℕ × WorkerId × ℕ)}
    {lastError : Option WorkerError} {l : Local} (hfree : l.Free)
    (hselected : ∀ best, selected = some best → (best.1, best.2.1) ∈ l.seen) :
    (selectWorker indexes selected lastError).Safe (discipline capacity)
      (fun result l' => l'.Free ∧ ∀ best, result.1 = some best → (best.1, best.2.1) ∈ l'.seen)
      l := by
  induction indexes generalizing selected lastError l with
  | nil => exact ⟨hfree, hselected⟩
  | cons index indexes ih =>
    refine (safe_ensureRunning hfree.calm (hfree.mayRestart index)).bind ?_
    intro result l' hensured
    have hfree' := hensured.extends_l.free hfree
    have hselected' : ∀ best, selected = some best → (best.1, best.2.1) ∈ l'.seen :=
      fun best hbest => hensured.extends_l.seen (hselected best hbest)
    cases result with
    | error error => exact ih hfree' hselected'
    | ok worker =>
      refine (safe_pick l').bind ?_
      intro load l'' hl''
      subst hl''
      split_ifs
      · refine ih hfree' ?_
        intro best hbest
        obtain rfl := Option.some.inj hbest
        exact hensured.seen worker rfl
      · exact ih hfree' hselected'

/-- The thread is free and has seen the worker in the slot. -/
def Reserved (result : Except WorkerError (ℕ × WorkerId)) (l : Local) : Prop :=
  l.Free ∧ ∀ entry, result = .ok entry → entry ∈ l.seen

theorem safe_confirm {index : ℕ} {worker : WorkerId} {l : Local} (hfree : l.Free)
    (hseen : (index, worker) ∈ l.seen) :
    (confirm index worker).Safe (discipline capacity) Reserved l := by
  refine safe_then.mpr ⟨trivial, ?_⟩
  intro state _
  rw [after_loadState hfree.growth]
  split_ifs
  · exact ⟨hfree, by simp⟩
  · refine ⟨hfree, ?_⟩
    intro entry hentry
    obtain rfl := Except.ok.inj hentry
    exact hseen

theorem safe_reserveWorker {l : Local} (hfree : l.Free) :
    (reserveWorker capacity).Safe (discipline capacity) Reserved l := by
  refine safe_then.mpr ⟨trivial, ?_⟩
  intro state _
  rw [after_loadState hfree.growth]
  split_ifs
  · exact ⟨hfree, by simp⟩
  · refine safe_then.mpr ⟨trivial, ?_⟩
    intro activeWorkers _
    rw [after_loadActive hfree.growth]
    refine (safe_pick l).bind ?_
    intro start l₁ hl₁
    subst hl₁
    refine (safe_selectWorker hfree (by simp)).bind ?_
    intro result l' hresult
    obtain ⟨selected, lastError⟩ := result
    obtain ⟨hfree', hselected⟩ := hresult
    cases selected with
    | none => exact ⟨hfree', by simp⟩
    | some best =>
      obtain ⟨index, worker, load⟩ := best
      have hseen : (index, worker) ∈ l'.seen := hselected _ rfl
      refine safe_then.mpr ⟨trivial, ?_⟩
      intro shouldGrow _
      show Safe _ (if _ then _ else _) _ l'
      split_ifs
      · refine (safe_tryGrow hfree').bind ?_
        intro grown l'' hgrown
        cases grown with
        | error error => exact ⟨hgrown.free, by simp⟩
        | ok entry =>
          cases entry with
          | none => exact safe_confirm hgrown.free (hgrown.seen hseen)
          | some entry => exact safe_confirm hgrown.free (hgrown.worker _ _ rfl)
      · exact safe_confirm hfree' hseen

theorem safe_requestInner {payload : Payload} {l : Local} (hfree : l.Free) :
    (requestInner capacity payload).Safe (discipline capacity) (fun _ l' => l'.Free) l := by
  refine (safe_reserveWorker hfree).bind ?_
  intro result l' hreserved
  cases result with
  | error error => exact hreserved.1
  | ok entry =>
    obtain ⟨index, worker⟩ := entry
    obtain ⟨hfree', hseen⟩ := hreserved
    refine safe_then.mpr ⟨trivial, ?_⟩
    intro reply _
    have hgrowth : l'.growth = true → l'.serving = true := by
      rw [hfree'.growth]
      intro h
      cases h
    refine (safe_recoverIfNeeded hfree'.calm hgrowth (hseen _ rfl)
      fun _ => hfree'.mayRestart index).bind ?_
    intro recovery l'' hextends
    have hfree'' : l''.Free := hextends.free hfree'
    cases recovery with
    | error error => exact hfree''
    | ok _ =>
      cases reply with
      | ok response => exact hfree''
      | error processed crashed => exact hfree''

end Request

section Broadcast

/-- The broadcast goes on, and everything else is the same. -/
structure Local.Proceeds (l l' : Local) : Prop where
  eq : l' = { l with broadcast := l'.broadcast, dead := l'.dead, seen := l'.seen }
  seen : l.seen ⊆ l'.seen

namespace Local

theorem Proceeds.refl (l : Local) : l.Proceeds l := ⟨rfl, subset_rfl⟩

theorem Proceeds.trans {l l' l'' : Local} (h : l.Proceeds l') (h' : l'.Proceeds l'') :
    l.Proceeds l'' := by
  refine ⟨?_, h.seen.trans h'.seen⟩
  have heq := h'.eq
  rw [h.eq] at heq
  exact heq

theorem Extends.proceeds {l l' : Local} (h : l.Extends l') : l.Proceeds l' := by
  refine ⟨?_, h.seen⟩
  rw [h.eq]

theorem Extends.broadcast {l l' : Local} (h : l.Extends l') : l'.broadcast = l.broadcast := by
  rw [h.eq]

theorem proceeds_setBroadcast (l : Local) (f : Broadcast → Broadcast) :
    l.Proceeds (l.setBroadcast f) :=
  ⟨rfl, subset_rfl⟩

/-- The thread holds the growth lock for its broadcast. -/
structure Broadcasts (l : Local) : Prop where
  holding : ({ l with broadcast := none } : Local).Holding
  serving : l.serving = true

theorem Broadcasts.calm {l : Local} (h : l.Broadcasts) : l.Calm :=
  ⟨h.holding.slot, h.holding.stopping, h.holding.owned⟩

theorem Proceeds.broadcasts {l l' : Local} (h : l.Proceeds l') (hl : l.Broadcasts) :
    l'.Broadcasts := by
  obtain ⟨hholding, hserving⟩ := hl
  rw [h.eq]
  exact ⟨⟨hholding.growth, hholding.placed, hholding.finalizer, hholding.halting,
    hholding.looked, hholding.stopping, hholding.slot, hholding.owned, rfl⟩, hserving⟩

end Local

/-- The workers were taken in order and have processed nothing yet. -/
structure Taken (l : Local) (broadcast : Broadcast) (start n : ℕ)
    (workers : List (ℕ × WorkerId)) (l' : Local) : Prop where
  broadcast : l'.broadcast = some { broadcast with
    jobs := broadcast.jobs ++ workers.map fun worker => (worker.2, broadcast.messages) }
  indexes : workers.map Prod.fst = List.range' start n
  seen : ∀ worker ∈ workers, worker ∈ l'.seen

theorem safe_takeWorkers {broadcast : Broadcast} {start n : ℕ} {l : Local} (hl : l.Broadcasts)
    (hbroadcast : l.broadcast = some broadcast) (hstart : broadcast.jobs.length = start)
    (hpayloads : broadcast.payloads ≠ []) :
    (takeWorkers (List.range' start n)).Safe (discipline capacity) (fun result l' =>
      l.Proceeds l' ∧ (∃ broadcast', l'.broadcast = some broadcast') ∧
        ∀ workers, result = .ok workers → Taken l broadcast start n workers l') l := by
  induction n generalizing broadcast start l with
  | zero =>
    refine ⟨.refl l, ⟨broadcast, hbroadcast⟩, ?_⟩
    intro workers hworkers
    obtain rfl := Except.ok.inj hworkers
    exact ⟨by simpa using hbroadcast, rfl, by simp⟩
  | succ n ih =>
    have hmay : l.MayRestart start := by
      intro broadcast' hbroadcast'
      rw [hbroadcast] at hbroadcast'
      obtain rfl := Option.some.inj hbroadcast'
      exact .inr hstart.le
    refine (safe_ensureRunning hl.calm hmay).bind ?_
    intro result l₁ hensured
    have hproceeds := hensured.extends_l.proceeds
    have hbroadcast₁ : l₁.broadcast = some broadcast :=
      hensured.extends_l.broadcast.trans hbroadcast
    cases result with
    | error error => exact ⟨hproceeds, ⟨broadcast, hbroadcast₁⟩, by simp⟩
    | ok worker =>
      have hl₁ := hproceeds.broadcasts hl
      have hseen : (start, worker) ∈ l₁.seen := hensured.seen worker rfl
      refine safe_then.mpr ⟨⟨broadcast, hbroadcast₁, hl₁.holding.growth, hl₁.holding.slot,
        hl₁.holding.owned, hpayloads, hstart ▸ hseen⟩, fun _ _ => ?_⟩
      set broadcast₂ : Broadcast := { broadcast with
        jobs := broadcast.jobs ++ [(worker, broadcast.messages)] } with hbroadcast₂
      have hl₂ : after (.takeWorker worker) () l₁ = { l₁ with broadcast := some broadcast₂ } := by
        simp only [after, Local.setBroadcast, hbroadcast₁, Option.map_some, hbroadcast₂]
      have hproceeds₂ : l₁.Proceeds (after (.takeWorker worker) () l₁) :=
        l₁.proceeds_setBroadcast _
      have hlength : broadcast₂.jobs.length = start + 1 := by
        rw [hbroadcast₂, ← hstart]
        simp
      have hsome : (after (.takeWorker worker) () l₁).broadcast = some broadcast₂ := by rw [hl₂]
      refine (ih (hproceeds₂.broadcasts hl₁) hsome hlength hpayloads).bind ?_
      intro result l₃ hresult
      obtain ⟨hproceeds₃, hexists, htaken⟩ := hresult
      have hproceeds' := hproceeds.trans (hproceeds₂.trans hproceeds₃)
      cases result with
      | error error => exact ⟨hproceeds', hexists, by simp⟩
      | ok workers =>
        refine ⟨hproceeds', hexists, ?_⟩
        intro workers' hworkers'
        obtain rfl := Except.ok.inj hworkers'
        obtain ⟨hbroadcast₃, hindexes, hseen₃⟩ := htaken workers rfl
        refine ⟨?_, ?_, ?_⟩
        · rw [hbroadcast₃, hbroadcast₂]
          simp [Broadcast.messages]
        · rw [List.map_cons, hindexes, List.range'_succ]
        · intro entry hentry
          rcases List.mem_cons.mp hentry with rfl | hentry
          · exact (hproceeds₂.trans hproceeds₃).seen hseen
          · exact hseen₃ entry hentry

/-- What the broadcast knows of the exchange with the worker of a slot. -/
structure Exchanging (broadcast : Broadcast) (index : ℕ) (exchange : Exchange) : Prop where
  at_index : exchange.index = index
  failed : exchange.error?.isSome = true → broadcast.broken = true ∧ exchange.remaining = []
  going : exchange.error? = none → broadcast.jobs[index]? =
      some (exchange.worker, exchange.remaining.map fun payload => ⟨broadcast.group, payload⟩) ∧
    exchange.responses.length + exchange.remaining.length = broadcast.payloads.length

structure BroadcastExchanges (group : Option ℕ) (payloads : List Payload)
    (exchanges : List Exchange) (broadcast : Broadcast) : Prop where
  group_eq : broadcast.group = group
  payloads_eq : broadcast.payloads = payloads
  length_eq : broadcast.jobs.length = exchanges.length
  exchanging : ∀ k exchange, exchanges[k]? = some exchange → Exchanging broadcast k exchange
  broken : broadcast.broken = true → ∃ exchange ∈ exchanges, exchange.error?.isSome = true

/-- The scoped threads of a broadcast. -/
structure Exchanges (l : Local) (group : Option ℕ) (payloads : List Payload)
    (workers : List (ℕ × WorkerId)) (exchanges : List Exchange) (l' : Local) : Prop where
  proceeds : l.Proceeds l'
  map_worker : exchanges.map (fun exchange => (exchange.index, exchange.worker)) = workers
  broadcast : ∃ broadcast, l'.broadcast = some broadcast ∧
    BroadcastExchanges group payloads exchanges broadcast

theorem getElem?_append_cons {α : Type} (before later : List α) (a : α) :
    (before ++ a :: later)[before.length]? = some a := by
  simp

theorem getElem?_append_cons_ne {α : Type} {before later : List α} {a b : α} {k : ℕ}
    (h : k ≠ before.length) : (before ++ a :: later)[k]? = (before ++ b :: later)[k]? := by
  have hset : before ++ a :: later = (before ++ b :: later).set before.length a := by simp
  rw [hset, List.getElem?_set_ne h.symm]

theorem BroadcastExchanges.replace {group : Option ℕ} {payloads : List Payload}
    {before later : List Exchange} {exchange exchange' : Exchange}
    {broadcast broadcast' : Broadcast}
    (h : BroadcastExchanges group payloads (before ++ exchange :: later) broadcast)
    (hgroup : broadcast'.group = broadcast.group)
    (hpayloads : broadcast'.payloads = broadcast.payloads)
    (hlength : broadcast'.jobs.length = broadcast.jobs.length)
    (hjobs : ∀ k, k ≠ before.length → broadcast'.jobs[k]? = broadcast.jobs[k]?)
    (hexchange : Exchanging broadcast' before.length exchange')
    (hgoing : exchange.error? = none)
    (hbroken : broadcast.broken = true → broadcast'.broken = true)
    (hbroken' : broadcast'.broken = true →
      broadcast.broken = true ∨ exchange'.error?.isSome = true) :
    BroadcastExchanges group payloads (before ++ exchange' :: later) broadcast' := by
  refine ⟨hgroup.trans h.group_eq, hpayloads.trans h.payloads_eq, ?_, ?_, ?_⟩
  · rw [hlength, h.length_eq]
    simp
  · intro k other hother
    by_cases hk : k = before.length
    · subst hk
      rw [getElem?_append_cons] at hother
      obtain rfl := Option.some.inj hother
      exact hexchange
    · rw [getElem?_append_cons_ne (b := exchange) hk] at hother
      obtain ⟨hindex, hfailed, hgo⟩ := h.exchanging k other hother
      refine ⟨hindex, fun herror => ⟨hbroken (hfailed herror).1, (hfailed herror).2⟩, ?_⟩
      intro hnone
      rw [hjobs k hk, hgroup, hpayloads]
      exact hgo hnone
  · intro hbroadcast'
    rcases hbroken' hbroadcast' with hold | herror
    · obtain ⟨other, hother, herror⟩ := h.broken hold
      refine ⟨other, ?_, herror⟩
      have hne : other ≠ exchange := by
        rintro rfl
        rw [hgoing] at herror
        cases herror
      rcases List.mem_append.mp hother with hmem | hmem
      · exact List.mem_append_left _ hmem
      · refine List.mem_append_right _ (List.mem_cons_of_mem _ ?_)
        exact (List.mem_cons.mp hmem).resolve_left hne
    · exact ⟨exchange', by simp, herror⟩

theorem safe_exchange_step {l l₁ : Local} {group : Option ℕ} {payloads : List Payload}
    {workers : List (ℕ × WorkerId)} {before later : List Exchange} {exchange : Exchange}
    (h : Exchanges l group payloads workers (before ++ exchange :: later) l₁) :
    (exchange.step group).Safe (discipline capacity) (fun exchange' l₂ =>
      Exchanges l group payloads workers (before ++ exchange' :: later) l₂ ∧
        exchange'.remaining.length ≤ exchange.remaining.length - 1) l₁ := by
  obtain ⟨hproceeds, hworkers, broadcast, hbroadcast, hexchanges⟩ := h
  obtain ⟨hindex, hfailed, hgoing⟩ := hexchanges.exchanging before.length exchange
    (getElem?_append_cons _ _ _)
  unfold Exchange.step
  cases hremaining : exchange.remaining with
  | nil => exact ⟨⟨hproceeds, hworkers, broadcast, hbroadcast, hexchanges⟩, by simp [hremaining]⟩
  | cons payload rest =>
    have hnone : exchange.error? = none := by
      cases herror : exchange.error? with
      | none => rfl
      | some error =>
        have := (hfailed (by rw [herror]; rfl)).2
        rw [hremaining] at this
        cases this
    obtain ⟨hjob, hlength⟩ := hgoing hnone
    rw [hremaining, List.map_cons, ← hindex, hexchanges.group_eq] at hjob
    refine safe_then.mpr ⟨⟨broadcast, _, hbroadcast, hjob⟩, ?_⟩
    intro answer _
    have hproceeds' := hproceeds.trans (l₁.proceeds_setBroadcast fun broadcast =>
      match (answer : Reply) with
      | .ok _ => { broadcast with
          jobs := broadcast.jobs.modify exchange.index fun job => (job.1, job.2.tail) }
      | .error _ _ => { broadcast with broken := true })
    cases answer with
    | error processed crashed =>
      refine ⟨⟨hproceeds', ?_, { broadcast with broken := true }, ?_, ?_⟩, by simp⟩
      · rw [← hworkers]
        simp
      · simp only [after, Local.setBroadcast, hbroadcast, Option.map_some]
      · exact hexchanges.replace rfl rfl rfl (fun _ _ => rfl)
          ⟨hindex, fun _ => ⟨rfl, rfl⟩, fun h => by cases h⟩ hnone (fun _ => rfl)
          fun _ => .inr rfl
    | ok response =>
      refine ⟨⟨hproceeds', ?_, { broadcast with
          jobs := broadcast.jobs.modify exchange.index fun job => (job.1, job.2.tail) }, ?_, ?_⟩,
        by simp⟩
      · rw [← hworkers]
        simp
      · simp only [after, Local.setBroadcast, hbroadcast, Option.map_some]
      · refine hexchanges.replace rfl rfl (List.length_modify ..) ?_ ⟨hindex, ?_, ?_⟩ hnone id
          fun h => .inl h
        · intro k hk
          have hne : exchange.index ≠ k := hindex ▸ hk.symm
          simp [hne]
        · intro herror
          cases herror
        · intro _
          refine ⟨?_, ?_⟩
          · rw [List.getElem?_modify, ← hindex, hjob, hexchanges.group_eq]
            simp
          · rw [hremaining, List.length_cons] at hlength
            simp only [Exchange.responses, List.length_append, List.length_cons, List.length_nil]
              at hlength ⊢
            omega

theorem safe_exchange_steps {l l₁ : Local} {group : Option ℕ} {payloads : List Payload}
    {workers : List (ℕ × WorkerId)} {before later : List Exchange} {exchange : Exchange} {n : ℕ}
    (h : Exchanges l group payloads workers (before ++ exchange :: later) l₁)
    (hn : exchange.remaining.length ≤ n) :
    (Exchange.steps group n exchange).Safe (discipline capacity) (fun exchange' l₂ =>
      exchange'.remaining = [] ∧
        Exchanges l group payloads workers (before ++ exchange' :: later) l₂) l₁ := by
  induction n generalizing exchange l₁ with
  | zero => exact ⟨List.length_eq_zero_iff.mp (Nat.le_zero.mp hn), h⟩
  | succ n ih =>
    refine (safe_exchange_step h).bind ?_
    intro exchange' l₂ hstep
    exact ih hstep.1 (by omega)

theorem or_eq_none {α : Type} {a b : Option α} (h : a.or b = none) : a = none ∧ b = none :=
  Option.or_eq_none_iff.mp h

/-- Recovering goes on after an error, and without an error no exchange had one. -/
theorem safe_recoverAll {exchanges : List Exchange} {firstError : Option WorkerError} {l : Local}
    (hcalm : l.Calm) (hserving : l.serving = true)
    (hseen : ∀ exchange ∈ exchanges, (exchange.index, exchange.worker) ∈ l.seen)
    (hmay : ∀ exchange ∈ exchanges, exchange.error?.isSome = true → ∀ index, l.MayRestart index) :
    (recoverAll exchanges firstError).Safe (discipline capacity) (fun result l' => l.Extends l' ∧
      (result = none → firstError = none ∧ ∀ exchange ∈ exchanges, exchange.error? = none)) l := by
  induction exchanges generalizing firstError l with
  | nil => exact ⟨.refl l, fun h => ⟨h, by simp⟩⟩
  | cons exchange exchanges ih =>
    have hmay' : exchange.error?.isNone = false → l.MayRestart exchange.index := by
      intro h
      refine hmay exchange List.mem_cons_self ?_ _
      cases herror : exchange.error? with
      | none =>
        rw [herror] at h
        cases h
      | some _ => rfl
    refine (safe_recoverIfNeeded hcalm (fun _ => hserving) (hseen exchange List.mem_cons_self)
      hmay').bind ?_
    intro recovery l₁ hextends
    have hrest : ∀ error, (recoverAll exchanges error).Safe (discipline capacity)
        (fun result l' => l₁.Extends l' ∧
          (result = none → error = none ∧ ∀ exchange ∈ exchanges, exchange.error? = none)) l₁ := by
      intro error
      refine ih (hextends.calm hcalm) ?_ ?_ ?_
      · rw [hextends.eq]
        exact hserving
      · intro other hother
        exact hextends.seen (hseen other (List.mem_cons_of_mem _ hother))
      · intro other hother herror index
        exact hextends.mayRestart (hmay other (List.mem_cons_of_mem _ hother) herror index)
    cases recovery with
    | error error =>
      refine (hrest _).mono ?_
      intro result l₂ h
      refine ⟨hextends.trans h.1, fun hnone => ?_⟩
      cases (or_eq_none (or_eq_none (h.2 hnone).1).1).2
    | ok _ =>
      refine (hrest _).mono ?_
      intro result l₂ h
      refine ⟨hextends.trans h.1, fun hnone => ?_⟩
      obtain ⟨hor, hexchanges⟩ := h.2 hnone
      obtain ⟨hfirst, hexchange⟩ := or_eq_none hor
      exact ⟨hfirst, List.forall_mem_cons.mpr ⟨hexchange, hexchanges⟩⟩

/-- Every payload is recorded where every payload has a response. -/
theorem map_message_replacements {group : Option ℕ} {payloads : List Payload}
    {rows : List (List Payload)} (hlength : rows.length = payloads.length)
    (hrows : ∀ row ∈ rows, row ≠ []) :
    (replacements group payloads rows).map Bootstrap.message =
      payloads.map fun payload => ⟨group, payload⟩ := by
  induction payloads generalizing rows with
  | nil => rfl
  | cons payload payloads ih =>
    cases rows with
    | nil => cases hlength
    | cons row rows =>
      have hrest := ih (Nat.succ.inj hlength) fun row hrow =>
        hrows row (List.mem_cons_of_mem _ hrow)
      cases row with
      | nil => exact absurd rfl (hrows [] List.mem_cons_self)
      | cons response row =>
        unfold replacements at hrest ⊢
        simp only [List.zip_cons_cons, List.filterMap_cons, List.head?_cons, Option.map_some,
          List.map_cons, hrest]
        rfl

theorem responseRows_ne_nil {payloads : List Payload} {exchanges : List Exchange}
    (hne : exchanges ≠ [])
    (hresponses : ∀ exchange ∈ exchanges, exchange.responses.length = payloads.length)
    {row : List Payload} (hrow : row ∈ responseRows payloads exchanges) : row ≠ [] := by
  obtain ⟨i, hi, rfl⟩ := List.mem_map.mp hrow
  obtain ⟨exchange, exchanges, rfl⟩ := List.exists_cons_of_ne_nil hne
  have hlt : i < exchange.responses.length := by
    rw [hresponses exchange List.mem_cons_self]
    exact List.mem_range.mp hi
  rw [List.filterMap_cons, List.getElem?_eq_getElem hlt]
  exact List.cons_ne_nil _ _

/-- The thread holds the growth lock for a broadcast that has ended; it has done every job where
it succeeds. -/
structure Closing {α : Type} (result : Except WorkerError α) (l : Local) : Prop where
  holding : ({ l with broadcast := none } : Local).Holding
  broadcast : ∃ broadcast, l.broadcast = some broadcast ∧
    (result.isOk = true → broadcast.broken = false ∧ broadcast.jobs = [])

theorem Local.Broadcasts.closing {α : Type} {l : Local} {broadcast : Broadcast}
    (h : l.Broadcasts) (hbroadcast : l.broadcast = some broadcast) (error : WorkerError) :
    Closing (.error error : Except WorkerError α) l :=
  ⟨h.holding, broadcast, hbroadcast, fun h => by cases h⟩

theorem safe_exchanges {group : Option ℕ} {payloads : List Payload}
    {workers : List (ℕ × WorkerId)} {broadcast : Broadcast} {l : Local}
    (hbroadcast : l.broadcast = some broadcast) (hgroup : broadcast.group = group)
    (hpayloads : broadcast.payloads = payloads) (hbroken : broadcast.broken = false)
    (hjobs : broadcast.jobs = workers.map fun worker => (worker.2, broadcast.messages))
    (hindexes : workers.map Prod.fst = List.range' 0 workers.length) :
    (Program.concurrently pick (Exchange.step group) (Exchange.finish group)
      (workers.map (Exchange.start payloads))).Safe (discipline capacity) (fun exchanges l' =>
        (∀ exchange ∈ exchanges, exchange.remaining = []) ∧
          Exchanges l group payloads workers exchanges l') l := by
  have hstart : Exchanges l group payloads workers (workers.map (Exchange.start payloads)) l := by
    refine ⟨.refl l, ?_, broadcast, hbroadcast, hgroup, hpayloads, ?_, ?_, ?_⟩
    · rw [List.map_map]
      exact List.map_id _
    · rw [hjobs, List.length_map, List.length_map]
    · intro k exchange hexchange
      rw [List.getElem?_map, Option.map_eq_some_iff] at hexchange
      obtain ⟨worker, hworker, rfl⟩ := hexchange
      have hk : worker.1 = k := by
        have hmap : (workers.map Prod.fst)[k]? = some worker.1 := by
          rw [List.getElem?_map, hworker]
          rfl
        obtain ⟨hlt, hget⟩ := List.getElem?_eq_some_iff.mp hmap
        simp only [hindexes, List.getElem_range', Nat.one_mul, Nat.zero_add] at hget
        exact hget.symm
      refine ⟨hk, (fun h => by cases h), fun _ => ⟨?_, ?_⟩⟩
      · rw [hjobs, List.getElem?_map, hworker]
        simp [Exchange.start, Broadcast.messages, hpayloads]
      · simp [Exchange.start, Exchange.responses, hpayloads]
    · intro h
      rw [hbroken] at h
      cases h
  have hstep : ∀ before job later l',
      Exchanges l group payloads workers (before ++ job :: later) l' →
        (Exchange.step group job).Safe (discipline capacity) (fun job' l'' =>
          Exchanges l group payloads workers (before ++ job' :: later) l'') l' :=
    fun before job later l' h => (safe_exchange_step h).mono fun _ _ h => h.1
  have hfinish : ∀ before job later l',
      Exchanges l group payloads workers (before ++ job :: later) l' →
        (Exchange.finish group job).Safe (discipline capacity) (fun job' l'' =>
          job'.remaining = [] ∧
            Exchanges l group payloads workers (before ++ id job' :: later) l'') l' :=
    fun before job later l' h => safe_exchange_steps h le_rfl
  refine (Safe.concurrently safe_pick hstep hfinish hstart).mono ?_
  intro exchanges l' h
  rwa [List.map_id] at h

/-- All exchanges without an error are answered completely. -/
theorem BroadcastExchanges.done {group : Option ℕ} {payloads : List Payload}
    {exchanges : List Exchange} {broadcast : Broadcast}
    (h : BroadcastExchanges group payloads exchanges broadcast)
    (hnone : ∀ exchange ∈ exchanges, exchange.error? = none)
    (hremaining : ∀ exchange ∈ exchanges, exchange.remaining = []) :
    broadcast.broken = false ∧ (∀ job ∈ broadcast.jobs, job.2 = []) ∧
      ∀ exchange ∈ exchanges, exchange.responses.length = payloads.length := by
  refine ⟨?_, ?_, ?_⟩
  · by_contra hbroken
    obtain ⟨exchange, hexchange, herror⟩ := h.broken (by simpa using hbroken)
    rw [hnone exchange hexchange] at herror
    cases herror
  · intro job hjob
    obtain ⟨k, hk⟩ := List.getElem?_of_mem hjob
    obtain ⟨hlt, -⟩ := List.getElem?_eq_some_iff.mp hk
    have hget := List.getElem?_eq_getElem (h.length_eq ▸ hlt)
    have hmem := List.mem_of_getElem? hget
    obtain ⟨hdone, -⟩ := (h.exchanging k _ hget).going (hnone _ hmem)
    rw [hk, hremaining _ hmem] at hdone
    rw [Option.some.inj hdone]
    rfl
  · intro exchange hexchange
    obtain ⟨k, hk⟩ := List.getElem?_of_mem hexchange
    obtain ⟨-, hlength⟩ := (h.exchanging k exchange hk).going (hnone exchange hexchange)
    rw [hremaining exchange hexchange, h.payloads_eq] at hlength
    exact hlength

theorem safe_broadcastLocked {group : Option ℕ} {payloads : List Payload} {l : Local}
    (hholding : ({ l with broadcast := none } : Local).Holding)
    (hbroadcast : l.broadcast = some ⟨group, payloads, [], false⟩) (hpayloads : payloads ≠ []) :
    (broadcastLocked group payloads).Safe (discipline capacity) Closing l := by
  refine safe_then.mpr ⟨trivial, ?_⟩
  intro state _
  show Safe _ (if state ≠ .running then _ else _) _ _
  split_ifs with hstate
  · exact ⟨⟨hholding.growth, hholding.placed, hholding.finalizer, hholding.halting,
      hholding.looked, hholding.stopping, hholding.slot, hholding.owned, rfl⟩,
      _, hbroadcast, fun h => by cases h⟩
  · obtain rfl := not_not.mp hstate
    refine safe_then.mpr ⟨trivial, ?_⟩
    intro activeWorkers hactive
    set l₁ : Local := { l with serving := true, activeWorkers := some activeWorkers } with hl₁
    have hafter : after .loadActive activeWorkers (after .loadState .running l) = l₁ := by
      have hgrowth : l.growth = true := hholding.growth
      simp [after, hgrowth, hl₁]
    rw [hafter]
    have hbroadcasts : l₁.Broadcasts :=
      ⟨⟨hholding.growth, hholding.placed, hholding.finalizer, hholding.halting, hholding.looked,
        hholding.stopping, hholding.slot, hholding.owned, rfl⟩, rfl⟩
    rw [List.range_eq_range']
    refine (safe_takeWorkers hbroadcasts hbroadcast rfl hpayloads).bind ?_
    intro result l₂ hresult
    obtain ⟨hproceeds₂, ⟨broadcast₂, hbroadcast₂⟩, htaken⟩ := hresult
    have hbroadcasts₂ := hproceeds₂.broadcasts hbroadcasts
    cases result with
    | error error => exact hbroadcasts₂.closing hbroadcast₂ error
    | ok workers =>
      obtain ⟨hsome, hindexes, hseen⟩ := htaken workers rfl
      have hlength : workers.length = activeWorkers := by
        have := congrArg List.length hindexes
        simpa using this
      rw [← hlength] at hindexes
      refine (safe_exchanges hsome rfl rfl rfl rfl hindexes).bind ?_
      intro exchanges l₃ hexchanges
      obtain ⟨hremaining, hproceeds₃, hworkers, broadcast₃, hbroadcast₃, hjobs⟩ := hexchanges
      have hbroadcasts₃ := hproceeds₃.broadcasts hbroadcasts₂
      have hseen₃ : ∀ exchange ∈ exchanges, (exchange.index, exchange.worker) ∈ l₃.seen := by
        intro exchange hexchange
        refine hproceeds₃.seen (hseen _ ?_)
        rw [← hworkers]
        exact List.mem_map_of_mem hexchange
      have hmay : ∀ exchange ∈ exchanges, exchange.error?.isSome = true →
          ∀ index, l₃.MayRestart index := by
        intro exchange hexchange herror index broadcast hbroadcast
        rw [hbroadcast₃] at hbroadcast
        obtain rfl := Option.some.inj hbroadcast
        obtain ⟨k, hk⟩ := List.getElem?_of_mem hexchange
        exact .inl ((hjobs.exchanging k exchange hk).failed herror).1
      refine (safe_recoverAll hbroadcasts₃.calm hbroadcasts₃.serving hseen₃ hmay).bind ?_
      intro error l₄ hrecover
      obtain ⟨hextends, hnone⟩ := hrecover
      have hbroadcast₄ : l₄.broadcast = some broadcast₃ := hextends.broadcast.trans hbroadcast₃
      have hbroadcasts₄ := hextends.proceeds.broadcasts hbroadcasts₃
      cases error with
      | some error => exact hbroadcasts₄.closing hbroadcast₄ error
      | none =>
        obtain ⟨hbroken, hdone, hresponses⟩ := hjobs.done (hnone rfl).2 hremaining
        have hexchangesLength : exchanges.length = activeWorkers := by
          rw [← hlength, ← hworkers, List.length_map]
        have hne : exchanges ≠ [] := by
          intro hnil
          rw [hnil] at hexchangesLength
          have hpos : 0 < activeWorkers := hactive
          rw [← hexchangesLength] at hpos
          exact lt_irrefl 0 hpos
        have hactive₄ : l₄.activeWorkers = some broadcast₃.jobs.length := by
          rw [hextends.eq, hproceeds₃.eq, hproceeds₂.eq, hjobs.length_eq, hexchangesLength]
        have hmessages : (replacements group payloads (responseRows payloads exchanges)).map
            Bootstrap.message = broadcast₃.messages := by
          rw [map_message_replacements (by simp [responseRows])
            fun row hrow => responseRows_ne_nil hne hresponses hrow, Broadcast.messages,
            hjobs.group_eq, hjobs.payloads_eq]
        refine safe_then.mpr ⟨⟨broadcast₃, hbroadcast₄, hjobs.group_eq, hbroadcasts₄.holding.growth,
          hbroadcasts₄.serving, hbroadcasts₄.holding.owned, hbroadcasts₄.holding.placed, hbroken,
          hactive₄, hdone, hmessages⟩, fun _ _ => ?_⟩
        refine ⟨hbroadcasts₄.holding, { broadcast₃ with jobs := [] }, ?_, fun _ => ⟨hbroken, rfl⟩⟩
        simp only [after, Local.setBroadcast, hbroadcast₄, Option.map_some]

theorem safe_broadcastInner {maximumPayloadSize : ℕ} {group : Option ℕ}
    {payloads : List Payload} {l : Local} (hfree : l.Free) :
    (broadcastInner maximumPayloadSize group payloads).Safe (discipline capacity)
      (fun _ l' => l'.Free) l := by
  refine safe_then.mpr ⟨⟨hfree.broadcast, hfree.growth⟩, fun _ _ => ?_⟩
  set l₁ : Local := { l with broadcast := some ⟨group, payloads, [], false⟩ } with hl₁
  have hgrowth : l₁.growth = false := hfree.growth
  have hfree₁ : ({ l₁ with broadcast := none } : Local).Free :=
    ⟨hfree.growth, hfree.serving, hfree.activeWorkers, hfree.placed, hfree.finalizer,
      hfree.halting, hfree.looked, hfree.stopping, hfree.slot, hfree.owned, rfl⟩
  have hend : ∀ result : Except WorkerError (List (List Payload)),
      (endBroadcast result).Safe (discipline capacity) (fun _ l' => l'.Free) l₁ :=
    fun result => safe_then.mpr ⟨⟨_, rfl, fun _ => ⟨rfl, rfl⟩⟩, fun _ _ => hfree₁⟩
  refine safe_then.mpr ⟨trivial, ?_⟩
  intro state _
  show Safe _ (if state ≠ .running then _ else _) _ (after .loadState state l₁)
  rw [after_loadState hgrowth]
  split_ifs with hstate hempty
  · exact hend _
  · exact hend _
  · cases hfind : payloads.find? fun payload => decide (maximumPayloadSize < payload.length) with
    | some payload => exact hend _
    | none =>
      have hpayloads : payloads ≠ [] := by
        rintro rfl
        exact hempty rfl
      refine safe_then.mpr ⟨⟨hgrowth, hfree.slot⟩, fun _ _ => ?_⟩
      have hholding : ({ after .lockGrowth () l₁ with broadcast := none } : Local).Holding :=
        ⟨rfl, rfl, hfree.finalizer, hfree.halting, hfree.looked, hfree.stopping, hfree.slot,
          hfree.owned, rfl⟩
      refine (safe_broadcastLocked hholding rfl hpayloads).bind ?_
      intro result l₂ hclosing
      obtain ⟨hholding₂, broadcast, hbroadcast, hok⟩ := hclosing
      refine Safe.bind (Q := fun _ l' => l'.Holding) ?_ ?_
      · exact safe_then.mpr ⟨⟨broadcast, hbroadcast, hok⟩, fun _ _ => hholding₂⟩
      · intro result l₃ hholding₃
        exact safe_unlockGrowth hholding₃ fun _ hfree' _ => hfree'

theorem safe_broadcast {maximumPayloadSize : ℕ} {payload : Payload} {l : Local}
    (hfree : l.Free) :
    (broadcast maximumPayloadSize payload).Safe (discipline capacity) (fun _ l' => l'.Free) l := by
  refine (safe_broadcastInner hfree).bind ?_
  intro result l' hfree'
  cases result with
  | error error => exact hfree'
  | ok responses => exact hfree'

end Broadcast

end Mago.Extension
