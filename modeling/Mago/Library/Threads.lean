import Mathlib

/-!
# Threads

Threads run programs against a shared state, one command at a time and in any order. A discipline
says what a thread keeps track of and which commands it may perform then; an invariant that the
commands of disciplined threads preserve holds in every run.
-/
namespace Mago.Library

/-- A program is done, or it performs a command and goes on with the answer. -/
inductive Program (κ : Type) (Answer : κ → Type) (α : Type) : Type
  | done (value : α)
  | act (command : κ) (next : Answer command → Program κ Answer α)

namespace Program

variable {κ : Type} {Answer : κ → Type} {α β : Type}

def bind : Program κ Answer α → (α → Program κ Answer β) → Program κ Answer β
  | done value, f => f value
  | act command next, f => act command fun answer => (next answer).bind f

instance : Monad (Program κ Answer) where
  pure := done
  bind := bind

def perform (command : κ) : Program κ Answer (Answer command) := act command done

section Jobs

variable {J R : Type}

/-- One step of the job at a position. -/
def advanceAt (step : J → Program κ Answer J) (i : ℕ) (jobs : List J) :
    Program κ Answer (List J) :=
  match jobs[i]? with
  | none => pure jobs
  | some job => do
    let job ← step job
    pure (jobs.set i job)

/-- Some steps of the jobs, the next one to step is picked each time. -/
def interleave (pick : Program κ Answer ℕ) (step : J → Program κ Answer J) :
    ℕ → List J → Program κ Answer (List J)
  | 0, jobs => pure jobs
  | rounds + 1, jobs => do
    let i ← pick
    let jobs ← advanceAt step i jobs
    interleave pick step rounds jobs

/-- What is left of the jobs, one after the other. -/
def finishAll (finish : J → Program κ Answer R) : List J → Program κ Answer (List R)
  | [] => pure []
  | job :: jobs => do
    let result ← finish job
    let results ← finishAll finish jobs
    pure (result :: results)

/-- The jobs run in any interleaving; all have ended when the program goes on. -/
def concurrently (pick : Program κ Answer ℕ) (step : J → Program κ Answer J)
    (finish : J → Program κ Answer R) (jobs : List J) : Program κ Answer (List R) := do
  let rounds ← pick
  let jobs ← interleave pick step rounds jobs
  finishAll finish jobs

end Jobs

end Program

/-- What a thread keeps track of: the commands that are allowed, the answers that are possible,
and what it knows after an answer. -/
structure Discipline (κ : Type) (Answer : κ → Type) (L : Type) where
  allowed : κ → L → Prop
  possible : (command : κ) → Answer command → L → Prop
  after : (command : κ) → Answer command → L → L

namespace Program

variable {κ : Type} {Answer : κ → Type} {L α β : Type} (D : Discipline κ Answer L)

/-- Every command of the program is allowed where it is performed, and what is known at the end
is as required. -/
def Safe : Program κ Answer α → (α → L → Prop) → L → Prop
  | done value, Q, l => Q value l
  | act command next, Q, l =>
    D.allowed command l ∧ ∀ answer, D.possible command answer l →
      (next answer).Safe Q (D.after command answer l)

variable {D}

@[simp] theorem safe_pure {value : α} {Q : α → L → Prop} {l : L} :
    (pure value : Program κ Answer α).Safe D Q l ↔ Q value l := Iff.rfl

theorem safe_perform {command : κ} {Q : Answer command → L → Prop} {l : L} :
    (perform command).Safe D Q l ↔
      D.allowed command l ∧ ∀ answer, D.possible command answer l →
        Q answer (D.after command answer l) := Iff.rfl

theorem safe_bind (p : Program κ Answer α) (f : α → Program κ Answer β) {Q : β → L → Prop}
    {l : L} : (p >>= f).Safe D Q l ↔ p.Safe D (fun value l => (f value).Safe D Q l) l := by
  induction p generalizing l with
  | done value => exact Iff.rfl
  | act command next ih =>
    refine and_congr_right fun _ => ?_
    refine forall_congr' fun answer => imp_congr_right fun _ => ?_
    exact ih answer

/-- A command and what follows it. -/
theorem safe_perform_bind {command : κ} {f : Answer command → Program κ Answer β}
    {Q : β → L → Prop} {l : L} : (perform command >>= f).Safe D Q l ↔
      D.allowed command l ∧ ∀ answer, D.possible command answer l →
        (f answer).Safe D Q (D.after command answer l) :=
  (safe_bind _ _).trans safe_perform

theorem Safe.mono {p : Program κ Answer α} {Q Q' : α → L → Prop} {l : L} (h : p.Safe D Q l)
    (himp : ∀ value l, Q value l → Q' value l) : p.Safe D Q' l := by
  induction p generalizing l with
  | done value => exact himp value l h
  | act command next ih =>
    refine ⟨h.1, ?_⟩
    intro answer hanswer
    exact ih answer (h.2 answer hanswer)

/-- A program goes on safely after one that is safe. -/
theorem Safe.bind {p : Program κ Answer α} {f : α → Program κ Answer β} {Q : α → L → Prop}
    {Q' : β → L → Prop} {l : L} (h : p.Safe D Q l)
    (hf : ∀ value l, Q value l → (f value).Safe D Q' l) : (p >>= f).Safe D Q' l :=
  (safe_bind p f).mpr (h.mono hf)

section Jobs

variable {J R : Type} {pick : Program κ Answer ℕ} {step : J → Program κ Answer J}
  {finish : J → Program κ Answer R} {I : List J → L → Prop}

theorem Safe.advanceAt (hstep : ∀ before job after l, I (before ++ job :: after) l →
      (step job).Safe D (fun job' l' => I (before ++ job' :: after) l') l)
    {jobs : List J} {l : L} (h : I jobs l) (i : ℕ) : (advanceAt step i jobs).Safe D I l := by
  unfold Program.advanceAt
  cases hjob : jobs[i]? with
  | none => exact h
  | some job =>
    obtain ⟨before, after, rfl, hlength⟩ : ∃ before after, jobs = before ++ job :: after ∧
        before.length = i := by
      obtain ⟨hi, hget⟩ := List.getElem?_eq_some_iff.mp hjob
      refine ⟨jobs.take i, jobs.drop (i + 1), ?_, by simp; omega⟩
      rw [← hget, List.getElem_cons_drop, List.take_append_drop]
    refine (hstep before job after l h).bind ?_
    intro job' l' hI
    rw [← hlength, List.set_append_right _ _ (le_refl _), Nat.sub_self]
    exact hI

/-- What the steps of the jobs preserve holds when they are interleaved. -/
theorem Safe.interleave (hpick : ∀ l, pick.Safe D (fun _ l' => l' = l) l)
    (hstep : ∀ before job after l, I (before ++ job :: after) l →
      (step job).Safe D (fun job' l' => I (before ++ job' :: after) l') l)
    (rounds : ℕ) {jobs : List J} {l : L} (h : I jobs l) :
    (interleave pick step rounds jobs).Safe D I l := by
  induction rounds generalizing jobs l with
  | zero => exact h
  | succ rounds ih =>
    refine (hpick l).bind ?_
    intro i l' hl'
    subst hl'
    refine (Safe.advanceAt hstep h i).bind ?_
    intro jobs' l'' hI
    exact ih hI

theorem Safe.finishAll {embed : R → J} {P : R → Prop}
    (hfinish : ∀ before job after l, I (before ++ job :: after) l →
      (finish job).Safe D (fun result l' => P result ∧ I (before ++ embed result :: after) l') l)
    (before : List R) {jobs : List J} {l : L} (h : I (before.map embed ++ jobs) l) :
    (finishAll finish jobs).Safe D (fun results l' =>
      (∀ result ∈ results, P result) ∧ I ((before ++ results).map embed) l') l := by
  induction jobs generalizing before l with
  | nil =>
    refine ⟨by simp, ?_⟩
    rwa [List.append_nil] at h ⊢
  | cons job jobs ih =>
    refine (hfinish _ job jobs l h).bind ?_
    intro result l' hresult
    obtain ⟨hP, hI⟩ := hresult
    refine (ih (before ++ [result]) (by simpa using hI)).bind ?_
    intro results l'' hresults
    obtain ⟨hPs, hI'⟩ := hresults
    refine ⟨List.forall_mem_cons.mpr ⟨hP, hPs⟩, ?_⟩
    simpa using hI'

theorem Safe.concurrently {embed : R → J} {P : R → Prop}
    (hpick : ∀ l, pick.Safe D (fun _ l' => l' = l) l)
    (hstep : ∀ before job after l, I (before ++ job :: after) l →
      (step job).Safe D (fun job' l' => I (before ++ job' :: after) l') l)
    (hfinish : ∀ before job after l, I (before ++ job :: after) l →
      (finish job).Safe D (fun result l' => P result ∧ I (before ++ embed result :: after) l') l)
    {jobs : List J} {l : L} (h : I jobs l) :
    (concurrently pick step finish jobs).Safe D (fun results l' =>
      (∀ result ∈ results, P result) ∧ I (results.map embed) l') l := by
  refine (hpick l).bind ?_
  intro rounds l' hl'
  subst hl'
  refine (Safe.interleave hpick hstep rounds h).bind ?_
  intro jobs' l'' hI
  exact Safe.finishAll hfinish [] hI

end Jobs

end Program

/-- Threads and their surroundings: what a command of a thread does for an answer, what happens
without a thread, and the programs that a thread may start. -/
structure System (κ : Type) (Answer : κ → Type) (σ : Type) where
  exec : ℕ → (command : κ) → Answer command → σ → Option σ
  environment : σ → σ → Prop
  operation : Program κ Answer Unit → Prop

/-- The shared state and what every thread still has to do. -/
structure Config (κ : Type) (Answer : κ → Type) (σ : Type) where
  shared : σ
  threads : ℕ → Program κ Answer Unit

namespace System

variable {κ : Type} {Answer : κ → Type} {σ L : Type} (S : System κ Answer σ)

/-- One step of a run whose commands meet the guard. -/
inductive Step (guard : ℕ → κ → σ → Prop) : Config κ Answer σ → Config κ Answer σ → Prop
  | start {config : Config κ Answer σ} (t : ℕ) (p : Program κ Answer Unit)
      (hdone : config.threads t = .done ()) (hp : S.operation p) :
      Step guard config ⟨config.shared, Function.update config.threads t p⟩
  | act {config : Config κ Answer σ} {shared : σ} (t : ℕ) (command : κ)
      (next : Answer command → Program κ Answer Unit) (answer : Answer command)
      (hthread : config.threads t = .act command next) (hguard : guard t command config.shared)
      (hexec : S.exec t command answer config.shared = some shared) :
      Step guard config ⟨shared, Function.update config.threads t (next answer)⟩
  | environment {config : Config κ Answer σ} {shared : σ}
      (h : S.environment config.shared shared) : Step guard config ⟨shared, config.threads⟩

def Run (guard : ℕ → κ → σ → Prop) : Config κ Answer σ → Config κ Answer σ → Prop :=
  Relation.ReflTransGen (S.Step guard)

/-- The threads are disciplined and the invariant holds for what they keep track of. -/
def Invariant (D : Discipline κ Answer L) (free : L → Prop) (I : σ → (ℕ → L) → Prop)
    (config : Config κ Answer σ) : Prop :=
  ∃ locals : ℕ → L, I config.shared locals ∧
    ∀ t, (config.threads t).Safe D (fun _ l => free l) (locals t)

variable {S} {D : Discipline κ Answer L} {free : L → Prop} {I : σ → (ℕ → L) → Prop}
  {guard : ℕ → κ → σ → Prop}

theorem safe_update {threads : ℕ → Program κ Answer Unit} {locals : ℕ → L}
    (h : ∀ t, (threads t).Safe D (fun _ l => free l) (locals t)) {t : ℕ}
    {p : Program κ Answer Unit} {l : L} (hp : p.Safe D (fun _ l => free l) l) (t' : ℕ) :
    (Function.update threads t p t').Safe D (fun _ l => free l)
      (Function.update locals t l t') := by
  by_cases ht : t' = t
  · subst ht
    rwa [Function.update_self, Function.update_self]
  · rw [Function.update_of_ne ht, Function.update_of_ne ht]
    exact h t'

theorem Step.invariant
    (hoperation : ∀ p, S.operation p → ∀ l, free l → p.Safe D (fun _ l => free l) l)
    (hact : ∀ t command answer s s' locals, I s locals → D.allowed command (locals t) →
      guard t command s → S.exec t command answer s = some s' →
      D.possible command answer (locals t) ∧
        I s' (Function.update locals t (D.after command answer (locals t))))
    (henvironment : ∀ s s' locals, I s locals → S.environment s s' → I s' locals)
    {config config' : Config κ Answer σ} (hstep : S.Step guard config config')
    (h : Invariant D free I config) : Invariant D free I config' := by
  obtain ⟨locals, hI, hthreads⟩ := h
  cases hstep with
  | start t p hdone hp =>
    have hfree := hthreads t
    rw [hdone] at hfree
    have hsafe := safe_update hthreads (t := t) (hoperation p hp (locals t) hfree)
    rw [Function.update_eq_self] at hsafe
    exact ⟨locals, hI, hsafe⟩
  | act t command next answer hthread hguard hexec =>
    have hsafe := hthreads t
    rw [hthread] at hsafe
    obtain ⟨hallowed, hnext⟩ := hsafe
    obtain ⟨hpossible, hI'⟩ := hact t command answer _ _ locals hI hallowed hguard hexec
    exact ⟨_, hI', safe_update hthreads (hnext answer hpossible)⟩
  | environment h => exact ⟨locals, henvironment _ _ _ hI h, hthreads⟩

/-- What every step preserves holds at the end of a run. -/
theorem Run.invariant
    (hoperation : ∀ p, S.operation p → ∀ l, free l → p.Safe D (fun _ l => free l) l)
    (hact : ∀ t command answer s s' locals, I s locals → D.allowed command (locals t) →
      guard t command s → S.exec t command answer s = some s' →
      D.possible command answer (locals t) ∧
        I s' (Function.update locals t (D.after command answer (locals t))))
    (henvironment : ∀ s s' locals, I s locals → S.environment s s' → I s' locals)
    {config config' : Config κ Answer σ} (hrun : S.Run guard config config')
    (h : Invariant D free I config) : Invariant D free I config' := by
  induction hrun with
  | refl => exact h
  | tail _ hstep ih => exact hstep.invariant hoperation hact henvironment ih

end System

end Mago.Library
