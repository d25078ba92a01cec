import Mathlib

/-!
# What a parser consumes

A parser takes tokens from a list, and returns or fails. It may record errors and go on, but takes
none back, and it may note what it meets; nothing reads the notes. It may also run out of fuel,
which is no outcome at all. Statements are about the runs that return and record no error: which
tokens these consumed and what they noted.
-/
namespace Mago.Library

structure ParserState (τ ε ν : Type) where
  tokens : List τ
  position : ℕ
  errors : List ε
  notes : List ν

structure Parser (τ ε ν α : Type) where
  run : ParserState τ ε ν → Option (Except ε α × ParserState τ ε ν)
  grows : ∀ {s result s'}, run s = some (result, s') → s.errors.length ≤ s'.errors.length

namespace Parser

variable {τ ε ν α β : Type}

/-- A parser that reads the state and may change it, but for the errors. -/
def reads (f : ParserState τ ε ν → Except ε α × ParserState τ ε ν)
    (h : ∀ s, s.errors.length ≤ (f s).2.errors.length) : Parser τ ε ν α where
  run s := some (f s)
  grows := by
    intro s result s' hrun
    obtain rfl : s' = (f s).2 := congrArg Prod.snd (Option.some.inj hrun).symm
    exact h s

instance : Monad (Parser τ ε ν) where
  pure a := reads (fun s => (.ok a, s)) fun _ => le_rfl
  bind p f :=
    { run := fun s =>
        match p.run s with
        | none => none
        | some (.error e, s') => some (.error e, s')
        | some (.ok a, s') => (f a).run s'
      grows := by
        intro s result s' hrun

        split at hrun
        · cases hrun
        · next e s₁ hfirst =>
          obtain ⟨-, rfl⟩ := Prod.mk.inj (Option.some.inj hrun)
          exact p.grows hfirst
        · next a s₁ hfirst => exact (p.grows hfirst).trans ((f a).grows hrun) }

def outOfFuel : Parser τ ε ν α where
  run _ := none
  grows := by
    intro s result s' h
    cases h

def fail (e : ε) : Parser τ ε ν α := reads (fun s => (.error e, s)) fun _ => le_rfl

def lookahead (n : ℕ) : Parser τ ε ν (Option τ) :=
  reads (fun s => (.ok s.tokens[n]?, s)) fun _ => le_rfl

def position : Parser τ ε ν ℕ := reads (fun s => (.ok s.position, s)) fun _ => le_rfl

/-- The next token, at whose end the parser then is; none at the end of the input. -/
def advance (stop : τ → ℕ) : Parser τ ε ν (Option τ) :=
  reads (fun s =>
      match s.tokens with
      | [] => (.ok none, s)
      | token :: rest => (.ok (some token), { s with tokens := rest, position := stop token }))
    fun s => by
      cases s with
      | mk tokens position errors notes => cases tokens <;> exact le_rfl

def record (e : ε) : Parser τ ε ν Unit :=
  reads (fun s => (.ok (), { s with errors := s.errors ++ [e] })) fun s => by
    rw [List.length_append]
    exact Nat.le_add_right _ _

def note (n : ν) : Parser τ ε ν Unit :=
  reads (fun s => (.ok (), { s with notes := s.notes ++ [n] })) fun _ => le_rfl

/-- A failure is recorded, and the parser goes on without a result. -/
def recover (p : Parser τ ε ν α) : Parser τ ε ν (Option α) where
  run s :=
    match p.run s with
    | none => none
    | some (.error e, s') => some (.ok none, { s' with errors := s'.errors ++ [e] })
    | some (.ok a, s') => some (.ok (some a), s')
  grows := by
    intro s result s' hrun
    split at hrun
    · cases hrun
    · next e s₁ hfirst =>
      obtain ⟨-, rfl⟩ := Prod.mk.inj (Option.some.inj hrun)
      have hle := p.grows hfirst
      rw [List.length_append]
      omega
    · next a s₁ hfirst =>
      obtain ⟨-, rfl⟩ := Prod.mk.inj (Option.some.inj hrun)
      exact p.grows hfirst

/-! ## Runs that record no error -/

/-- From a state, a run that returns and records no error has consumed tokens and noted what
`P` says of its result. -/
def ConsumesAt (s : ParserState τ ε ν) (p : Parser τ ε ν α) (P : α → List τ → List ν → Prop) :
    Prop :=
  ∀ a s', p.run s = some (.ok a, s') → s'.errors.length = s.errors.length →
    ∃ consumed notes, s.tokens = consumed ++ s'.tokens ∧ s'.notes = s.notes ++ notes ∧
      P a consumed notes

variable {s : ParserState τ ε ν} {p : Parser τ ε ν α} {f : α → Parser τ ε ν β}
  {P : α → List τ → List ν → Prop} {Q : β → List τ → List ν → Prop}

theorem consumesAt_outOfFuel : ConsumesAt s outOfFuel P := by
  intro a s' h
  cases h

theorem consumesAt_fail (e : ε) : ConsumesAt s (fail e) P := by
  intro a s' h
  cases h

theorem consumesAt_pure {a : α} (h : P a [] []) : ConsumesAt s (pure a) P := by
  intro b s' hrun _
  obtain ⟨hb, rfl⟩ := Prod.mk.inj (Option.some.inj hrun)
  obtain rfl := Except.ok.inj hb
  exact ⟨[], [], rfl, (List.append_nil _).symm, h⟩

theorem ConsumesAt.weaken {P' : α → List τ → List ν → Prop} (h : ConsumesAt s p P)
    (himp : ∀ a consumed notes, P a consumed notes → P' a consumed notes) :
    ConsumesAt s p P' := by
  intro a s' hrun herrors
  obtain ⟨consumed, notes, htokens, hnotes, hP⟩ := h a s' hrun herrors
  exact ⟨consumed, notes, htokens, hnotes, himp a consumed notes hP⟩

theorem run_bind_ok {b : β} {s' : ParserState τ ε ν}
    (h : (p >>= f).run s = some (.ok b, s')) :
    ∃ a s₁, p.run s = some (.ok a, s₁) ∧ (f a).run s₁ = some (.ok b, s') := by
  have hunfold : (p >>= f).run s = match p.run s with
      | none => none
      | some (.error e, s') => some (.error e, s')
      | some (.ok a, s') => (f a).run s' := rfl
  rw [hunfold] at h
  split at h
  · cases h
  · cases h
  · next a s₁ hfirst => exact ⟨a, s₁, hfirst, h⟩

/-- What a run consumed and noted is determined by the states around it. -/
theorem ConsumesAt.and {P' : α → List τ → List ν → Prop} (h : ConsumesAt s p P)
    (h' : ConsumesAt s p P') :
    ConsumesAt s p fun a consumed notes => P a consumed notes ∧ P' a consumed notes := by
  intro a s' hrun herrors
  obtain ⟨consumed, notes, htokens, hnotes, hP⟩ := h a s' hrun herrors
  obtain ⟨consumed', notes', htokens', hnotes', hP'⟩ := h' a s' hrun herrors
  obtain rfl := List.append_cancel_right (htokens.symm.trans htokens')
  obtain rfl := List.append_cancel_left (hnotes.symm.trans hnotes')
  exact ⟨consumed, notes, htokens, hnotes, hP, hP'⟩

/-- A sequence consumes what its parts consume, one after the other. -/
theorem ConsumesAt.bind (hp : ConsumesAt s p P)
    (hf : ∀ a s' consumed notes, s.tokens = consumed ++ s'.tokens → P a consumed notes →
      ConsumesAt s' (f a) fun b consumed' notes' => Q b (consumed ++ consumed') (notes ++ notes')) :
    ConsumesAt s (p >>= f) Q := by
  intro b s' hrun herrors
  obtain ⟨a, s₁, hfirst, hsecond⟩ := run_bind_ok hrun
  -- No error is recorded by either part, since none is taken back.
  have hle := p.grows hfirst
  have hle' := (f a).grows hsecond
  obtain ⟨consumed, notes, htokens, hnotes, hP⟩ := hp a s₁ hfirst (by omega)
  obtain ⟨consumed', notes', htokens', hnotes', hQ⟩ :=
    hf a s₁ consumed notes htokens hP b s' hsecond (by omega)
  refine ⟨consumed ++ consumed', notes ++ notes', ?_, ?_, hQ⟩
  · rw [htokens, htokens', List.append_assoc]
  · rw [hnotes', hnotes, List.append_assoc]

theorem consumesAt_lookahead {n : ℕ} {f : Option τ → Parser τ ε ν β}
    (h : ConsumesAt s (f s.tokens[n]?) Q) : ConsumesAt s (lookahead n >>= f) Q := by
  intro b s' hrun herrors
  obtain ⟨a, s₁, hfirst, hsecond⟩ := run_bind_ok hrun
  obtain ⟨ha, rfl⟩ := Prod.mk.inj (Option.some.inj hfirst)
  obtain rfl := Except.ok.inj ha
  exact h b s' hsecond herrors

theorem consumesAt_position {f : ℕ → Parser τ ε ν β} (h : ConsumesAt s (f s.position) Q) :
    ConsumesAt s (position >>= f) Q := by
  intro b s' hrun herrors
  obtain ⟨a, s₁, hfirst, hsecond⟩ := run_bind_ok hrun
  obtain ⟨ha, rfl⟩ := Prod.mk.inj (Option.some.inj hfirst)
  obtain rfl := Except.ok.inj ha
  exact h b s' hsecond herrors

theorem consumesAt_advance {stop : τ → ℕ} {f : Option τ → Parser τ ε ν β}
    (hnone : s.tokens = [] → ConsumesAt s (f none) Q)
    (hsome : ∀ token s', s.tokens = token :: s'.tokens →
      ConsumesAt s' (f (some token)) fun b consumed notes => Q b (token :: consumed) notes) :
    ConsumesAt s (advance stop >>= f) Q := by
  intro b s' hrun herrors
  obtain ⟨a, s₁, hfirst, hsecond⟩ := run_bind_ok hrun
  have hrun : (advance stop : Parser τ ε ν (Option τ)).run s = some (match s.tokens with
      | [] => (.ok none, s)
      | token :: rest => (.ok (some token), { s with tokens := rest, position := stop token })) :=
    rfl
  rw [hrun] at hfirst
  cases htokens : s.tokens with
  | nil =>
    rw [htokens] at hfirst
    obtain ⟨ha, rfl⟩ := Prod.mk.inj (Option.some.inj hfirst)
    obtain rfl := Except.ok.inj ha
    obtain ⟨consumed, notes, htaken, hrest⟩ := hnone htokens b s' hsecond herrors
    exact ⟨consumed, notes, htokens.symm.trans htaken, hrest⟩
  | cons token rest =>
    rw [htokens] at hfirst
    obtain ⟨ha, rfl⟩ := Prod.mk.inj (Option.some.inj hfirst)
    obtain rfl := Except.ok.inj ha
    obtain ⟨consumed, notes, htaken, hnotes, hQ⟩ := hsome token _ htokens b s' hsecond herrors
    exact ⟨token :: consumed, notes, congrArg (token :: ·) htaken, hnotes, hQ⟩

theorem consumesAt_record {e : ε} {f : Unit → Parser τ ε ν β} :
    ConsumesAt s (record e >>= f) Q := by
  intro b s' hrun herrors
  obtain ⟨a, s₁, hfirst, hsecond⟩ := run_bind_ok hrun
  obtain ⟨-, rfl⟩ := Prod.mk.inj (Option.some.inj hfirst)
  have hle := (f a).grows hsecond
  rw [List.length_append, List.length_singleton] at hle
  omega

theorem consumesAt_note {n : ν} {f : Unit → Parser τ ε ν β}
    (h : ∀ s', ConsumesAt s' (f ()) fun b consumed notes => Q b consumed (n :: notes)) :
    ConsumesAt s (note n >>= f) Q := by
  intro b s' hrun herrors
  obtain ⟨a, s₁, hfirst, hsecond⟩ := run_bind_ok hrun
  obtain ⟨-, rfl⟩ := Prod.mk.inj (Option.some.inj hfirst)
  obtain ⟨consumed, notes, htokens, hnotes, hQ⟩ := h _ b s' hsecond herrors
  refine ⟨consumed, n :: notes, htokens, ?_, hQ⟩
  rw [hnotes, List.append_assoc, List.singleton_append]

/-- Where no error is recorded, a parser that could recover did not need to. -/
theorem ConsumesAt.recover (h : ConsumesAt s p P) :
    ConsumesAt s (Parser.recover p) fun o consumed notes =>
      ∃ a, o = some a ∧ P a consumed notes := by
  intro o s' hrun herrors
  have hunfold : (Parser.recover p).run s = match p.run s with
      | none => none
      | some (.error e, s') => some (.ok none, { s' with errors := s'.errors ++ [e] })
      | some (.ok a, s') => some (.ok (some a), s') := rfl
  rw [hunfold] at hrun
  split at hrun
  · cases hrun
  · next e s₁ hfirst =>
    obtain ⟨-, rfl⟩ := Prod.mk.inj (Option.some.inj hrun)
    have hle := p.grows hfirst
    rw [List.length_append, List.length_singleton] at herrors
    omega
  · next a s₁ hfirst =>
    obtain ⟨ho, rfl⟩ := Prod.mk.inj (Option.some.inj hrun)
    obtain ⟨consumed, notes, htokens, hnotes, hP⟩ := h a s₁ hfirst herrors
    exact ⟨consumed, notes, htokens, hnotes, a, (Except.ok.inj ho).symm, hP⟩

end Parser

end Mago.Library
