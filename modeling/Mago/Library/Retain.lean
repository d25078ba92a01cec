import Mathlib

/-!
# Passes that drop items

Each pass steps through a list of items with a state; a step may change the state and then
drops its item. Passes repeat as long as the one before dropped something, or until the state
is done.
-/
namespace Mago.Library

variable {σ ι : Type*} (step : σ → ι → σ × Bool) (done : σ → Bool)

/-- One pass: the state after it and the items it keeps. A step returns whether its item is
kept. -/
def retainPass (s : σ) : List ι → σ × List ι
  | [] => (s, [])
  | i :: is =>
    let r := retainPass (step s i).1 is
    (r.1, if (step s i).2 then i :: r.2 else r.2)

section Pass

variable {step} {s : σ} {is js : List ι} {i : ι}

theorem retainPass_sublist : (retainPass step s is).2.Sublist is := by
  induction is generalizing s with
  | nil => exact List.Sublist.slnil
  | cons i is ih =>
    rw [retainPass]
    dsimp only
    split
    · exact ih.cons_cons i
    · exact ih.cons i

/-- What the steps keep holds after a pass. -/
theorem retainPass_invariant {P : σ → Prop} (hs : P s)
    (hstep : ∀ s, P s → ∀ i ∈ is, P (step s i).1) : P (retainPass step s is).1 := by
  induction is generalizing s with
  | nil => exact hs
  | cons i is ih =>
    exact ih (hstep s hs i (by simp)) fun s hs j hj => hstep s hs j (List.mem_cons_of_mem _ hj)

/-- A dropped item leaves its mark, which the steps after it do not remove. -/
theorem mem_or_spent {P : σ → Prop} {Spent : ι → σ → Prop} (hs : P s)
    (hstep : ∀ s, P s → ∀ i ∈ is, P (step s i).1)
    (hdrop : ∀ s, P s → ∀ i ∈ is, (step s i).2 = false → Spent i (step s i).1)
    (hstay : ∀ s, P s → ∀ i, ∀ j ∈ is, Spent i s → Spent i (step s j).1) (hi : i ∈ is) :
    i ∈ (retainPass step s is).2 ∨ Spent i (retainPass step s is).1 := by
  induction is generalizing s with
  | nil => cases hi
  | cons j is ih =>
    have hstep' : ∀ s, P s → ∀ i ∈ is, P (step s i).1 :=
      fun s hs i hi => hstep s hs i (List.mem_cons_of_mem _ hi)
    have hj := hstep s hs j (by simp)
    rw [retainPass]
    dsimp only
    by_cases hmem : i ∈ is
    · have hrest := ih hj hstep'
        (fun s hs i hi => hdrop s hs i (List.mem_cons_of_mem _ hi))
        (fun s hs i j hj => hstay s hs i j (List.mem_cons_of_mem _ hj)) hmem
      refine hrest.imp_left fun h => ?_
      split
      · exact List.mem_cons_of_mem _ h
      · exact h
    · obtain rfl : i = j := (List.mem_cons.mp hi).resolve_right hmem
      cases hkeep : (step s i).2 with
      | true => exact Or.inl (by simp)
      | false =>
        have hspent := hdrop s hs i (by simp) hkeep
        refine Or.inr ?_
        refine (retainPass_invariant (P := fun s => P s ∧ Spent i s) ⟨hj, hspent⟩ ?_).2
        intro s hs j hj
        exact ⟨hstep' s hs.1 j hj, hstay s hs.1 i j (List.mem_cons_of_mem _ hj) hs.2⟩

/-- A mark made before the pass is still there after it. -/
theorem spent_retainPass {P : σ → Prop} {Spent : ι → σ → Prop} (hs : P s) (hi : Spent i s)
    (hstep : ∀ s, P s → ∀ i ∈ is, P (step s i).1)
    (hstay : ∀ s, P s → ∀ i, ∀ j ∈ is, Spent i s → Spent i (step s j).1) :
    Spent i (retainPass step s is).1 := by
  refine (retainPass_invariant (P := fun s => P s ∧ Spent i s) ⟨hs, hi⟩ ?_).2
  intro s hs j hj
  exact ⟨hstep s hs.1 j hj, hstay s hs.1 i j hj hs.2⟩

/-- A pass that drops nothing changes nothing, when only dropping steps do. -/
theorem retainPass_of_length (hkeep : ∀ s, ∀ i ∈ is, (step s i).2 = true → (step s i).1 = s)
    (h : ¬ (retainPass step s is).2.length < is.length) :
    (retainPass step s is).1 = s ∧ ∀ i ∈ is, (step s i).2 = true := by
  induction is generalizing s with
  | nil => simp [retainPass]
  | cons i is ih =>
    have hlength : (retainPass step (step s i).1 is).2.length ≤ is.length :=
      retainPass_sublist.length_le
    rw [retainPass] at h
    dsimp only at h
    cases hi : (step s i).2 with
    | false =>
      rw [hi] at h
      simp only [Bool.false_eq_true, if_false, List.length_cons] at h
      omega
    | true =>
      rw [hi] at h
      simp only [if_true, List.length_cons] at h
      have hsame := hkeep s i (by simp) hi
      have hrest := ih (s := (step s i).1)
        (fun s j hj => hkeep s j (List.mem_cons_of_mem _ hj)) (by omega)
      rw [hsame] at hrest
      rw [retainPass]
      refine ⟨by rw [hsame]; exact hrest.1, ?_⟩
      exact List.forall_mem_cons.mpr ⟨hi, hrest.2⟩

end Pass

/-- Passes until the state is done, or until one drops nothing. -/
def retainLoop (s : σ) (is : List ι) : Bool :=
  if done s then true
  else if (retainPass step s is).2.length < is.length then
    retainLoop (retainPass step s is).1 (retainPass step s is).2
  else false
termination_by is.length

section Loop

variable {step} {done} {s : σ} {is : List ι} {P Q : σ → Prop}

/-- A loop that succeeds ends in a state that is done, and what the steps keep holds there. -/
theorem exists_done (h : retainLoop step done s is = true) (hs : P s)
    (hstep : ∀ s, P s → ∀ i ∈ is, P (step s i).1) : ∃ s, P s ∧ done s = true := by
  fun_induction retainLoop step done s is with
  | case1 s is hdone => exact ⟨s, hs, hdone⟩
  | case2 s is hdone hlt ih =>
    apply ih h
    · exact retainPass_invariant hs hstep
    · exact fun s hs i hi => hstep s hs i (retainPass_sublist.subset hi)
  | case3 s is hdone hlt => cases h

/-- A loop that fails is stuck: its state is not done, and every item was kept by a step that
changed nothing or has left its mark. What holds after the first pass and is preserved holds
there. -/
theorem exists_stuck {Spent : ι → σ → Prop} {all : List ι} (h : retainLoop step done s is = false)
    (hs : P s) (hall : ∀ i ∈ all, i ∈ is ∨ Spent i s)
    (hstep : ∀ s, P s → ∀ i ∈ is, P (step s i).1)
    (hkeep : ∀ s, ∀ i ∈ is, (step s i).2 = true → (step s i).1 = s)
    (hdrop : ∀ s, P s → ∀ i ∈ is, (step s i).2 = false → Spent i (step s i).1)
    (hstay : ∀ s, P s → ∀ i, ∀ j ∈ is, Spent i s → Spent i (step s j).1)
    (hfirst : Q (retainPass step s is).1) (hQ : ∀ s, P s → Q s → ∀ i ∈ is, Q (step s i).1) :
    ∃ s, P s ∧ Q s ∧ done s = false ∧ ∀ i ∈ all, (step s i).2 = true ∨ Spent i s := by
  fun_induction retainLoop step done s is with
  | case1 s is hdone => cases h
  | case2 s is hdone hlt ih =>
    have hsub : ∀ i ∈ (retainPass step s is).2, i ∈ is := fun i hi => retainPass_sublist.subset hi
    have hP := retainPass_invariant hs hstep
    have hPQ := retainPass_invariant (P := fun s => P s ∧ Q s) ⟨hP, hfirst⟩ fun s hs i hi =>
      ⟨hstep s hs.1 i (hsub i hi), hQ s hs.1 hs.2 i (hsub i hi)⟩
    have hall' : ∀ i ∈ all, i ∈ (retainPass step s is).2 ∨ Spent i (retainPass step s is).1 := by
      intro i hi
      rcases hall i hi with hi | hi
      · exact mem_or_spent hs hstep hdrop hstay hi
      · exact Or.inr (spent_retainPass hs hi hstep hstay)
    exact ih h hP hall'
      (fun s hs i hi => hstep s hs i (hsub i hi)) (fun s i hi => hkeep s i (hsub i hi))
      (fun s hs i hi => hdrop s hs i (hsub i hi))
      (fun s hs i j hj => hstay s hs i j (hsub j hj)) hPQ.2
      (fun s hs hq i hi => hQ s hs hq i (hsub i hi))
  | case3 s is hdone hlt =>
    obtain ⟨hsame, hkept⟩ := retainPass_of_length hkeep hlt
    rw [hsame] at hfirst
    refine ⟨s, hs, hfirst, by simpa using hdone, fun i hi => ?_⟩
    exact (hall i hi).imp_left fun hi => hkept i hi

/-- A loop fails when its state is not done and what holds after the first pass keeps it so. -/
theorem retainLoop_eq_false (hdone : done s = false) (hfirst : P (retainPass step s is).1)
    (hstep : ∀ s, P s → ∀ i ∈ is, P (step s i).1) (hP : ∀ s, P s → done s = false) :
    retainLoop step done s is = false := by
  rw [retainLoop, if_neg (by simp [hdone])]
  split
  · rw [Bool.eq_false_iff]
    intro h
    have hsub : ∀ i ∈ (retainPass step s is).2, i ∈ is := fun i hi => retainPass_sublist.subset hi
    obtain ⟨s', hs', hdone'⟩ := exists_done h hfirst fun s hs i hi => hstep s hs i (hsub i hi)
    rw [hP s' hs'] at hdone'
    cases hdone'
  · rfl

end Loop

end Mago.Library
