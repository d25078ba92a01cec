import Mathlib.Data.List.TakeWhile
import Mathlib.Data.Nat.Notation
import Mathlib.Logic.Relation
import Mathlib.Tactic

/-!
# Worklists

A stack of items to process, each processed once; an item pushes its successors that are not
processed yet. A budget bounds how many items are processed. When the stack runs empty the
processed items are the ones reachable from the items it started with.
-/
namespace Mago.Library

variable {α : Type*}

/-- The stack once the processed items on top are popped. -/
def skipProcessed [DecidableEq α] (processed stack : List α) : List α :=
  stack.dropWhile fun x => decide (x ∈ processed)

section Skip

variable [DecidableEq α] {processed stack rest : List α} {x : α}

theorem mem_skipProcessed (hx : x ∈ stack) : x ∈ processed ∨ x ∈ skipProcessed processed stack := by
  rw [← List.takeWhile_append_dropWhile (p := fun x => decide (x ∈ processed)) (l := stack),
    List.mem_append] at hx
  rcases hx with hx | hx
  · exact .inl (by simpa using List.mem_takeWhile_imp hx)
  · exact .inr hx

theorem mem_of_mem_skipProcessed (hx : x ∈ skipProcessed processed stack) : x ∈ stack :=
  (List.dropWhile_sublist _).subset hx

theorem not_mem_of_skipProcessed (h : skipProcessed processed stack = x :: rest) :
    x ∉ processed := by
  have hhead := List.head?_dropWhile_not (fun x => decide (x ∈ processed)) stack
  rw [← skipProcessed, h] at hhead
  simpa using hhead

end Skip

/-- `push` gives what an item pushes, when it and the items before it are processed; items that
are processed already are skipped. -/
def worklist [DecidableEq α] (push : List α → α → List α) : ℕ → List α → List α → Option (List α)
  | budget, processed, stack =>
    match skipProcessed processed stack with
    | [] => some processed
    | x :: rest =>
      match budget with
      | 0 => none
      | budget + 1 => worklist push budget (x :: processed) (push (x :: processed) x ++ rest)

/-- Reachable from one of the items. -/
def ReachableFrom (step : α → α → Prop) (seeds : List α) (x : α) : Prop :=
  ∃ s ∈ seeds, Relation.ReflTransGen step s x

/-- There are more than `n` items with a property. -/
def MoreThan (n : ℕ) (P : α → Prop) : Prop :=
  ∃ met : List α, met.Nodup ∧ met.length = n + 1 ∧ ∀ x ∈ met, P x

theorem MoreThan.mono {n : ℕ} {P Q : α → Prop} (h : MoreThan n P) (hPQ : ∀ x, P x → Q x) :
    MoreThan n Q := by
  obtain ⟨met, hnodup, hlength, hmet⟩ := h
  exact ⟨met, hnodup, hlength, fun x hx => hPQ x (hmet x hx)⟩

/-- Everything that is processed has its successors processed or on the stack. -/
structure WorklistInvariant (step : α → α → Prop) (seeds processed stack : List α) : Prop where
  nodup : processed.Nodup
  processed_reachable : ∀ x ∈ processed, ReachableFrom step seeds x
  stack_reachable : ∀ x ∈ stack, ReachableFrom step seeds x
  seeds_found : ∀ x ∈ seeds, x ∈ processed ∨ x ∈ stack
  steps_found : ∀ x ∈ processed, ∀ y, step x y → y ∈ processed ∨ y ∈ stack

namespace WorklistInvariant

variable {step : α → α → Prop} {seeds processed stack rest : List α} {x : α}
  {push : List α → α → List α}

theorem initial (seeds : List α) : WorklistInvariant step seeds [] seeds where
  nodup := List.nodup_nil
  processed_reachable := by simp
  stack_reachable := fun x hx => ⟨x, hx, .refl⟩
  seeds_found := fun x hx => .inr hx
  steps_found := by simp

/-- Skipping processed items keeps the invariant. -/
theorem skip [DecidableEq α] (h : WorklistInvariant step seeds processed stack) :
    WorklistInvariant step seeds processed (skipProcessed processed stack) := by
  refine ⟨h.nodup, h.processed_reachable, ?_, ?_, ?_⟩
  · intro y hy
    exact h.stack_reachable y (mem_of_mem_skipProcessed hy)
  · intro y hy
    rcases h.seeds_found y hy with hy | hy
    · exact .inl hy
    · exact mem_skipProcessed hy
  · intro y hy z hz
    rcases h.steps_found y hy z hz with hz | hz
    · exact .inl hz
    · exact mem_skipProcessed hz

/-- Processing the item on top keeps the invariant. -/
theorem process (h : WorklistInvariant step seeds processed (x :: rest)) (hx : x ∉ processed)
    (hsound : ∀ y ∈ push (x :: processed) x, step x y)
    (hcomplete : ∀ y, step x y → y ∈ x :: processed ∨ y ∈ push (x :: processed) x) :
    WorklistInvariant step seeds (x :: processed) (push (x :: processed) x ++ rest) := by
  have hreach : ReachableFrom step seeds x := h.stack_reachable x List.mem_cons_self
  have hmove (y : α) (hy : y ∈ processed ∨ y ∈ x :: rest) :
      y ∈ x :: processed ∨ y ∈ push (x :: processed) x ++ rest := by
    rcases hy with hy | hy
    · exact .inl (List.mem_cons_of_mem _ hy)
    · rcases List.mem_cons.mp hy with rfl | hy
      · exact .inl List.mem_cons_self
      · exact .inr (List.mem_append_right _ hy)
  refine ⟨List.nodup_cons.mpr ⟨hx, h.nodup⟩, ?_, ?_, ?_, ?_⟩
  · intro y hy
    rcases List.mem_cons.mp hy with rfl | hy
    · exact hreach
    · exact h.processed_reachable y hy
  · intro y hy
    rcases List.mem_append.mp hy with hy | hy
    · obtain ⟨s, hs, hsx⟩ := hreach
      exact ⟨s, hs, hsx.tail (hsound y hy)⟩
    · exact h.stack_reachable y (List.mem_cons_of_mem _ hy)
  · intro y hy
    exact hmove y (h.seeds_found y hy)
  · intro y hy z hz
    rcases List.mem_cons.mp hy with rfl | hy
    · rcases hcomplete z hz with hz | hz
      · exact .inl hz
      · exact .inr (List.mem_append_left _ hz)
    · exact hmove z (h.steps_found y hy z hz)

/-- With an empty stack the processed items are closed. -/
theorem mem_iff (h : WorklistInvariant step seeds processed []) :
    x ∈ processed ↔ ReachableFrom step seeds x := by
  refine ⟨h.processed_reachable x, ?_⟩
  rintro ⟨s, hs, hsx⟩
  induction hsx with
  | refl => simpa using h.seeds_found s hs
  | tail _ hstep ih => simpa using h.steps_found _ ih _ hstep

end WorklistInvariant

section Correct

variable {step : α → α → Prop} {seeds : List α} {push : List α → α → List α}

/-- What an item pushes are its successors, all but processed ones. -/
structure PushesSteps (step : α → α → Prop) (push : List α → α → List α) : Prop where
  sound : ∀ processed x, ∀ y ∈ push processed x, step x y
  complete : ∀ processed x, ∀ y, step x y → y ∈ processed ∨ y ∈ push processed x

/-- A worklist that ends has processed what is reachable, each item once. -/
theorem worklist_some [DecidableEq α] (hpush : PushesSteps step push) :
    ∀ {budget : ℕ} {processed stack result : List α},
      WorklistInvariant step seeds processed stack →
      worklist push budget processed stack = some result →
      WorklistInvariant step seeds result [] ∧ result.length ≤ processed.length + budget := by
  intro budget
  induction budget with
  | zero =>
    intro processed stack result h hresult
    have hskip := h.skip
    unfold worklist at hresult
    split at hresult
    case h_1 hnil =>
      cases hresult
      exact ⟨hnil ▸ hskip, by omega⟩
    case h_2 => cases hresult
  | succ budget ih =>
    intro processed stack result h hresult
    have hskip := h.skip
    unfold worklist at hresult
    split at hresult
    case h_1 hnil =>
      cases hresult
      exact ⟨hnil ▸ hskip, by omega⟩
    case h_2 x rest hcons =>
      have hx : x ∉ processed := not_mem_of_skipProcessed hcons
      rw [hcons] at hskip
      obtain ⟨hinv, hlength⟩ :=
        ih (hskip.process hx (hpush.sound _ x) (hpush.complete _ x)) hresult
      refine ⟨hinv, ?_⟩
      rw [List.length_cons] at hlength
      omega

/-- A worklist that gives up has met more reachable items than its budget. -/
theorem worklist_none [DecidableEq α] (hpush : PushesSteps step push) :
    ∀ {budget : ℕ} {processed stack : List α},
      WorklistInvariant step seeds processed stack →
      worklist push budget processed stack = none →
      MoreThan (processed.length + budget) (ReachableFrom step seeds) := by
  intro budget
  induction budget with
  | zero =>
    intro processed stack h hnone
    have hskip := h.skip
    unfold worklist at hnone
    split at hnone
    case h_1 => cases hnone
    case h_2 x rest hcons =>
      have hx : x ∉ processed := not_mem_of_skipProcessed hcons
      rw [hcons] at hskip
      refine ⟨x :: processed, List.nodup_cons.mpr ⟨hx, h.nodup⟩, by simp, ?_⟩
      intro y hy
      rcases List.mem_cons.mp hy with rfl | hy
      · exact hskip.stack_reachable y List.mem_cons_self
      · exact h.processed_reachable y hy
  | succ budget ih =>
    intro processed stack h hnone
    have hskip := h.skip
    unfold worklist at hnone
    split at hnone
    case h_1 => cases hnone
    case h_2 x rest hcons =>
      have hx : x ∉ processed := not_mem_of_skipProcessed hcons
      rw [hcons] at hskip
      obtain ⟨met, hnodup, hlength, hmet⟩ :=
        ih (hskip.process hx (hpush.sound _ x) (hpush.complete _ x)) hnone
      refine ⟨met, hnodup, ?_, hmet⟩
      rw [hlength, List.length_cons]
      omega

/-- The items a worklist that ends has processed are the reachable ones. -/
theorem mem_worklist [DecidableEq α] (hpush : PushesSteps step push) {budget : ℕ}
    {result : List α} (hresult : worklist push budget [] seeds = some result) {x : α} :
    x ∈ result ↔ ReachableFrom step seeds x :=
  (worklist_some hpush (.initial seeds) hresult).1.mem_iff

/-- A worklist gives up exactly when there are more reachable items than its budget. -/
theorem worklist_eq_none_iff [DecidableEq α] (hpush : PushesSteps step push) {budget : ℕ} :
    worklist push budget [] seeds = none ↔ MoreThan budget (ReachableFrom step seeds) := by
  constructor
  · intro hnone
    simpa using worklist_none hpush (.initial seeds) hnone
  · rintro ⟨met, hnodup, hlength, hmet⟩
    cases hresult : worklist push budget [] seeds with
    | none => rfl
    | some result =>
      have hbound := (worklist_some hpush (.initial seeds) hresult).2
      have hsub : met ⊆ result := fun x hx => (mem_worklist hpush hresult).mpr (hmet x hx)
      have hle := (hnodup.subperm hsub).length_le
      rw [List.length_nil] at hbound
      omega

end Correct

end Mago.Library
