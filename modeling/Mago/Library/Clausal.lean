import Mathlib

/-!
# Clauses over arbitrary literals

A clause is a set of literals and holds in a valuation when one of its literals does.
The rules below are those of clausal simplification: removal of redundant clauses and
distribution of a disjunction over two conjunctions.
-/
namespace Mago.Library

variable {L : Type*}

def Sat (ν : L → Prop) (C : Set L) : Prop := ∃ l ∈ C, ν l

/-- The members that survive a removal, those in `K`, entail all members, when each removed
member follows from members of smaller rank. -/
theorem forall_of_survivors {ι : Type*} {xs : List ι} {K holds : ι → Prop} (rank : ι → ℕ)
    (hkept : ∀ x ∈ xs, K x → holds x)
    (hremoved : ∀ x ∈ xs, ¬ K x → (∀ y ∈ xs, rank y < rank x → holds y) → holds x) :
    ∀ x ∈ xs, holds x := by
  intro x hx
  induction hn : rank x using Nat.strong_induction_on generalizing x with
  | _ n ih =>
    by_cases hk : K x
    · exact hkept x hx hk
    · exact hremoved x hx hk fun y hy hlt => ih (rank y) (hn ▸ hlt) y hy rfl

theorem forall_or_forall {ι κ : Type*} {A : ι → Prop} {B : κ → Prop} {P : ι → Prop}
    {Q : κ → Prop} : (∀ x, A x → ∀ y, B y → P x ∨ Q y) ↔
      (∀ x, A x → P x) ∨ ∀ y, B y → Q y := by
  constructor
  · intro h
    by_contra hc
    push Not at hc
    obtain ⟨⟨x, hx, hPx⟩, y, hy, hQy⟩ := hc
    rcases h x hx y hy with h | h
    · exact hPx h
    · exact hQy h
  · intro h x hx y hy
    rcases h with h | h
    · exact .inl (h x hx)
    · exact .inr (h y hy)

/-! ## Literals with an atom and a polarity -/

variable {α : Type*} (atom : L → α) (positive : L → Bool)

/-- The valuation of literals that an assignment to atoms induces. -/
def ofAtoms (P : α → Prop) (l : L) : Prop :=
  if positive l = true then P (atom l) else ¬ P (atom l)

instance (P : α → Prop) [DecidablePred P] : DecidablePred (ofAtoms atom positive P) := fun l =>
  inferInstanceAs (Decidable (if positive l = true then P (atom l) else ¬ P (atom l)))

def Complementary (a b : L) : Prop := atom a = atom b ∧ positive a ≠ positive b

/-- The clause contains two complementary literals. -/
def Tautological (C : Set L) : Prop :=
  ∃ a ∈ C, ∃ b ∈ C, Complementary atom positive a b

variable {atom positive}

theorem ofAtoms_complementary {P : α → Prop} {a b : L} (h : Complementary atom positive a b) :
    ofAtoms atom positive P a ↔ ¬ ofAtoms atom positive P b := by
  obtain ⟨hatom, hpos⟩ := h
  unfold ofAtoms
  rw [hatom]
  cases ha : positive a <;> cases hb : positive b <;> simp_all

/-- A clause without complementary literals fails in some assignment to atoms. -/
theorem exists_not_sat {C : Set L} (h : ¬ Tautological atom positive C) :
    ∃ P : α → Prop, ¬ Sat (ofAtoms atom positive P) C := by
  refine ⟨fun x => ∃ l ∈ C, atom l = x ∧ positive l = false, ?_⟩
  rintro ⟨l, hl, hν⟩
  unfold ofAtoms at hν
  split_ifs at hν with hpos
  · obtain ⟨m, hm, hatom, hneg⟩ := hν
    exact h ⟨l, hl, m, hm, hatom.symm, by simp [hpos, hneg]⟩
  · exact hν ⟨l, hl, rfl, by simpa using hpos⟩

/-- It also fails in one where a literal holds that agrees with none of its literals. -/
theorem exists_not_sat_of {C : Set L} {a : L} (h : ¬ Tautological atom positive C)
    (ha : ∀ l ∈ C, atom l = atom a → positive l ≠ positive a) :
    ∃ P : α → Prop, ¬ Sat (ofAtoms atom positive P) C ∧ ofAtoms atom positive P a := by
  refine ⟨fun x => (∃ l ∈ C, atom l = x ∧ positive l = false) ∨
    (x = atom a ∧ positive a = true), ?_, ?_⟩
  · rintro ⟨l, hl, hν⟩
    unfold ofAtoms at hν
    split_ifs at hν with hpos
    · rcases hν with ⟨m, hm, hatom, hneg⟩ | ⟨hatom, hposa⟩
      · exact h ⟨l, hl, m, hm, hatom.symm, by simp [hpos, hneg]⟩
      · exact ha l hl hatom (hpos.trans hposa.symm)
    · exact hν (.inl ⟨l, hl, rfl, by simpa using hpos⟩)
  · unfold ofAtoms
    split_ifs with hpos
    · exact .inr ⟨rfl, hpos⟩
    · rintro (⟨m, hm, hatom, hneg⟩ | ⟨-, hposa⟩)
      · exact ha m hm hatom (hneg.trans (by simpa using hpos))
      · exact hpos hposa

theorem Tautological.sat {C : Set L} {ν : L → Prop} (h : Tautological atom positive C)
    (hν : ∀ a b, Complementary atom positive a b → (ν a ↔ ¬ ν b)) : Sat ν C := by
  obtain ⟨a, ha, b, hb, hab⟩ := h
  by_cases hb' : ν b
  · exact ⟨b, hb, hb'⟩
  · exact ⟨a, ha, (hν a b hab).mpr hb'⟩

end Mago.Library
