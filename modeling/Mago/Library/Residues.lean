import Mathlib

/-!
# Centred residues of an interval

The centred residue modulo `2 * q` of an integer lies from `-q` to `q - 1`. The integers fall
into blocks of length `2 * q` on which it rises by one at each step. On an interval it takes
its extreme values at the ends when these are of one block, else those of a whole block.
-/
namespace Mago.Library

variable {q a l u : ℤ}

/-- The number of the block of an integer. -/
def block (q a : ℤ) : ℤ := (a + q) / (2 * q)

def centred (q a : ℤ) : ℤ := (a + q) % (2 * q) - q

theorem centred_eq : centred q a = a - 2 * q * block q a := by
  have h := Int.emod_add_mul_ediv (a + q) (2 * q)
  unfold centred block
  omega

theorem centred_bounds (hq : 0 < q) : -q ≤ centred q a ∧ centred q a ≤ q - 1 := by
  have hnonneg := Int.emod_nonneg (a + q) (show 2 * q ≠ 0 by omega)
  have hlt := Int.emod_lt_of_pos (a + q) (show 0 < 2 * q by omega)
  unfold centred
  omega

theorem block_mono (hq : 0 < q) (h : a ≤ l) : block q a ≤ block q l :=
  Int.ediv_le_ediv (by omega) (by omega)

/-- The lowest and the highest residue on an interval. -/
def lowResidue (q l u : ℤ) : ℤ := if block q l = block q u then centred q l else -q

def highResidue (q l u : ℤ) : ℤ := if block q l = block q u then centred q u else q - 1

theorem centred_between (hq : 0 < q) (hl : l ≤ a) (hu : a ≤ u) :
    lowResidue q l u ≤ centred q a ∧ centred q a ≤ highResidue q l u := by
  have hbounds := centred_bounds (a := a) hq
  unfold lowResidue highResidue
  split
  · rename_i hsame
    have hla := block_mono hq hl
    have hau := block_mono hq hu
    have heq : block q a = block q l := le_antisymm (hsame ▸ hau) hla
    rw [centred_eq, centred_eq, centred_eq, heq, ← hsame]
    omega
  · exact hbounds

/-- The first integer of a block has the lowest residue and follows one with the highest. -/
theorem block_start (hq : 0 < q) (k : ℤ) :
    centred q (2 * q * k - q) = -q ∧ centred q (2 * q * k - q - 1) = q - 1 := by
  constructor
  · unfold centred
    rw [show 2 * q * k - q + q = 2 * q * k by ring, Int.mul_emod_right]
    ring
  · unfold centred
    rw [show 2 * q * k - q - 1 + q = (2 * q - 1) + 2 * q * (k - 1) by ring,
      Int.add_mul_emod_self_left, Int.emod_eq_of_lt (by omega) (by omega)]
    ring

/-- An interval over two blocks holds the start of the block of its upper end. -/
theorem start_mem (hq : 0 < q) (hlu : l ≤ u) (hne : block q l ≠ block q u) :
    l < 2 * q * block q u - q ∧ 2 * q * block q u - q ≤ u := by
  have hlt : block q l < block q u := lt_of_le_of_ne (block_mono hq hlu) hne
  have hl := centred_eq (q := q) (a := l)
  have hu := centred_eq (q := q) (a := u)
  have hlb := centred_bounds (a := l) hq
  have hub := centred_bounds (a := u) hq
  have hstep : 2 * q * (block q l + 1) ≤ 2 * q * block q u :=
    mul_le_mul_of_nonneg_left hlt (by omega)
  rw [mul_add] at hstep
  omega

theorem exists_lowResidue (hq : 0 < q) (hlu : l ≤ u) :
    ∃ a, l ≤ a ∧ a ≤ u ∧ centred q a = lowResidue q l u := by
  unfold lowResidue
  split
  · exact ⟨l, le_rfl, hlu, rfl⟩
  · rename_i hne
    obtain ⟨hstart, hstop⟩ := start_mem hq hlu hne
    exact ⟨_, hstart.le, hstop, (block_start hq _).1⟩

theorem exists_highResidue (hq : 0 < q) (hlu : l ≤ u) :
    ∃ a, l ≤ a ∧ a ≤ u ∧ centred q a = highResidue q l u := by
  unfold highResidue
  split
  · exact ⟨u, hlu, le_rfl, rfl⟩
  · rename_i hne
    obtain ⟨hstart, hstop⟩ := start_mem hq hlu hne
    exact ⟨_, by omega, by omega, (block_start hq (block q u)).2⟩

end Mago.Library
