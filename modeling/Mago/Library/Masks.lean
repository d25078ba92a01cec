import Mathlib.Data.List.Basic

/-!
# Masks of keys

A mask holds a bit of every key of a list. Lists without a common bit have no common key, and
a part of a list has a part of its mask.
-/
namespace Mago.Library

variable {κ : Type*}

/-- The mask of a list, where `bit` gives the bit of a key. -/
def mask (bit : κ → UInt64) (ks : List κ) : UInt64 := ks.foldl (fun m k => m ||| bit k) 0

/-- Every bit of `m` is one of `n`. -/
def Submask (m n : UInt64) : Prop :=
  ∀ i, m.toBitVec.getLsbD i = true → n.toBitVec.getLsbD i = true

theorem Submask.trans {l m n : UInt64} (h : Submask l m) (h' : Submask m n) : Submask l n :=
  fun i hi => h' i (h i hi)

theorem and_eq_right_of_submask {m n : UInt64} (h : Submask m n) : n &&& m = m := by
  apply UInt64.toBitVec_inj.mp
  apply BitVec.eq_of_getLsbD_eq
  intro i _
  have hi := h i
  simp only [UInt64.toBitVec_and, BitVec.getLsbD_and]
  cases hm : m.toBitVec.getLsbD i with
  | false => simp
  | true => simp [hi hm]

theorem submask_or_left (m n : UInt64) : Submask m (m ||| n) := by
  intro i hi
  simp [hi]

theorem submask_or_right (m n : UInt64) : Submask n (m ||| n) := by
  intro i hi
  simp [hi]

theorem or_submask {l m n : UInt64} (hl : Submask l n) (hm : Submask m n) :
    Submask (l ||| m) n := by
  intro i hi
  simp only [UInt64.toBitVec_or, BitVec.getLsbD_or, Bool.or_eq_true] at hi
  exact hi.elim (hl i) (hm i)

variable {bit : κ → UInt64}

theorem submask_foldl (ks : List κ) (m : UInt64) :
    Submask m (ks.foldl (fun m k => m ||| bit k) m) := by
  induction ks generalizing m with
  | nil => exact fun _ hi => hi
  | cons k ks ih => exact (submask_or_left m (bit k)).trans (ih _)

theorem bit_submask_foldl {k : κ} {ks : List κ} (hk : k ∈ ks) (m : UInt64) :
    Submask (bit k) (ks.foldl (fun m k => m ||| bit k) m) := by
  induction ks generalizing m with
  | nil => cases hk
  | cons l ks ih =>
    rcases List.mem_cons.mp hk with rfl | hk
    · exact (submask_or_right m (bit k)).trans (submask_foldl ks _)
    · exact ih hk _

theorem foldl_submask {ks : List κ} {m n : UInt64} (hm : Submask m n)
    (hks : ∀ k ∈ ks, Submask (bit k) n) :
    Submask (ks.foldl (fun m k => m ||| bit k) m) n := by
  induction ks generalizing m with
  | nil => exact hm
  | cons k ks ih =>
    apply ih
    · exact or_submask hm (hks k List.mem_cons_self)
    · intro l hl
      exact hks l (List.mem_cons_of_mem k hl)

theorem bit_submask_mask {k : κ} {ks : List κ} (hk : k ∈ ks) : Submask (bit k) (mask bit ks) :=
  bit_submask_foldl hk 0

/-- A part of a list has a part of its mask. -/
theorem mask_and_mask_of_subset {ks ls : List κ} (h : ks ⊆ ls) :
    mask bit ls &&& mask bit ks = mask bit ks := by
  apply and_eq_right_of_submask
  apply foldl_submask
  · intro i hi
    simp at hi
  · intro k hk
    exact bit_submask_mask (h hk)

/-- The masks of lists with a common key meet. -/
theorem mask_and_mask_ne_zero {k : κ} {ks ls : List κ} (hbit : bit k ≠ 0) (hks : k ∈ ks)
    (hls : k ∈ ls) : mask bit ks &&& mask bit ls ≠ 0 := by
  intro hzero
  apply hbit
  apply UInt64.toBitVec_inj.mp
  apply BitVec.eq_of_getLsbD_eq
  intro i _
  cases hi : (bit k).toBitVec.getLsbD i with
  | false => simp
  | true =>
    have hboth := congrArg (fun m => m.toBitVec.getLsbD i) hzero
    simp [bit_submask_mask hks i hi, bit_submask_mask hls i hi] at hboth

theorem one_shiftLeft_ne_zero (n : UInt64) : (1 : UInt64) <<< (n % 64) ≠ 0 := by
  intro hzero
  have hnat := congrArg UInt64.toNat hzero
  have hlt : n.toNat % 64 < 64 := Nat.mod_lt _ (by omega)
  have hpow : 2 ^ (n.toNat % 64) < 2 ^ 64 := Nat.pow_lt_pow_right (by omega) hlt
  have hpos : 0 < 2 ^ (n.toNat % 64) := Nat.two_pow_pos _
  simp [UInt64.toNat_shiftLeft, Nat.shiftLeft_eq] at hnat
  omega

end Mago.Library
