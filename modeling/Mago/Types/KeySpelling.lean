import Mago.Types.IntegerExact
import Mago.Types.ArrayContainment
import Mathlib

/-!
# The spelling of integer keys

A string is an integer as a key exactly where it is the text of that integer as a word: no
leading zero, no sign but a minus before a positive number.
-/
namespace Mago.Types

open Mago.Algebra (Word word i64Word ArrayKey)

/-- The decimal digits of a number. -/
def natWord (n : ℕ) : Word := word n.repr

theorem natWord_eq_map (n : ℕ) :
    natWord n = (Nat.toDigits 10 n).map fun c => UInt8.ofNat c.toNat := by
  rw [natWord, word, Nat.toList_repr]

theorem natWord_of_lt {n : ℕ} (h : n < 10) : natWord n = [.ofNat (48 + n)] := by
  rw [natWord_eq_map, Nat.toDigits_of_lt_base h, List.map_singleton]
  interval_cases n <;> rfl

theorem natWord_append {n d : ℕ} (hn : 0 < n) (hd : d < 10) :
    natWord (10 * n + d) = natWord n ++ [.ofNat (48 + d)] := by
  rw [← natWord_of_lt hd, natWord_eq_map, natWord_eq_map, natWord_eq_map, ← List.map_append,
    Nat.toDigits_append_toDigits (by decide) hn hd]

theorem natWord_ne_nil (n : ℕ) : natWord n ≠ [] := by
  rw [natWord_eq_map, Ne, List.map_eq_nil_iff]
  exact Nat.toDigits_ne_nil

theorem isAsciiDigit_ofNat {d : ℕ} (h : d < 10) : isAsciiDigit (.ofNat (48 + d)) = true := by
  interval_cases d <;> rfl

theorem exists_of_isAsciiDigit {b : UInt8} (h : isAsciiDigit b = true) :
    ∃ d < 10, b = .ofNat (48 + d) := by
  simp only [isAsciiDigit, Bool.and_eq_true, decide_eq_true_eq, UInt8.le_iff_toNat_le] at h
  have hlow : 48 ≤ b.toNat := h.1
  have hup : b.toNat ≤ 57 := h.2
  refine ⟨b.toNat - 48, by omega, ?_⟩
  rw [Nat.add_sub_cancel' hlow, UInt8.ofNat_toNat]

theorem toNat_digit {d : ℕ} (h : d < 10) : (UInt8.ofNat (48 + d)).toNat = 48 + d := by
  rw [UInt8.toNat_ofNat', Nat.mod_eq_of_lt (by omega)]

theorem decimal_append (digits : Word) {d : ℕ} (h : d < 10) :
    decimal (digits ++ [.ofNat (48 + d)]) = 10 * decimal digits + d := by
  rw [decimal, decimal, List.foldl_append, List.foldl_cons, List.foldl_nil, toNat_digit h]
  push_cast
  ring

theorem natWord_induction {P : ℕ → Prop} (single : ∀ d < 10, P d)
    (append : ∀ n d, 0 < n → d < 10 → P n → P (10 * n + d)) (n : ℕ) : P n := by
  induction n using Nat.strong_induction_on with
  | _ n ih =>
    by_cases h : n < 10
    · exact single n h
    · have hdiv := append (n / 10) (n % 10) (by omega) (by omega) (ih _ (by omega))
      rwa [Nat.div_add_mod] at hdiv

theorem decimal_natWord (n : ℕ) : decimal (natWord n) = n := by
  induction n using natWord_induction with
  | single d hd =>
    rw [natWord_of_lt hd]
    simpa [decimal] using decimal_append [] hd
  | append n d hn hd ih =>
    rw [natWord_append hn hd, decimal_append _ hd, ih]
    push_cast
    rfl

theorem isAsciiDigit_of_mem_natWord (n : ℕ) : ∀ b ∈ natWord n, isAsciiDigit b = true := by
  induction n using natWord_induction with
  | single d hd =>
    rw [natWord_of_lt hd]
    simpa using isAsciiDigit_ofNat hd
  | append n d hn hd ih =>
    rw [natWord_append hn hd]
    intro b hb
    obtain hb | hb := List.mem_append.mp hb
    · exact ih b hb
    · rw [List.mem_singleton.mp hb]
      exact isAsciiDigit_ofNat hd

/-- Only zero starts with a zero. -/
theorem head?_natWord {n : ℕ} (h : (natWord n).head? = some 48) : n = 0 := by
  induction n using natWord_induction with
  | single d hd =>
    rw [natWord_of_lt hd, List.head?_cons, Option.some.injEq] at h
    have hval := congrArg UInt8.toNat h
    rw [toNat_digit hd] at hval
    simpa using hval
  | append n d hn hd ih =>
    rw [natWord_append hn hd, List.head?_append_of_ne_nil _ (natWord_ne_nil n)] at h
    exact absurd (ih h) hn.ne'

/-- Digits without a leading zero are those of a number. -/
theorem exists_natWord {digits : Word} (hdigits : ∀ b ∈ digits, isAsciiDigit b = true)
    (hne : digits ≠ []) (hzero : digits.head? = some 48 → digits = [48]) :
    ∃ n, digits = natWord n := by
  induction digits using List.reverseRecOn with
  | nil => exact absurd rfl hne
  | append_singleton digits b ih =>
    obtain ⟨d, hd, rfl⟩ := exists_of_isAsciiDigit (hdigits b (by simp))
    cases digits with
    | nil => exact ⟨d, (natWord_of_lt hd).symm⟩
    | cons first rest =>
      have hfirst : (first :: rest).head? ≠ some 48 := by
        intro h
        have hall := hzero (by simpa using h)
        simp at hall
      obtain ⟨n, hn⟩ := ih (fun b hb => hdigits b (List.mem_append_left _ hb))
        (List.cons_ne_nil _ _) (fun h => absurd h hfirst)
      have hpos : 0 < n := by
        rw [Nat.pos_iff_ne_zero]
        rintro rfl
        exact hfirst (by rw [hn]; rfl)
      exact ⟨10 * n + d, by rw [natWord_append hpos hd, hn]⟩

theorem i64Word_eq (n : ℤ) :
    i64Word n = if n < 0 then 45 :: natWord n.natAbs else natWord n.natAbs := by
  rw [i64Word, Int.toString_eq_repr, Int.repr_eq_if]
  by_cases h : n < 0
  · rw [if_neg (not_le.mpr h), if_pos h, word, String.toList_append, List.map_append]
    have habs : (-n).toNat = n.natAbs := by omega
    rw [habs]
    rfl
  · have habs : n.toNat = n.natAbs := by omega
    rw [if_pos (not_lt.mp h), if_neg h, habs]
    rfl

theorem head?_ne_minus {digits : Word} (h : ∀ b ∈ digits, isAsciiDigit b = true) :
    digits.head? ≠ some 45 := by
  intro hhead
  have hdigit := h 45 (List.mem_of_mem_head? hhead)
  cases hdigit

/-- The text of a 64-bit integer is read as the integer. -/
theorem parseI64_i64Word {n : ℤ} (hn : InI64 n) : parseI64 (i64Word n) = some n := by
  have hdigits := isAsciiDigit_of_mem_natWord n.natAbs
  rw [i64Word_eq, parseI64]
  by_cases h : n < 0
  · have hvalue : -decimal (natWord n.natAbs) = n := by
      rw [decimal_natWord]
      omega
    simp only [if_pos h, List.head?_cons, if_true, List.tail_cons, hvalue]
    exact if_pos hn
  · have hvalue : decimal (natWord n.natAbs) = n := by
      rw [decimal_natWord]
      omega
    simp only [if_neg h, if_neg (head?_ne_minus hdigits), hvalue]
    exact if_pos hn

/-- The digits behind a minus, if there is one. -/
def unsigned (s : Word) : Word := if s.head? = some 45 then s.tail else s

/-- Digits without a leading zero, but for zero itself. -/
def IsPlain (s : Word) : Prop :=
  unsigned s ≠ [] ∧ (∀ b ∈ unsigned s, isAsciiDigit b = true) ∧
    ((unsigned s).head? = some 48 → s = word "0")

theorem fromString_of_isPlain {s : Word} (h : IsPlain s) :
    ArrayKey.fromString s = (parseI64 s).elim (.string s) .integer := by
  obtain ⟨hne, hdigits, hzero⟩ := h
  have hall : (unsigned s).all isAsciiDigit = true := List.all_eq_true.mpr hdigits
  have hhead : ((unsigned s).head? == some 48 && s != word "0") = false := by
    rw [Bool.and_eq_false_iff, beq_eq_false_iff_ne, bne_eq_false_iff_eq]
    exact or_iff_not_imp_left.mpr fun h => hzero (not_not.mp h)
  simp only [ArrayKey.fromString]
  rw [← unsigned, if_neg]
  simp [hall, hhead, hne]

theorem isPlain_of_fromString {s : Word} {n : ℤ} (h : ArrayKey.fromString s = .integer n) :
    IsPlain s := by
  simp only [ArrayKey.fromString] at h
  rw [← unsigned] at h
  split at h
  · cases h
  · rename_i hplain
    simp only [Bool.or_eq_true, Bool.not_eq_true', List.isEmpty_iff, Bool.and_eq_true,
      beq_iff_eq, bne_iff_ne, not_or, not_and, not_not, Bool.not_eq_false,
      List.all_eq_true] at hplain
    exact ⟨hplain.1.1, hplain.1.2, hplain.2⟩

theorem unsigned_i64Word (n : ℤ) : unsigned (i64Word n) = natWord n.natAbs := by
  have hhead := head?_ne_minus (isAsciiDigit_of_mem_natWord n.natAbs)
  rw [i64Word_eq]
  by_cases h : n < 0
  · rw [if_pos h]
    rfl
  · rw [if_neg h, unsigned, if_neg hhead]

theorem isPlain_i64Word (n : ℤ) : IsPlain (i64Word n) := by
  rw [IsPlain, unsigned_i64Word]
  refine ⟨natWord_ne_nil _, isAsciiDigit_of_mem_natWord _, fun h => ?_⟩
  rw [Int.natAbs_eq_zero.mp (head?_natWord h)]
  rfl

/-- A plain spelling is the text of the number it is read as. -/
theorem eq_i64Word_of_isPlain {s : Word} {n : ℤ} (h : IsPlain s) (hn : parseI64 s = some n) :
    s = i64Word n := by
  obtain ⟨hne, hdigits, hzero⟩ := h
  simp only [parseI64, Option.ite_none_right_eq_some, Option.some.injEq] at hn
  obtain ⟨-, hvalue⟩ := hn
  by_cases hminus : s.head? = some 45
  · have hunsigned : unsigned s = s.tail := if_pos hminus
    have hcons : s = 45 :: s.tail := List.eq_cons_of_mem_head? hminus
    rw [hunsigned] at hne hdigits hzero
    have hhead : s.tail.head? ≠ some 48 := by
      intro h
      rw [hzero h] at hminus
      cases hminus
    obtain ⟨k, hk⟩ := exists_natWord hdigits hne (fun h => absurd h hhead)
    have hpos : k ≠ 0 := by
      rintro rfl
      exact hhead (by rw [hk]; rfl)
    rw [if_pos hminus, hk, decimal_natWord] at hvalue
    rw [hcons, hk, i64Word_eq, if_pos (by omega)]
    congr
    omega
  · have hunsigned : unsigned s = s := if_neg hminus
    rw [hunsigned] at hne hdigits hzero
    obtain ⟨k, hk⟩ := exists_natWord hdigits hne hzero
    rw [if_neg hminus, hk, decimal_natWord] at hvalue
    rw [hk, i64Word_eq, if_neg (by omega), ← hvalue, Int.natAbs_natCast]

/-- Only the text of an integer is read as an integer key. -/
theorem fromString_eq_integer_iff {s : Word} {n : ℤ} :
    ArrayKey.fromString s = .integer n ↔ InI64 n ∧ s = i64Word n := by
  constructor
  · intro h
    have hplain := isPlain_of_fromString h
    rw [fromString_of_isPlain hplain] at h
    cases hparse : parseI64 s with
    | none =>
      rw [hparse] at h
      cases h
    | some m =>
      rw [hparse] at h
      cases h
      have hrange := hparse
      simp only [parseI64, Option.ite_none_right_eq_some, Option.some.injEq] at hrange
      rw [← hrange.2]
      exact ⟨hrange.1, hrange.2 ▸ eq_i64Word_of_isPlain hplain hparse⟩
  · rintro ⟨hn, rfl⟩
    rw [fromString_of_isPlain (isPlain_i64Word n), parseI64_i64Word hn]
    rfl

/-- A string becomes an integer key exactly where it is the text of a 64-bit integer, and the
text of the key is the string in any case. -/
theorem fromString_canonical (s : Word) :
    (∀ n, ArrayKey.fromString s = .integer n ↔ InI64 n ∧ s = i64Word n) ∧
      ((∀ n, InI64 n → s ≠ i64Word n) → ArrayKey.fromString s = .string s) ∧
      (∀ n, InI64 n → ArrayKey.fromString (ArrayKey.integer n).toAtom = .integer n) ∧
      (ArrayKey.fromString s).toAtom = s := by
  refine ⟨fun n => fromString_eq_integer_iff, fun hnot => ?_, fun n hn => ?_, ?_⟩
  · obtain hstring | ⟨n, hinteger, -⟩ := fromString_eq (s := s)
    · exact hstring
    · obtain ⟨hn, hs⟩ := fromString_eq_integer_iff.mp hinteger
      exact absurd hs (hnot n hn)
  · exact fromString_eq_integer_iff.mpr ⟨hn, rfl⟩
  · obtain hstring | ⟨n, hinteger, -⟩ := fromString_eq (s := s)
    · rw [hstring, ArrayKey.toAtom]
    · rw [hinteger, ArrayKey.toAtom, (fromString_eq_integer_iff.mp hinteger).2]

theorem fromString_canonical_negative :
    ArrayKey.fromString (ArrayKey.integer (-5)).toAtom = .integer (-5) :=
  (fromString_canonical []).2.2.1 (-5) (by decide)

end Mago.Types
