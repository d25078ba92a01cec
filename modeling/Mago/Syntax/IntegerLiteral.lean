import Mago.Syntax.Literal

/-!
# Integer literals

The spellings of integers in the five notations, with separators among the digits, and the number
a spelling denotes. The decoder gives that number, or the largest one it knows for a larger one.
-/
namespace Mago.Syntax.Literal

inductive Base
  | hexadecimal
  | octal
  | binary
  /-- Octal digits behind a zero. -/
  | legacyOctal
  | decimal
  deriving DecidableEq

namespace Base

def radix : Base → ℕ
  | hexadecimal => 16
  | octal => 8
  | binary => 2
  | legacyOctal => 8
  | decimal => 10

/-- What may stand before the digits. -/
def leads : Base → List (List UInt8)
  | hexadecimal => [byteString "0x", byteString "0X"]
  | octal => [byteString "0o", byteString "0O"]
  | binary => [byteString "0b", byteString "0B"]
  | legacyOctal => [byteString "0"]
  | decimal => [[]]

end Base

abbrev separator : UInt8 := byte '_'

/-- A digit of the radix. -/
def IsDigitOf (radix : ℕ) (b : UInt8) : Prop := ∃ d < radix, hexDigit b = some d

/-- Digits of the radix, at least one, and separators. -/
structure IsBody (radix : ℕ) (body : List UInt8) : Prop where
  digits : ∀ b ∈ body, b = separator ∨ IsDigitOf radix b
  digit : ∃ b ∈ body, b ≠ separator

theorem isDigitOf_ten {b : UInt8} (h : isAsciiDigit b = true) : IsDigitOf 10 b := by
  have hup : b.toNat ≤ 57 := (of_decide_eq_true h).2
  exact ⟨b.toNat - 0x30, by omega, by rw [hexDigit, if_pos h]⟩

theorem isBody_of_digits {body : List UInt8} (h : body.all isAsciiDigit = true)
    (hne : body ≠ []) : IsBody 10 body := by
  rw [List.all_eq_true] at h
  refine ⟨fun b hb => Or.inr (isDigitOf_ten (h b hb)), ?_⟩
  obtain ⟨b, hb⟩ := List.exists_mem_of_ne_nil body hne
  refine ⟨b, hb, ?_⟩
  rintro rfl
  exact absurd (h _ hb) (by decide)

/-- A leading zero in front of octal digits only. -/
def IsLegacyOctal (raw : List UInt8) : Prop :=
  ∃ rest, raw = byte '0' :: rest ∧ rest ≠ [] ∧ ∀ b ∈ rest, b = separator ∨ IsDigitOf 8 b

structure IntegerLiteral where
  base : Base
  lead : List UInt8
  body : List UInt8
  lead_mem : lead ∈ base.leads
  isBody : IsBody base.radix body
  not_legacyOctal : base = .decimal → ¬ IsLegacyOctal body

namespace IntegerLiteral

variable (l : IntegerLiteral)

def raw : List UInt8 := l.lead ++ l.body

/-- The digits in their order, without the separators. -/
def digits : List ℕ := l.body.filterMap fun b => if b = separator then none else hexDigit b

/-- The number that the digits denote in the base. -/
def value : ℕ := Nat.ofDigits l.base.radix l.digits.reverse

end IntegerLiteral

/-! ## Decoding -/

section Digits

variable {radix : ℕ} {b : UInt8} {bytes : List UInt8}

/-- The number behind what was read, with further digits. -/
def accumulate (radix result : ℕ) (bytes : List UInt8) : ℕ :=
  (bytes.filterMap fun b => if b = separator then none else hexDigit b).foldl
    (fun value digit => value * radix + digit) result

theorem le_accumulate (hradix : 1 ≤ radix) (result : ℕ) (bytes : List UInt8) :
    result ≤ accumulate radix result bytes := by
  unfold accumulate
  generalize bytes.filterMap _ = digits
  induction digits generalizing result with
  | nil => exact le_rfl
  | cons digit rest ih =>
    have hstep : result ≤ result * radix + digit :=
      le_trans (Nat.le_mul_of_pos_right result hradix) (Nat.le_add_right _ _)
    exact le_trans hstep (ih _)

theorem accumulate_separator (radix result : ℕ) (rest : List UInt8) :
    accumulate radix result (separator :: rest) = accumulate radix result rest := by
  rw [accumulate, accumulate, List.filterMap_cons_none]
  exact if_pos rfl

theorem accumulate_digit {d : ℕ} (hb : b ≠ separator) (hd : hexDigit b = some d)
    (radix result : ℕ) (rest : List UInt8) :
    accumulate radix result (b :: rest) = accumulate radix (result * radix + d) rest := by
  rw [accumulate, accumulate, List.filterMap_cons_some (b := d) (by rw [if_neg hb, hd]),
    List.foldl_cons]

theorem hexDigit_separator : hexDigit separator = none := by decide

/-- Too large a number on the way is too large in the end. -/
theorem parseDigits_eq (hradix : 1 ≤ radix) (result : ℕ) (hasDigits : Bool)
    (hdigits : ∀ b ∈ bytes, b = separator ∨ IsDigitOf radix b)
    (hdigit : hasDigits = true ∨ ∃ b ∈ bytes, b ≠ separator) :
    parseDigits radix bytes result hasDigits = some (min (accumulate radix result bytes) u64Max) := by
  induction bytes generalizing result hasDigits with
  | nil =>
    have hhas : hasDigits = true := by simpa using hdigit
    rw [parseDigits, if_pos hhas]
    rfl
  | cons b rest ih =>
    have hrest := fun c hc => hdigits c (List.mem_cons_of_mem b hc)
    by_cases hb : b = separator
    · have hdigit' : hasDigits = true ∨ ∃ c ∈ rest, c ≠ separator := by
        simpa [hb] using hdigit
      rw [hb, accumulate_separator, parseDigits, if_pos rfl]
      exact ih result hasDigits hrest hdigit'
    · obtain ⟨d, hless, hd⟩ := (hdigits b List.mem_cons_self).resolve_left hb
      have hlarge : ∀ n, 2 ^ 128 ≤ n → n ≤ accumulate radix (result * radix + d) rest →
          u64Max = min (accumulate radix (result * radix + d) rest) u64Max := by
        intro n hn hle
        have hbound : u64Max < 2 ^ 128 := by decide
        rw [min_eq_right (by omega)]
      have hle := le_accumulate hradix (result * radix + d) rest
      rw [accumulate_digit hb hd, parseDigits, if_neg hb, hd]
      simp only []
      rw [if_neg (by omega)]
      split
      · rename_i hmul
        exact congrArg some (hlarge _ hmul (by omega))
      · split
        · rename_i hadd
          exact congrArg some (hlarge _ hadd hle)
        · exact ih _ true hrest (Or.inl rfl)

end Digits

namespace IntegerLiteral

variable (l : IntegerLiteral)

theorem accumulate_body : accumulate l.base.radix 0 l.body = l.value := by
  rw [accumulate, value, Nat.ofDigits_eq_foldr, List.foldr_reverse]
  rw [digits]
  congr
  funext value digit
  simp [Nat.mul_comm, Nat.add_comm]

theorem isDigitOf_eight_iff {b : UInt8} : IsDigitOf 8 b ↔ inRange '0' '7' b = true := by
  constructor
  · rintro ⟨d, hless, hd⟩
    simp only [hexDigit] at hd
    split at hd
    · rename_i h
      cases hd
      simp only [isAsciiDigit, inRange, decide_eq_true_eq, UInt8.le_iff_toNat_le] at h ⊢
      have hlow : 48 ≤ b.toNat := h.1
      have hup : b.toNat ≤ 55 := by omega
      exact ⟨hlow, hup⟩
    · split at hd
      · cases hd
        omega
      · split at hd
        · cases hd
          omega
        · cases hd
  · intro h
    simp only [inRange, decide_eq_true_eq, UInt8.le_iff_toNat_le] at h
    have hlow : 48 ≤ b.toNat := h.1
    have hup : b.toNat ≤ 55 := h.2
    have hdigit : isAsciiDigit b = true := by
      have hnine : b.toNat ≤ 57 := by omega
      simp only [isAsciiDigit, inRange, decide_eq_true_eq, UInt8.le_iff_toNat_le]
      exact ⟨hlow, hnine⟩
    exact ⟨b.toNat - 0x30, by omega, by rw [hexDigit, if_pos hdigit]⟩

/-- The letters of the prefixes are no digits of the bases without a prefix. -/
theorem not_letter {radix : ℕ} (hradix : radix ≤ 10) {b : UInt8}
    (hb : b = separator ∨ IsDigitOf radix b) :
    ¬ (b = byte 'x' ∨ b = byte 'X') ∧ ¬ (b = byte 'o' ∨ b = byte 'O') ∧
      ¬ (b = byte 'b' ∨ b = byte 'B') := by
  have hnot : ∀ c : UInt8, c ≠ separator → (hexDigit c).all (10 ≤ ·) = true → b ≠ c := by
    rintro c hsep hlarge rfl
    obtain ⟨d, hless, hd⟩ := hb.resolve_left hsep
    have hge : 10 ≤ d := by simpa [hd] using hlarge
    omega
  refine ⟨?_, ?_, ?_⟩
  all_goals
    rintro (h | h)
    all_goals exact hnot _ (by decide) (by decide) h

theorem all_octal_iff {rest : List UInt8} :
    (rest.all fun b => b == byte '_' || inRange '0' '7' b) = true ↔
      ∀ b ∈ rest, b = separator ∨ IsDigitOf 8 b := by
  simp only [List.all_eq_true, Bool.or_eq_true, beq_iff_eq, isDigitOf_eight_iff]

theorem radixAndStart_raw : radixAndStart l.raw = (l.base.radix, l.lead.length) := by
  obtain ⟨base, lead, body, hlead, hbody, hnot⟩ := l
  cases base with
  | hexadecimal =>
    obtain rfl | rfl : lead = byteString "0x" ∨ lead = byteString "0X" := by
      simpa [Base.leads] using hlead
    · rfl
    · rfl
  | octal =>
    obtain rfl | rfl : lead = byteString "0o" ∨ lead = byteString "0O" := by
      simpa [Base.leads] using hlead
    · rfl
    · rfl
  | binary =>
    obtain rfl | rfl : lead = byteString "0b" ∨ lead = byteString "0B" := by
      simpa [Base.leads] using hlead
    · rfl
    · rfl
  | legacyOctal =>
    obtain rfl : lead = byteString "0" := by simpa [Base.leads] using hlead
    cases body with
    | nil =>
      obtain ⟨b, hb, -⟩ := hbody.digit
      cases hb
    | cons second rest =>
      obtain ⟨hx, ho, hb⟩ := not_letter (by decide) (hbody.digits second List.mem_cons_self)
      have hall := all_octal_iff.mpr hbody.digits
      change radixAndStart (byte '0' :: second :: rest) = _
      rw [radixAndStart, if_pos rfl, if_neg hx, if_neg ho, if_neg hb, if_pos hall]
      rfl
  | decimal =>
    obtain rfl : lead = [] := by simpa [Base.leads] using hlead
    change radixAndStart body = (10, 0)
    match body, hbody, hnot with
    | [], _, _ => rfl
    | [b], _, _ => rfl
    | first :: second :: rest, hbody, hnot =>
      by_cases hzero : first = byte '0'
      · obtain ⟨hx, ho, hb⟩ := not_letter (by decide) (hbody.digits second (by simp))
        have hall : ¬ ((second :: rest).all fun b => b == byte '_' || inRange '0' '7' b) = true :=
          fun h => hnot rfl ⟨second :: rest, by rw [hzero], List.cons_ne_nil _ _,
            all_octal_iff.mp h⟩
        rw [radixAndStart, if_pos hzero, if_neg hx, if_neg ho, if_neg hb, if_neg hall]
      · rw [radixAndStart, if_neg hzero]

/-- The decoder gives the number, up to the largest unsigned one. -/
theorem parseLiteralInteger_raw : parseLiteralInteger l.raw = some (min l.value u64Max) := by
  have hradix : 1 ≤ l.base.radix := by
    cases l.base <;> decide
  have hne : ¬ l.raw.isEmpty = true := by
    obtain ⟨b, hb, -⟩ := l.isBody.digit
    rw [List.isEmpty_iff]
    exact List.ne_nil_of_mem (List.mem_append_right l.lead hb)
  have hdrop : l.raw.drop l.lead.length = l.body := List.drop_left
  rw [parseLiteralInteger, if_neg hne, radixAndStart_raw]
  simp only []
  rw [hdrop, parseDigits_eq hradix 0 false l.isBody.digits (Or.inr l.isBody.digit),
    accumulate_body]

end IntegerLiteral

end Mago.Syntax.Literal
