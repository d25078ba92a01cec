import Mago.Casing.CamelCase
import Mathlib

/-!
# Class case

Prefixes of capitals and digits are kept as they are, with the small letters after them. From the
first byte that no prefix takes on the name is converted like the others.
-/
namespace Mago.Casing

def classOptions : CamelLikeOptions := joinedOptions true

/-- The loop over the small letters and digits that end a prefix. -/
def classTailLen : Bytes → ℕ
  | [] => 0
  | tail :: input =>
    if isAsciiLowercase tail || isAsciiDigit tail then classTailLen input + 1 else 0

def classPrefixLoop (prefixLength : ℕ) : Bytes → ℕ
  | [] => prefixLength
  | byte :: input =>
    if isAsciiUppercase byte || isAsciiDigit byte then classPrefixLoop (prefixLength + 1) input
    else if isAsciiLowercase byte && decide (0 < prefixLength) then
      prefixLength + 1 + classTailLen input
    else prefixLength

def classPrefixLen (input : Bytes) : ℕ := classPrefixLoop 0 input

/-- The loop of `is_class_case`, from the cursor on. -/
def isClassLoop (segment : Bytes) : Bool :=
  if _h : segment = [] then true
  else if _hlen : classPrefixLen segment = 0 then isCaseCamelLike classOptions segment
  else isClassLoop (segment.drop (classPrefixLen segment))
termination_by segment.length
decreasing_by
  rw [List.length_drop]
  have := List.length_pos_iff.mpr _h
  omega

def isClassCase (input : Bytes) : Bool :=
  if input.isEmpty then false
  else if !input.head?.any isAsciiUppercase then false
  else isClassLoop input

/-- The loop of `convert_class_case`, from the cursor on. -/
def convertClassLoop (segment : Bytes) : Bytes :=
  if _h : segment = [] then []
  else if _hlen : classPrefixLen segment = 0 then toCaseCamelLike classOptions segment
  else
    segment.take (classPrefixLen segment) ++
      convertClassLoop (segment.drop (classPrefixLen segment))
termination_by segment.length
decreasing_by
  rw [List.length_drop]
  have := List.length_pos_iff.mpr _h
  omega

def convertClassCase (input : Bytes) : Bytes := convertClassLoop input

def toClassCase (input : Bytes) : Bytes :=
  if isClassCase input then input else convertClassCase input

/-! ## Prefixes -/

theorem le_classPrefixLoop (input : Bytes) (n : ℕ) : n ≤ classPrefixLoop n input := by
  induction input generalizing n with
  | nil => exact le_rfl
  | cons b input ih =>
    rw [classPrefixLoop]
    split
    · exact (Nat.le_succ n).trans (ih _)
    split
    · omega
    · exact le_rfl

theorem classPrefixLen_eq_zero {b : UInt8} {input : Bytes} :
    classPrefixLen (b :: input) = 0 ↔ isAsciiUppercase b = false ∧ isAsciiDigit b = false := by
  rw [classPrefixLen, classPrefixLoop]
  split
  · next h =>
    have := le_classPrefixLoop input (0 + 1)
    rw [Bool.or_eq_true] at h
    refine iff_of_false (by omega) ?_
    rintro ⟨hupper, hdigit⟩
    rcases h with h | h
    · rw [hupper] at h; cases h
    · rw [hdigit] at h; cases h
  · next h => simpa using h

/-- The small letters and digits after a prefix are all taken. -/
theorem classTailLen_spec (input : Bytes) :
    (∀ b ∈ input.take (classTailLen input), isSeparator b = false) ∧
      ∀ b ∈ (input.drop (classTailLen input)).head?, isAsciiLowercase b = false := by
  induction input with
  | nil => simp [classTailLen]
  | cons b input ih =>
    rw [classTailLen]
    split
    · next h =>
      refine ⟨?_, ih.2⟩
      intro c hc
      rw [List.take_succ_cons, List.mem_cons] at hc
      rcases hc with rfl | hc
      · cases kind c <;> simp_all
      · exact ih.1 c hc
    · next h =>
      refine ⟨by simp, ?_⟩
      simp_all

theorem classPrefixLoop_spec (input : Bytes) (n : ℕ) :
    (∀ b ∈ input.take (classPrefixLoop n input - n), isSeparator b = false) ∧
      (0 < classPrefixLoop n input →
        ∀ b ∈ (input.drop (classPrefixLoop n input - n)).head?, isAsciiLowercase b = false) := by
  induction input generalizing n with
  | nil => simp
  | cons b input ih =>
    rw [classPrefixLoop]
    split
    · next h =>
      have hle := le_classPrefixLoop input (n + 1)
      have hsub : classPrefixLoop (n + 1) input - n =
          classPrefixLoop (n + 1) input - (n + 1) + 1 := by omega
      rw [hsub]
      refine ⟨?_, fun hpos => (ih (n + 1)).2 hpos⟩
      intro c hc
      rw [List.take_succ_cons, List.mem_cons] at hc
      rcases hc with rfl | hc
      · cases kind c <;> simp_all
      · exact (ih (n + 1)).1 c hc
    split
    · next h hsmall =>
      have hsub : n + 1 + classTailLen input - n = classTailLen input + 1 := by omega
      rw [hsub]
      refine ⟨?_, fun _ => (classTailLen_spec input).2⟩
      intro c hc
      rw [List.take_succ_cons, List.mem_cons] at hc
      rcases hc with rfl | hc
      · cases kind c <;> simp_all
      · exact (classTailLen_spec input).1 c hc
    · next h hsmall =>
      rw [Nat.sub_self]
      refine ⟨by simp, fun hpos => ?_⟩
      simp_all

/-- A prefix has letters and digits only, and no small letter follows it. -/
theorem classPrefixLen_spec (input : Bytes) :
    (∀ b ∈ input.take (classPrefixLen input), isSeparator b = false) ∧
      (0 < classPrefixLen input →
        ∀ b ∈ (input.drop (classPrefixLen input)).head?, isAsciiLowercase b = false) :=
  classPrefixLoop_spec input 0

/-! ## The checker against the converter -/

theorem isClassLoop_iff (segment : Bytes) :
    isClassLoop segment = true ↔ convertClassLoop segment = segment := by
  rw [isClassLoop, convertClassLoop]
  split
  · next h => simp [h]
  split
  · rw [isCaseCamelLike_iff, toCaseCamelLike_eq]
  · next h hlen =>
    have hpos := List.length_pos_iff.mpr h
    rw [isClassLoop_iff]
    conv_rhs => rhs; rw [← List.take_append_drop (classPrefixLen segment) segment]
    rw [List.append_cancel_left_eq]
termination_by segment.length
decreasing_by
  rw [List.length_drop]
  omega

/-- Bytes that are written are letters and digits. -/
theorem not_separator_of_convert (newWord : Bool) (input : Bytes) (loop : CamelLoop) :
    ∀ b ∈ convertCamelLoop (joinedOptions newWord) loop input, isSeparator b = false := by
  induction input generalizing loop with
  | nil => simp [convertCamelLoop]
  | cons b input ih =>
    by_cases hsep : isSeparator b = true
    · rw [convert_separator hsep]
      exact ih _
    by_cases hdigit : isAsciiDigit b = true
    · rw [convert_digit hdigit, List.forall_mem_cons]
      exact ⟨not_separator_of_digit hdigit, ih _⟩
    have hletter : isLetter b = true := by
      cases kind b <;> simp_all [isLetter]
    cases hstarts : loop.startsWord b with
    | true =>
      rw [convert_initial hletter hstarts, List.forall_mem_cons]
      have hupper := isAsciiUppercase_toUppercase hletter
      exact ⟨not_separator_of_letter (isLetter_iff.mpr (.inr hupper)), ih _⟩
    | false =>
      rw [convert_inner hletter hstarts, List.forall_mem_cons]
      have hlower := isAsciiLowercase_toLowercase hletter
      exact ⟨not_separator_of_letter (isLetter_iff.mpr (.inl hlower)), ih _⟩

theorem not_separator_of_convertClass (segment : Bytes) :
    ∀ b ∈ convertClassLoop segment, isSeparator b = false := by
  rw [convertClassLoop]
  split
  · simp
  split
  · rw [toCaseCamelLike_eq, classOptions, convert_trimRight]
    exact not_separator_of_convert _ _ _
  · next h hlen =>
    have hpos := List.length_pos_iff.mpr h
    intro b hb
    rcases List.mem_append.mp hb with hb | hb
    · exact (classPrefixLen_spec segment).1 b hb
    · exact not_separator_of_convertClass _ b hb
termination_by segment.length
decreasing_by
  rw [List.length_drop]
  omega

/-- Letters and digits that begin with no small letter are prefixes one after another. -/
theorem isClassLoop_of_alphanumeric (segment : Bytes)
    (h : ∀ b ∈ segment, isSeparator b = false)
    (hhead : ∀ b ∈ segment.head?, isAsciiLowercase b = false) : isClassLoop segment = true := by
  rw [isClassLoop]
  split
  · rfl
  · next hne =>
    have hlen : classPrefixLen segment ≠ 0 := by
      cases segment with
      | nil => exact absurd rfl hne
      | cons b segment =>
        rw [Ne, classPrefixLen_eq_zero]
        have hb := h b (by simp)
        have hlower := hhead b (by simp)
        cases kind b <;> simp_all
    rw [dif_neg hlen]
    have hpos := List.length_pos_iff.mpr hne
    exact isClassLoop_of_alphanumeric _ (fun b hb => h b (List.mem_of_mem_drop hb))
      ((classPrefixLen_spec segment).2 (Nat.pos_of_ne_zero hlen))
termination_by segment.length
decreasing_by
  rw [List.length_drop]
  omega

theorem isClassCase_cons {b : UInt8} {input : Bytes} :
    isClassCase (b :: input) = true ↔
      isAsciiUppercase b = true ∧ convertClassCase (b :: input) = b :: input := by
  rw [convertClassCase, ← isClassLoop_iff, isClassCase]
  cases h : isAsciiUppercase b <;> simp [h]

end Mago.Casing
