import Mago.Casing.SnakeLike
import Mathlib

/-!
# Names written twice in snake case

Where digits count as capitals, a digit between capitals starts no word, and starts one on the
second reading, when a letter beside it has become small.
-/
namespace Mago.Casing

def toSnakeCase (input : Bytes) : Bytes := toCaseSnakeLike 95 .lower false input

def isSnakeCase (input : Bytes) : Bool := isCaseSnakeLike 95 .lower false input

def toKebabCase (input : Bytes) : Bytes := toCaseSnakeLike 45 .lower true input

def isKebabCase (input : Bytes) : Bool := isCaseSnakeLike 45 .lower true input

def toConstantCase (input : Bytes) : Bytes := toCaseSnakeLike 95 .upper true input

def isConstantCase (input : Bytes) : Bool := isCaseSnakeLike 95 .upper true input

/-! ## Emitted bytes -/

theorem isLetter_toAsciiLowercase {b : UInt8} (h : isLetter b = true) :
    isLetter (toAsciiLowercase b) = true :=
  isLetter_iff.mpr (.inl (isAsciiLowercase_toLowercase h))

theorem isLetter_toAsciiUppercase {b : UInt8} (h : isLetter b = true) :
    isLetter (toAsciiUppercase b) = true :=
  isLetter_iff.mpr (.inr (isAsciiUppercase_toUppercase h))

theorem emitted_of_not_letter {case : LetterCase} {b : UInt8} (h : isLetter b = false) :
    case.emitted b = b := by
  rw [isLetter, Bool.or_eq_false_iff] at h
  cases case with
  | lower => exact toAsciiLowercase_of_not h.2
  | upper => exact toAsciiUppercase_of_not h.1

theorem not_letter_of_caseless {b : UInt8} (hlower : isAsciiLowercase b = false)
    (hupper : isAsciiUppercase b = false) : isLetter b = false := by
  rw [isLetter, hlower, hupper]
  rfl

theorem isSeparator_emitted {case : LetterCase} {b : UInt8} (h : isSeparator b = false) :
    isSeparator (case.emitted b) = false := by
  cases hletter : isLetter b with
  | false => rwa [emitted_of_not_letter hletter]
  | true =>
    cases case with
    | lower =>
      have := isLetter_toAsciiLowercase hletter
      cases kind (toAsciiLowercase b) <;> simp_all [LetterCase.emitted, isLetter]
    | upper =>
      have := isLetter_toAsciiUppercase hletter
      cases kind (toAsciiUppercase b) <;> simp_all [LetterCase.emitted, isLetter]

theorem emitted_emitted (case : LetterCase) (b : UInt8) :
    case.emitted (case.emitted b) = case.emitted b := by
  cases hletter : isLetter b with
  | false => rw [emitted_of_not_letter hletter, emitted_of_not_letter hletter]
  | true =>
    cases case with
    | lower => exact toAsciiLowercase_of_not (not_upper_of_lower (isAsciiLowercase_toLowercase hletter))
    | upper => exact toAsciiUppercase_of_not (not_lower_of_upper (isAsciiUppercase_toUppercase hletter))

/-! ## One reading after another -/

section Twice

variable {separator : UInt8} {case : LetterCase} {digits : Bool}

/-- A byte that starts no word, but does in what is written. -/
def Resplits (separator : UInt8) (case : LetterCase) (digits : Bool) :
    Option UInt8 → Bool → Bytes → Prop
  | _, _, [] => False
  | previous, firstCharacter, byte :: input =>
    if isSeparator byte then Resplits separator case digits (some byte) true input
    else
      (firstCharacter = false ∧
        (isUpperLikeForBoundary byte digits && hasLowercaseNeighbor input.head? previous) = false ∧
        isUpperLikeForBoundary (case.emitted byte) digits = true ∧
        hasLowercaseNeighbor
          (convertSnakeLoop separator case digits (some byte) false input).head?
          (previous.map case.emitted) = true) ∨
      Resplits separator case digits (some byte) false input

theorem convertSnake_separator {previous : Option UInt8} (hs : isSeparator separator = true)
    {output : Bytes} :
    convertSnakeLoop separator case digits previous false (separator :: output) =
      separator :: convertSnakeLoop separator case digits (some separator) true output := by
  simp [convertSnakeLoop, hs]

theorem convertSnake_first {previous : Option UInt8} {b : UInt8} (hb : isSeparator b = false)
    {output : Bytes} :
    convertSnakeLoop separator case digits previous true (b :: output) =
      case.emitted b :: convertSnakeLoop separator case digits (some b) false output := by
  simp [convertSnakeLoop, hb]

/-- The second reading stands at a byte written for the same byte as the first. -/
theorem convertSnake_twice (hs : isSeparator separator = true) (input : Bytes)
    {previous again : Option UInt8} {firstCharacter : Bool}
    (hprev : firstCharacter = false → again = previous.map case.emitted) :
    convertSnakeLoop separator case digits again firstCharacter
        (convertSnakeLoop separator case digits previous firstCharacter input) =
      convertSnakeLoop separator case digits previous firstCharacter input ↔
        ¬Resplits separator case digits previous firstCharacter input := by
  induction input generalizing previous again firstCharacter with
  | nil => simp [convertSnakeLoop, Resplits]
  | cons b input ih =>
    have hskip : true = false → (some separator : Option UInt8) = (some b).map case.emitted :=
      fun h => by cases h
    cases hb : isSeparator b with
    | true =>
      simp only [Resplits, hb, if_true]
      cases firstCharacter with
      | true =>
        have hdrop : convertSnakeLoop separator case digits previous true (b :: input) =
            convertSnakeLoop separator case digits (some b) true input := by
          simp [convertSnakeLoop, hb]
        rw [hdrop]
        exact ih fun h => by cases h
      | false =>
        have hemit : convertSnakeLoop separator case digits previous false (b :: input) =
            separator :: convertSnakeLoop separator case digits (some b) true input := by
          simp [convertSnakeLoop, hb]
        rw [hemit, convertSnake_separator hs, List.cons.injEq, and_iff_right rfl]
        exact ih fun h => by cases h
    | false =>
      have hemitted : isSeparator (case.emitted b) = false := isSeparator_emitted hb
      have hrest := @ih (some b) (some (case.emitted b)) false fun _ => rfl
      simp only [Resplits, hb, Bool.false_eq_true, if_false]
      cases firstCharacter with
      | true =>
        rw [convertSnake_first hb, convertSnake_first hemitted, emitted_emitted, List.cons.injEq,
          and_iff_right rfl, hrest]
        simp
      | false =>
        cases hsplit : isUpperLikeForBoundary b digits &&
            hasLowercaseNeighbor input.head? previous with
        | true =>
          have hwrite : convertSnakeLoop separator case digits previous false (b :: input) =
              separator :: case.emitted b ::
                convertSnakeLoop separator case digits (some b) false input := by
            simp [convertSnakeLoop, hb, hsplit]
          rw [hwrite, convertSnake_separator hs, convertSnake_first hemitted, emitted_emitted,
            List.cons.injEq, and_iff_right rfl, List.cons.injEq, and_iff_right rfl, hrest]
          simp
        | false =>
          have hwrite : convertSnakeLoop separator case digits previous false (b :: input) =
              case.emitted b :: convertSnakeLoop separator case digits (some b) false input := by
            simp [convertSnakeLoop, hb, hsplit]
          rw [hwrite, hprev rfl]
          cases hagain : isUpperLikeForBoundary (case.emitted b) digits && hasLowercaseNeighbor
              (convertSnakeLoop separator case digits (some b) false input).head?
              (previous.map case.emitted) with
          | true =>
            rw [Bool.and_eq_true] at hagain
            refine iff_of_false ?_ (not_not_intro (.inl ⟨rfl, rfl, hagain⟩))
            intro heq
            simp only [convertSnakeLoop, hemitted, hagain.1, hagain.2] at heq
            rw [(List.cons.inj heq).1, hemitted] at hs
            cases hs
          | false =>
            have hsame : convertSnakeLoop separator case digits (previous.map case.emitted) false
                (case.emitted b ::
                  convertSnakeLoop separator case digits (some b) false input) =
                case.emitted b :: convertSnakeLoop separator case digits (some (case.emitted b))
                  false (convertSnakeLoop separator case digits (some b) false input) := by
              simp [convertSnakeLoop, hemitted, hagain, emitted_emitted]
            rw [hsame, List.cons.injEq, and_iff_right rfl, hrest, not_or]
            refine (and_iff_right ?_).symm
            rintro ⟨-, -, hupper, hneighbor⟩
            rw [hupper, hneighbor] at hagain
            cases hagain

theorem convertSnake_append_last (input : Bytes) {last : UInt8} (h : isSeparator last = false)
    (previous : Option UInt8) (firstCharacter : Bool) :
    ∃ output, convertSnakeLoop separator case digits previous firstCharacter (input ++ [last]) =
      output ++ [case.emitted last] := by
  induction input generalizing previous firstCharacter with
  | nil =>
    simp only [List.nil_append, convertSnakeLoop, h, Bool.false_eq_true, if_false]
    split
    · exact ⟨[separator], rfl⟩
    · exact ⟨[], rfl⟩
  | cons b input ih =>
    simp only [List.cons_append, convertSnakeLoop]
    split
    · split
      · obtain ⟨output, heq⟩ := ih (some b) true
        exact ⟨separator :: output, by rw [heq]; rfl⟩
      · exact ih (some b) firstCharacter
    obtain ⟨output, heq⟩ := ih (some b) false
    split
    · exact ⟨separator :: case.emitted b :: output, by rw [heq]; rfl⟩
    · exact ⟨case.emitted b :: output, by rw [heq]; rfl⟩

theorem convertSnakeLike_twice (hs : isSeparator separator = true) (input : Bytes) :
    convertSnakeLike separator case digits (convertSnakeLike separator case digits input) =
      convertSnakeLike separator case digits input ↔
        ¬Resplits separator case digits none true (trimRight input) := by
  obtain ⟨-, -, -, hlast⟩ := exists_trimRight input
  have htrim : trimRight (convertSnakeLike separator case digits input) =
      convertSnakeLike separator case digits input := by
    apply trimRight_of_last
    rw [convertSnakeLike]
    generalize trimRight input = trimmed at hlast
    cases trimmed using List.reverseRecOn with
    | nil => simp [convertSnakeLoop]
    | append_singleton trimmed last =>
      have hlast : isSeparator last = false := hlast last (by simp)
      obtain ⟨output, heq⟩ : ∃ output, convertSnakeLoop separator case digits none true
          (trimmed ++ [last]) = output ++ [case.emitted last] :=
        convertSnake_append_last trimmed hlast none true
      rw [heq]
      simpa using isSeparator_emitted hlast
  rw [convertSnakeLike, htrim]
  exact convertSnake_twice hs _ fun h => by cases h

/-- Where no digit counts as a capital, what is written small splits nothing. -/
theorem not_resplits_snake (input : Bytes) (previous : Option UInt8) (firstCharacter : Bool) :
    ¬Resplits separator .lower false previous firstCharacter input := by
  induction input generalizing previous firstCharacter with
  | nil => exact id
  | cons b input ih =>
    rw [Resplits]
    split
    · exact ih _ _
    rintro (⟨-, -, hupper, -⟩ | hrest)
    · cases hletter : isLetter b with
      | true =>
        have hnot := not_upper_of_lower (isAsciiLowercase_toLowercase hletter)
        simp [isUpperLikeForBoundary, LetterCase.emitted, hnot] at hupper
      | false =>
        rw [emitted_of_not_letter hletter] at hupper
        simp_all [isUpperLikeForBoundary, isLetter]
    · exact ih _ _ hrest

theorem not_lower_emitted_upper (b : UInt8) :
    isAsciiLowercase (LetterCase.upper.emitted b) = false := by
  cases hletter : isLetter b with
  | true => exact not_lower_of_upper (isAsciiUppercase_toUppercase hletter)
  | false =>
    rw [emitted_of_not_letter hletter]
    rw [isLetter, Bool.or_eq_false_iff] at hletter
    exact hletter.1

theorem not_lower_of_separator {s : UInt8} (h : isSeparator s = true) :
    isAsciiLowercase s = false := by
  cases kind s <;> simp_all

/-- What is written begins with the separator or with a byte of the name. -/
theorem head_convertSnake (input : Bytes) (previous : Option UInt8) (firstCharacter : Bool) :
    ∀ c ∈ (convertSnakeLoop separator case digits previous firstCharacter input).head?,
      c = separator ∨ ∃ b, c = case.emitted b := by
  induction input generalizing previous firstCharacter with
  | nil => simp [convertSnakeLoop]
  | cons b input ih =>
    rw [convertSnakeLoop]
    split
    · split
      · intro c hc
        simp only [List.head?_cons, Option.mem_some_iff] at hc
        exact .inl hc.symm
      · exact ih _ _
    · split
      · intro c hc
        simp only [List.head?_cons, Option.mem_some_iff] at hc
        exact .inl hc.symm
      · intro c hc
        simp only [List.head?_cons, Option.mem_some_iff] at hc
        exact .inr ⟨b, hc.symm⟩

/-- Where all is written in capitals, nothing has a small letter beside it. -/
theorem not_resplits_constant (hs : isSeparator separator = true) (input : Bytes)
    (previous : Option UInt8) (firstCharacter : Bool) :
    ¬Resplits separator .upper digits previous firstCharacter input := by
  induction input generalizing previous firstCharacter with
  | nil => exact id
  | cons b input ih =>
    rw [Resplits]
    split
    · exact ih _ _
    rintro (⟨-, -, -, hneighbor⟩ | hrest)
    · rw [hasLowercaseNeighbor, Bool.or_eq_true, Option.any_eq_true, Option.any_eq_true]
        at hneighbor
      rcases hneighbor with ⟨c, hc, hlower⟩ | ⟨c, hc, hlower⟩
      · rcases head_convertSnake input (some b) false c hc with rfl | ⟨d, rfl⟩
        · rw [not_lower_of_separator hs] at hlower
          cases hlower
        · rw [not_lower_emitted_upper] at hlower
          cases hlower
      · obtain ⟨a, -, rfl⟩ := Option.map_eq_some_iff.mp hc
        rw [not_lower_emitted_upper] at hlower
        cases hlower
    · exact ih _ _ hrest

end Twice

/-! ## Digits between capitals -/

/-- A digit after a letter or digit with no small letter beside it, and a capital that is
written small beside it: before it, or after it where the capital starts no word itself. -/
def DigitSplitsAt (a d : UInt8) (rest : Bytes) : Prop :=
  isAsciiDigit d = true ∧ isSeparator a = false ∧ isAsciiLowercase a = false ∧
    rest.head?.any isAsciiLowercase = false ∧
    (isAsciiUppercase a = true ∨
      (rest.head?.any isAsciiUppercase = true ∧ rest.tail.head?.any isAsciiLowercase = false))

def DigitSplit (x : Bytes) : Prop :=
  ∃ before a d rest, x = before ++ a :: d :: rest ∧ DigitSplitsAt a d rest

theorem not_digitSplit_nil : ¬DigitSplit [] := by
  rintro ⟨before, a, d, rest, heq, -⟩
  simp at heq

theorem digitSplit_cons {a : UInt8} {x : Bytes} :
    DigitSplit (a :: x) ↔ (∃ d rest, x = d :: rest ∧ DigitSplitsAt a d rest) ∨ DigitSplit x := by
  constructor
  · rintro ⟨before, b, d, rest, heq, hat⟩
    cases before with
    | nil =>
      rw [List.nil_append, List.cons.injEq] at heq
      exact .inl ⟨d, rest, heq.2, heq.1 ▸ hat⟩
    | cons c before =>
      rw [List.cons_append, List.cons.injEq] at heq
      exact .inr ⟨before, b, d, rest, heq.2, hat⟩
  · rintro (⟨d, rest, rfl, hat⟩ | ⟨before, b, d, rest, rfl, hat⟩)
    · exact ⟨[], a, d, rest, rfl, hat⟩
    · exact ⟨a :: before, b, d, rest, rfl, hat⟩

theorem digitSplit_of_separator {s : UInt8} {x : Bytes} (hs : isSeparator s = true) :
    DigitSplit (s :: x) ↔ DigitSplit x := by
  simp [digitSplit_cons, DigitSplitsAt, hs]

theorem digitSplit_append_separator {s : UInt8} (hs : isSeparator s = true) (x : Bytes) :
    DigitSplit (x ++ [s]) ↔ DigitSplit x := by
  induction x with
  | nil => rw [List.nil_append, digitSplit_of_separator hs]
  | cons a x ih =>
    rw [List.cons_append, digitSplit_cons, digitSplit_cons, ih]
    refine or_congr_left ?_
    have hlower := not_lower_of_separator hs
    have hupper : isAsciiUppercase s = false := by
      cases kind s <;> simp_all
    have hdigit : isAsciiDigit s = false := by
      cases kind s <;> simp_all
    cases x with
    | nil => simp [DigitSplitsAt, hdigit]
    | cons d rest =>
      cases rest with
      | nil => simp [DigitSplitsAt, hlower, hupper]
      | cons c rest =>
        cases rest with
        | nil => simp [DigitSplitsAt, hlower]
        | cons e rest => simp [DigitSplitsAt]

theorem digitSplit_trimRight (input : Bytes) :
    DigitSplit (trimRight input) ↔ DigitSplit input := by
  obtain ⟨tail, heq, htail, -⟩ := exists_trimRight input
  conv_rhs => rw [heq]
  clear heq
  induction tail using List.reverseRecOn with
  | nil => rw [List.append_nil]
  | append_singleton tail s ih =>
    rw [← List.append_assoc, digitSplit_append_separator (htail s (by simp)),
      ih fun t ht => htail t (by simp [ht])]

theorem isUpperLike_digits {b : UInt8} :
    isUpperLikeForBoundary b true = true ↔ isAsciiLowercase b = false := by
  rw [isUpperLikeForBoundary, if_pos rfl, beq_iff_eq]
  constructor
  · intro heq
    rw [← Bool.not_eq_true]
    intro hlower
    have hupper := toAsciiUppercase_of_lower hlower
    rw [← heq, not_upper_of_lower hlower] at hupper
    cases hupper
  · intro h
    rw [toAsciiUppercase_of_not h]

/-- After a digit, what is written next is small where a letter comes that starts no word. -/
theorem head_lower_after_digit {separator d : UInt8} (hs : isSeparator separator = true)
    (hd : isAsciiLowercase d = false) {rest : Bytes}
    (hnext : rest.head?.any isAsciiLowercase = false) :
    (convertSnakeLoop separator .lower true (some d) false rest).head?.any isAsciiLowercase =
        true ↔
      rest.head?.any isAsciiUppercase = true ∧ rest.tail.head?.any isAsciiLowercase = false := by
  cases rest with
  | nil => simp [convertSnakeLoop]
  | cons c rest =>
    have hc : isAsciiLowercase c = false := hnext
    have hlike := isUpperLike_digits.mpr hc
    have hseparator := not_lower_of_separator hs
    simp only [convertSnakeLoop, List.head?_cons, List.tail_cons, Option.any_some]
    cases kind c with
    | lower _ _ hlower => rw [hlower] at hc; cases hc
    | separator h _ _ hupper => simp [h, hupper, hseparator]
    | digit h hdigit _ hupper =>
      have hemit : LetterCase.lower.emitted c = c :=
        emitted_of_not_letter (not_letter_of_caseless hc hupper)
      cases hafter : rest.head?.any isAsciiLowercase <;>
        simp [h, hupper, hlike, hasLowercaseNeighbor, hafter, hd, hemit, hc, hseparator]
    | upper h _ _ hupper =>
      have hlower : isAsciiLowercase (LetterCase.lower.emitted c) = true :=
        toAsciiLowercase_of_upper hupper
      cases hafter : rest.head?.any isAsciiLowercase <;>
        simp [h, hupper, hlike, hasLowercaseNeighbor, hafter, hd, hlower, hseparator]

theorem isAsciiLowercase_emitted_lower {b : UInt8} :
    isAsciiLowercase (LetterCase.lower.emitted b) = isLetter b := by
  cases hletter : isLetter b with
  | true => exact isAsciiLowercase_toLowercase hletter
  | false =>
    rw [emitted_of_not_letter hletter]
    rw [isLetter, Bool.or_eq_false_iff] at hletter
    exact hletter.1

/-- One byte of the name after another letter or digit. -/
theorem splitsAgain_iff {separator a b : UInt8} (hs : isSeparator separator = true)
    (ha : isSeparator a = false) (hb : isSeparator b = false) {rest : Bytes} :
    ((isUpperLikeForBoundary b true && hasLowercaseNeighbor rest.head? (some a)) = false ∧
      isUpperLikeForBoundary (LetterCase.lower.emitted b) true = true ∧
      hasLowercaseNeighbor (convertSnakeLoop separator .lower true (some b) false rest).head?
        ((some a).map LetterCase.lower.emitted) = true) ↔
      DigitSplitsAt a b rest := by
  have hletter (h : isLetter b = true) : isUpperLikeForBoundary (LetterCase.lower.emitted b) true
      ≠ true := by
    rw [Ne, isUpperLike_digits, isAsciiLowercase_emitted_lower, h]
    exact Bool.noConfusion
  cases kind b with
  | separator h => rw [h] at hb; cases hb
  | lower _ hdigit hlower =>
    have hnot := hletter (isLetter_iff.mpr (.inl hlower))
    simp [hnot, DigitSplitsAt, hdigit]
  | upper _ hdigit _ hupper =>
    have hnot := hletter (isLetter_iff.mpr (.inr hupper))
    simp [hnot, DigitSplitsAt, hdigit]
  | digit _ hdigit hlower hupper =>
    have hlike := isUpperLike_digits.mpr hlower
    rw [emitted_of_not_letter (not_letter_of_caseless hlower hupper), DigitSplitsAt, hlike]
    simp only [hasLowercaseNeighbor, Option.any_some, Option.map_some, Bool.true_and, hdigit, ha,
      Bool.or_eq_false_iff, Bool.or_eq_true, isAsciiLowercase_emitted_lower, true_and]
    constructor
    · rintro ⟨⟨hnext, hprev⟩, hsmall⟩
      rw [head_lower_after_digit hs hlower hnext, isLetter_iff, hprev] at hsmall
      exact ⟨hprev, hnext, hsmall.symm.imp_left fun h => h.resolve_left Bool.false_ne_true⟩
    · rintro ⟨hprev, hnext, hsmall⟩
      refine ⟨⟨hnext, hprev⟩, ?_⟩
      rw [head_lower_after_digit hs hlower hnext, isLetter_iff]
      exact hsmall.symm.imp_right .inr

theorem resplits_kebab {separator : UInt8} (hs : isSeparator separator = true) (input : Bytes) :
    (∀ previous, Resplits separator .lower true previous true input ↔ DigitSplit input) ∧
      ∀ a, isSeparator a = false →
        (Resplits separator .lower true (some a) false input ↔ DigitSplit (a :: input)) := by
  induction input with
  | nil =>
    refine ⟨fun _ => iff_of_false id not_digitSplit_nil, fun a _ => iff_of_false id ?_⟩
    simp [digitSplit_cons, not_digitSplit_nil]
  | cons b input ih =>
    cases hb : isSeparator b with
    | true =>
      have hdigit : isAsciiDigit b = false := by
        cases kind b <;> simp_all
      simp only [Resplits, hb, if_true, ih.1, digitSplit_of_separator hb]
      refine ⟨fun _ => trivial, fun a _ => ?_⟩
      simp [digitSplit_cons, DigitSplitsAt, hdigit, hb]
    | false =>
      simp only [Resplits, hb, Bool.false_eq_true, if_false, ih.2 b hb]
      refine ⟨fun previous => by simp, fun a ha => ?_⟩
      rw [digitSplit_cons (a := a), true_and, splitsAgain_iff hs ha hb]
      simp

/-! ## The families -/

theorem convert_snake_twice (input : Bytes) :
    convertSnakeLike 95 .lower false (convertSnakeLike 95 .lower false input) =
      convertSnakeLike 95 .lower false input :=
  (convertSnakeLike_twice rfl input).mpr (not_resplits_snake _ _ _)

theorem convert_constant_twice (input : Bytes) :
    convertSnakeLike 95 .upper true (convertSnakeLike 95 .upper true input) =
      convertSnakeLike 95 .upper true input :=
  (convertSnakeLike_twice rfl input).mpr (not_resplits_constant rfl _ _ _)

theorem convert_kebab_twice (input : Bytes) :
    convertSnakeLike 45 .lower true (convertSnakeLike 45 .lower true input) =
      convertSnakeLike 45 .lower true input ↔ ¬DigitSplit input := by
  rw [convertSnakeLike_twice rfl, (resplits_kebab rfl _).1, digitSplit_trimRight]

end Mago.Casing
