import Mago.Casing.CamelLike
import Mathlib

/-!
# Names written twice in camel case

A capital that starts a word is kept on a second reading where a digit comes before it, and from
the first letter inside a word on wherever it stands: until then a separator that was dropped
leaves two capitals, the second of which is written small the next time.
-/
namespace Mago.Casing

/-- The options of the families that drop separators and keep digits. -/
def joinedOptions (newWord : Bool) : CamelLikeOptions where
  newWord := newWord
  firstWord := false
  separator := 32
  hasSeparator := false
  inverted := false
  concatNum := true

def camelOptions : CamelLikeOptions := joinedOptions false

def toCamelCase (input : Bytes) : Bytes := toCaseCamelLike camelOptions input

def isCamelCase (input : Bytes) : Bool := isCaseCamelLike camelOptions input

def pascalOptions : CamelLikeOptions := joinedOptions true

def toPascalCase (input : Bytes) : Bytes := toCaseCamelLike pascalOptions input

def isPascalCase (input : Bytes) : Bool := isCaseCamelLike pascalOptions input

/-! ## Where a word is split early -/

/-- A letter comes next, but for separators. -/
def ThenLetter (x : Bytes) : Prop :=
  ∃ separators l rest, x = separators ++ l :: rest ∧
    (∀ s ∈ separators, isSeparator s = true) ∧ isLetter l = true

/-- Two letters with nothing but separators between them, at least one, and no two letters
side by side up to the first of them. -/
def EarlySplit (x : Bytes) : Prop :=
  ∃ before l s rest, x = before ++ l :: s :: rest ∧
    (before ++ [l]).IsChain (fun a b => ¬(isLetter a = true ∧ isLetter b = true)) ∧
    isLetter l = true ∧ isSeparator s = true ∧ ThenLetter rest

/-- The first letter or digit is a digit. -/
def DigitFirst (x : Bytes) : Prop :=
  ∃ separators d rest, x = separators ++ d :: rest ∧
    (∀ s ∈ separators, isSeparator s = true) ∧ isAsciiDigit d = true

theorem not_letter_of_separator {b : UInt8} (h : isSeparator b = true) : isLetter b = false := by
  cases kind b <;> simp_all [isLetter]

theorem not_letter_of_digit {b : UInt8} (h : isAsciiDigit b = true) : isLetter b = false := by
  cases kind b <;> simp_all [isLetter]

theorem not_separator_of_digit {b : UInt8} (h : isAsciiDigit b = true) :
    isSeparator b = false := by
  cases kind b <;> simp_all

theorem not_separator_of_letter {b : UInt8} (h : isLetter b = true) : isSeparator b = false := by
  cases hs : isSeparator b with
  | false => rfl
  | true => rw [not_letter_of_separator hs] at h; cases h

theorem not_thenLetter_nil : ¬ThenLetter [] := by
  rintro ⟨separators, l, rest, heq, -⟩
  simp at heq

theorem thenLetter_cons {b : UInt8} {x : Bytes} :
    ThenLetter (b :: x) ↔ isLetter b = true ∨ (isSeparator b = true ∧ ThenLetter x) := by
  constructor
  · rintro ⟨separators, l, rest, heq, hseps, hl⟩
    cases separators with
    | nil =>
      rw [List.nil_append, List.cons.injEq] at heq
      exact .inl (heq.1 ▸ hl)
    | cons s separators =>
      rw [List.cons_append, List.cons.injEq] at heq
      exact .inr ⟨heq.1 ▸ hseps s (by simp),
        separators, l, rest, heq.2, fun t ht => hseps t (by simp [ht]), hl⟩
  · rintro (hb | ⟨hb, separators, l, rest, heq, hseps, hl⟩)
    · exact ⟨[], b, x, rfl, by simp, hb⟩
    · exact ⟨b :: separators, l, rest, by rw [heq]; rfl, by simpa [hb] using hseps, hl⟩

theorem not_earlySplit_nil : ¬EarlySplit [] := by
  rintro ⟨before, l, s, rest, heq, -⟩
  simp at heq

theorem earlySplit_cons {b : UInt8} {x : Bytes} :
    EarlySplit (b :: x) ↔
      (isLetter b = true ∧ ∃ s rest, x = s :: rest ∧ isSeparator s = true ∧ ThenLetter rest) ∨
      (EarlySplit x ∧ ∀ c ∈ x.head?, ¬(isLetter b = true ∧ isLetter c = true)) := by
  constructor
  · rintro ⟨before, l, s, rest, heq, hchain, hl, hs, hrest⟩
    cases before with
    | nil =>
      rw [List.nil_append, List.cons.injEq] at heq
      exact .inl ⟨heq.1 ▸ hl, s, rest, heq.2, hs, hrest⟩
    | cons c before =>
      rw [List.cons_append, List.cons.injEq] at heq
      rw [List.cons_append, List.isChain_cons] at hchain
      refine .inr ⟨⟨before, l, s, rest, heq.2, hchain.2, hl, hs, hrest⟩, ?_⟩
      intro d hd
      rw [heq.1]
      apply hchain.1
      rw [heq.2] at hd
      cases before with
      | nil => simpa using hd
      | cons e before => simpa using hd
  · rintro (⟨hb, s, rest, rfl, hs, hrest⟩ | ⟨⟨before, l, s, rest, rfl, hchain, hl, hs, hrest⟩, hb⟩)
    · exact ⟨[], b, s, rest, rfl, by simp, hb, hs, hrest⟩
    · refine ⟨b :: before, l, s, rest, rfl, ?_, hl, hs, hrest⟩
      rw [List.cons_append, List.isChain_cons]
      refine ⟨?_, hchain⟩
      intro d hd
      apply hb
      cases before with
      | nil => simpa using hd
      | cons e before => simpa using hd

theorem earlySplit_of_not_letter {b : UInt8} {x : Bytes} (h : isLetter b = false) :
    EarlySplit (b :: x) ↔ EarlySplit x := by
  simp [earlySplit_cons, h]

theorem earlySplit_letter {l b : UInt8} {x : Bytes} (hl : isLetter l = true)
    (hb : isLetter b = false) :
    EarlySplit (l :: b :: x) ↔ (isSeparator b = true ∧ ThenLetter x) ∨ EarlySplit x := by
  rw [earlySplit_cons, earlySplit_of_not_letter hb]
  simp [hl, hb]

theorem not_earlySplit_letters {l l' : UInt8} {x : Bytes} (hl : isLetter l = true)
    (hl' : isLetter l' = true) : ¬EarlySplit (l :: l' :: x) := by
  rw [earlySplit_cons]
  simp [hl, hl', not_separator_of_letter hl']

theorem not_earlySplit_single (b : UInt8) : ¬EarlySplit [b] := by
  simp [earlySplit_cons, not_earlySplit_nil]

/-! ## One byte of the loop -/

section Loop

variable {newWord : Bool} {loop again : CamelLoop} {b : UInt8} {input : Bytes}

theorem convert_separator (h : isSeparator b = true) :
    convertCamelLoop (joinedOptions newWord) loop (b :: input) =
      convertCamelLoop (joinedOptions newWord)
        { loop with newWord := loop.newWord || loop.foundRealChar } input := by
  obtain ⟨newWord', firstWord', lastChar', found⟩ := loop
  cases found with
  | true => simp [convertCamelLoop, h]
  | false => simp [convertCamelLoop, h]

theorem convert_digit (h : isAsciiDigit b = true) :
    convertCamelLoop (joinedOptions newWord) loop (b :: input) =
      b :: convertCamelLoop (joinedOptions newWord)
        { loop with foundRealChar := true, newWord := true } input := by
  simp [convertCamelLoop, not_separator_of_digit h, h, joinedOptions]

theorem convert_initial (h : isLetter b = true) (hstarts : loop.startsWord b = true) :
    convertCamelLoop (joinedOptions newWord) loop (b :: input) =
      toAsciiUppercase b :: convertCamelLoop (joinedOptions newWord)
        { loop with foundRealChar := true, newWord := false, firstWord := false } input := by
  simp [convertCamelLoop, not_separator_of_letter h, not_digit_of_letter h, hstarts, joinedOptions,
    CamelLikeOptions.initial]

theorem convert_inner (h : isLetter b = true) (hstarts : loop.startsWord b = false) :
    convertCamelLoop (joinedOptions newWord) loop (b :: input) =
      toAsciiLowercase b :: convertCamelLoop (joinedOptions newWord)
        { loop with foundRealChar := true, lastChar := b } input := by
  simp [convertCamelLoop, not_separator_of_letter h, not_digit_of_letter h, hstarts]

theorem startsWord_lower (h : isAsciiUppercase b = false) : loop.startsWord b = loop.newWord := by
  simp [CamelLoop.startsWord, h]

theorem startsWord_upper (h : isAsciiUppercase b = true) :
    loop.startsWord b = (loop.newWord || isAsciiLowercase loop.lastChar) := by
  cases hlast : isAsciiLowercase loop.lastChar with
  | false => simp [CamelLoop.startsWord, hlast]
  | true =>
    have hne : loop.lastChar ≠ 32 := by
      intro heq
      rw [heq] at hlast
      exact absurd hlast (by decide)
    simp [CamelLoop.startsWord, hlast, h, hne]

/-- A capital read again stays where a word starts at it or a small letter was written. -/
theorem convert_upper (h : isLetter b = true)
    (hstarts : again.newWord = true ∨ isAsciiLowercase again.lastChar = true) :
    convertCamelLoop (joinedOptions newWord) again (toAsciiUppercase b :: input) =
      toAsciiUppercase b :: convertCamelLoop (joinedOptions newWord)
        { again with foundRealChar := true, newWord := false, firstWord := false } input := by
  have hupper := isAsciiUppercase_toUppercase h
  rw [convert_initial (isLetter_iff.mpr (.inr hupper)),
    toAsciiUppercase_of_not (not_lower_of_upper hupper)]
  rw [startsWord_upper hupper, Bool.or_eq_true]
  exact hstarts

theorem convert_lower (h : isLetter b = true) (hstarts : again.newWord = false) :
    convertCamelLoop (joinedOptions newWord) again (toAsciiLowercase b :: input) =
      toAsciiLowercase b :: convertCamelLoop (joinedOptions newWord)
        { again with foundRealChar := true, lastChar := toAsciiLowercase b } input := by
  have hlower := isAsciiLowercase_toLowercase h
  have hnot := not_upper_of_lower hlower
  rw [convert_inner (isLetter_iff.mpr (.inl hlower)), toAsciiLowercase_of_not hnot]
  rw [startsWord_lower hnot, hstarts]

/-- Once a small letter stands inside a word, what is written is written again as it is. -/
theorem convert_settled (input : Bytes) {loop again : CamelLoop}
    (hword : again.newWord = true → loop.newWord = true)
    (hlast : isAsciiLowercase again.lastChar = true) :
    convertCamelLoop (joinedOptions newWord) again
        (convertCamelLoop (joinedOptions newWord) loop input) =
      convertCamelLoop (joinedOptions newWord) loop input := by
  induction input generalizing loop again with
  | nil => rfl
  | cons b input ih =>
    by_cases hsep : isSeparator b = true
    · rw [convert_separator hsep]
      exact ih (fun h => by simp [hword h]) hlast
    by_cases hdigit : isAsciiDigit b = true
    · rw [convert_digit hdigit, convert_digit hdigit]
      exact congrArg _ (ih (fun _ => rfl) hlast)
    have hletter : isLetter b = true := by
      cases kind b <;> simp_all [isLetter]
    cases hstarts : loop.startsWord b with
    | true =>
      rw [convert_initial hletter hstarts, convert_upper hletter (.inr hlast)]
      exact congrArg _ (ih (fun h => h) hlast)
    | false =>
      have hnew : loop.newWord = false := by
        simp only [CamelLoop.startsWord, Bool.or_eq_false_iff] at hstarts
        exact hstarts.1
      have hnew' : again.newWord = false := by
        rw [← Bool.not_eq_true]
        intro h
        rw [hword h] at hnew
        cases hnew
      rw [convert_inner hletter hstarts, convert_lower hletter hnew']
      exact congrArg _ (ih hword (isAsciiLowercase_toLowercase hletter))

/-- What a first reading has seen, and a second of its output, before any letter inside a word. -/
inductive Unsettled : CamelLoop → CamelLoop → Bytes → Prop
  | boundary {loop again : CamelLoop} (h : loop.newWord = true) (hagain : again.newWord = true) :
      Unsettled loop again []
  | letter {loop again : CamelLoop} {l : UInt8} (h : loop.newWord = false)
      (hagain : again.newWord = false) (hfound : loop.foundRealChar = true)
      (hl : isLetter l = true) : Unsettled loop again [l]
  | separated {loop again : CamelLoop} {l s : UInt8} (h : loop.newWord = true)
      (hagain : again.newWord = false) (hl : isLetter l = true) (hs : isSeparator s = true) :
      Unsettled loop again [l, s]

theorem startsWord_of_not_lower (hlast : isAsciiLowercase loop.lastChar = false) :
    loop.startsWord b = loop.newWord := by
  simp [CamelLoop.startsWord, hlast]

theorem convert_unsettled (input seen : Bytes) {loop again : CamelLoop}
    (hphase : Unsettled loop again seen) (hlast : isAsciiLowercase loop.lastChar = false)
    (hagain : isAsciiLowercase again.lastChar = false) :
    convertCamelLoop (joinedOptions newWord) again
        (convertCamelLoop (joinedOptions newWord) loop input) =
      convertCamelLoop (joinedOptions newWord) loop input ↔ ¬EarlySplit (seen ++ input) := by
  induction input generalizing loop again seen with
  | nil =>
    simp only [convertCamelLoop, List.append_nil, true_iff]
    cases hphase with
    | boundary => exact not_earlySplit_nil
    | letter => exact not_earlySplit_single _
    | separated h hagain hl hs =>
      rw [earlySplit_letter hl (not_letter_of_separator hs)]
      simp [not_thenLetter_nil, not_earlySplit_nil]
  | cons b input ih =>
    by_cases hsep : isSeparator b = true
    · have hb := not_letter_of_separator hsep
      rw [convert_separator hsep]
      cases hphase with
      | boundary h hagain' =>
        refine Iff.trans (ih [] (.boundary ?_ hagain') ?_ hagain) ?_
        · simp [h]
        · exact hlast
        · simp [earlySplit_of_not_letter hb]
      | letter h hagain' hfound hl =>
        exact ih _ (.separated (by simp [hfound]) hagain' hl hsep) hlast hagain
      | separated h hagain' hl hs =>
        have hs' := not_letter_of_separator hs
        refine Iff.trans (ih _ (.separated ?_ hagain' hl hs) ?_ hagain) ?_
        · simp [h]
        · exact hlast
        simp [earlySplit_letter hl hs', hs, hsep, thenLetter_cons, hb, earlySplit_of_not_letter hb]
    by_cases hdigit : isAsciiDigit b = true
    · have hb := not_letter_of_digit hdigit
      have hs := not_separator_of_digit hdigit
      rw [convert_digit hdigit, convert_digit hdigit, List.cons.injEq, and_iff_right rfl]
      refine Iff.trans (ih [] (.boundary rfl rfl) ?_ ?_) ?_
      · exact hlast
      · exact hagain
      cases hphase with
      | boundary => simp [earlySplit_of_not_letter hb]
      | letter _ _ _ hl => simp [earlySplit_letter hl hb, hs]
      | separated _ _ hl hs' =>
        simp [earlySplit_letter hl (not_letter_of_separator hs'), thenLetter_cons, hb, hs,
          earlySplit_of_not_letter hb]
    have hb : isLetter b = true := by
      cases kind b <;> simp_all [isLetter]
    cases hphase with
    | boundary h hagain' =>
      rw [convert_initial hb (by rw [startsWord_of_not_lower hlast, h]),
        convert_upper hb (.inl hagain'), List.cons.injEq, and_iff_right rfl]
      exact ih _ (.letter rfl rfl rfl hb) hlast hagain
    | letter h hagain' hfound hl =>
      refine iff_of_true ?_ (not_earlySplit_letters hl hb)
      rw [convert_inner hb (by rw [startsWord_of_not_lower hlast, h]), convert_lower hb hagain']
      refine congrArg _ (convert_settled input ?_ (isAsciiLowercase_toLowercase hb))
      intro hnew
      rw [hagain'] at hnew
      cases hnew
    | separated h hagain' hl hs =>
      -- The separator is gone from the output, and this capital is no longer the start of a word.
      have hnext : ThenLetter (b :: input) := thenLetter_cons.mpr (.inl hb)
      have hsplit := (earlySplit_letter hl (not_letter_of_separator hs)).mpr (.inl ⟨hs, hnext⟩)
      have hupper := isAsciiUppercase_toUppercase hb
      refine iff_of_false ?_ (not_not_intro hsplit)
      rw [convert_initial hb (by rw [startsWord_of_not_lower hlast, h]),
        convert_inner (isLetter_iff.mpr (.inr hupper))
          (by rw [startsWord_of_not_lower hagain, hagain'])]
      intro heq
      have hlower := toAsciiLowercase_of_upper hupper
      rw [(List.cons.inj heq).1, not_lower_of_upper hupper] at hlower
      cases hlower

end Loop

/-! ## The families -/

/-- Separators write nothing, so the right end needs no trimming. -/
theorem convert_trimRight (newWord : Bool) (input : Bytes) :
    convertCamelLike (joinedOptions newWord) input =
      convertCamelLoop (joinedOptions newWord) (joinedOptions newWord).start input := by
  obtain ⟨tail, heq, htail, -⟩ := exists_trimRight input
  have hdrop (input : Bytes) (loop : CamelLoop) :
      convertCamelLoop (joinedOptions newWord) loop (input ++ tail) =
        convertCamelLoop (joinedOptions newWord) loop input := by
    induction input generalizing loop with
    | nil =>
      rw [List.nil_append]
      clear heq
      induction tail generalizing loop with
      | nil => rfl
      | cons s tail ih =>
        rw [convert_separator (htail s (by simp))]
        exact ih (fun t ht => htail t (by simp [ht])) _
    | cons b input ih => simp only [List.cons_append, convertCamelLoop, ih]
  conv_rhs => rw [heq, hdrop]
  rfl

theorem convert_pascal_twice (input : Bytes) :
    convertCamelLike pascalOptions (convertCamelLike pascalOptions input) =
      convertCamelLike pascalOptions input ↔ ¬EarlySplit input := by
  rw [pascalOptions, convert_trimRight, convert_trimRight]
  exact convert_unsettled input [] (.boundary rfl rfl) rfl rfl

theorem digitFirst_cons {b : UInt8} {x : Bytes} :
    DigitFirst (b :: x) ↔
      isAsciiDigit b = true ∨ (isSeparator b = true ∧ DigitFirst x) := by
  constructor
  · rintro ⟨separators, d, rest, heq, hseps, hd⟩
    cases separators with
    | nil =>
      rw [List.nil_append, List.cons.injEq] at heq
      exact .inl (heq.1 ▸ hd)
    | cons s separators =>
      rw [List.cons_append, List.cons.injEq] at heq
      exact .inr ⟨heq.1 ▸ hseps s (by simp),
        separators, d, rest, heq.2, fun t ht => hseps t (by simp [ht]), hd⟩
  · rintro (hb | ⟨hb, separators, d, rest, heq, hseps, hd⟩)
    · exact ⟨[], b, x, rfl, by simp, hb⟩
    · exact ⟨b :: separators, d, rest, by rw [heq]; rfl, by simpa [hb] using hseps, hd⟩

theorem convert_camel_start (input : Bytes) :
    convertCamelLoop camelOptions camelOptions.start
        (convertCamelLoop camelOptions camelOptions.start input) =
      convertCamelLoop camelOptions camelOptions.start input ↔
        ¬(DigitFirst input ∧ EarlySplit input) := by
  induction input with
  | nil => simp [convertCamelLoop, not_earlySplit_nil]
  | cons b input ih =>
    by_cases hsep : isSeparator b = true
    · have hb := not_letter_of_separator hsep
      have hdrop : convertCamelLoop camelOptions camelOptions.start (b :: input) =
          convertCamelLoop camelOptions camelOptions.start input := convert_separator hsep
      have hdigit : isAsciiDigit b = false := by
        cases kind b <;> simp_all
      rw [hdrop, ih, digitFirst_cons, earlySplit_of_not_letter hb]
      simp [hsep, hdigit]
    by_cases hdigit : isAsciiDigit b = true
    · rw [camelOptions, convert_digit hdigit, convert_digit hdigit, List.cons.injEq,
        and_iff_right rfl]
      refine Iff.trans (convert_unsettled input [] (.boundary rfl rfl) rfl rfl) ?_
      rw [digitFirst_cons, earlySplit_of_not_letter (not_letter_of_digit hdigit)]
      simp [hdigit]
    · have hletter : isLetter b = true := by
        cases kind b <;> simp_all [isLetter]
      have hinner : (joinedOptions false).start.startsWord b = false := rfl
      have hfirst : ¬DigitFirst (b :: input) := by
        simp [digitFirst_cons, hsep, hdigit]
      refine iff_of_true ?_ fun h => hfirst h.1
      rw [camelOptions, convert_inner hletter hinner, convert_lower hletter rfl]
      exact congrArg _ (convert_settled input (fun h => h) (isAsciiLowercase_toLowercase hletter))

theorem convert_camel_twice (input : Bytes) :
    convertCamelLike camelOptions (convertCamelLike camelOptions input) =
      convertCamelLike camelOptions input ↔ ¬(DigitFirst input ∧ EarlySplit input) := by
  rw [camelOptions, convert_trimRight, convert_trimRight]
  exact convert_camel_start input

end Mago.Casing
