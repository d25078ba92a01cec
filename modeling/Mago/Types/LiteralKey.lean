import Mago.Syntax.Literal
import Mago.Types.ArrayContainment

/-!
# Keys of literal indexes

The index of an array access is known to the reconciler by its spelling, which it reads a second
time to find the key. Only single-quoted strings get their escapes decoded there, and integers
are read as decimal ones.
-/
namespace Mago.Types.LiteralKey

open Mago.Algebra (Word ArrayKey)
open Mago.Syntax (byte inRange)
open Mago.Syntax.Literal

/-! ## The reconciler -/

/-- The escapes of single quotes. -/
def decodeQuoted : Word → Word
  | [] => []
  | [b] => [b]
  | b :: next :: behind =>
    if b = backslash ∧ (next = singleQuote ∨ next = backslash) then next :: decodeQuoted behind
    else b :: decodeQuoted (next :: behind)

/-- The integer parser of the standard library; a text that is no UTF-8 has no digits only. -/
def parseInteger (s : Word) : Option ℤ :=
  let digits := if s.head? = some (byte '-') ∨ s.head? = some (byte '+') then s.tail else s
  if digits.isEmpty || !digits.all isAsciiDigit then none
  else parseI64 (if s.head? = some (byte '+') then digits else s)

def resolveLiteralArrayKey (arrayKey : Word) : Option ArrayKey :=
  let quote := arrayKey.head?
  if (quote = some singleQuote ∨ quote = some doubleQuote) ∧ 2 ≤ arrayKey.length then
    let value := (arrayKey.drop 1).take (arrayKey.length - 2)
    if quote = some singleQuote ∧ backslash ∈ value then
      some (ArrayKey.fromString (decodeQuoted value))
    else some (ArrayKey.fromString value)
  else (parseInteger arrayKey).map .integer

/-! ## Literals -/

/-- A string between quotes, perhaps behind a letter that marks it as binary. -/
structure LiteralString where
  binary : Option UInt8
  quote : UInt8
  content : Word
  isBinary : ∀ b ∈ binary, b = byte 'b' ∨ b = byte 'B'
  isQuote : quote = singleQuote ∨ quote = doubleQuote

def LiteralString.raw (l : LiteralString) : Word :=
  l.binary.toList ++ l.quote :: (l.content ++ [l.quote])

structure LiteralInteger where
  raw : Word
  startsWithDigit : raw.head?.any isAsciiDigit = true

inductive Literal
  | string (l : LiteralString)
  | integer (l : LiteralInteger)

def getIndexId : Literal → Word
  | .string l => l.raw
  | .integer l => l.raw

/-- The key of the value the parser gives the literal: none for an invalid one, and no integer
key where the number is too large and becomes a float. -/
def key : Literal → Option ArrayKey
  | .string l => (parseLiteralString l.raw none true).map ArrayKey.fromString
  | .integer l => (parseLiteralInteger l.raw).bind fun value =>
    if (value : ℤ) ≤ i64Max then some (.integer value) else none

/-! ## Strings -/

theorem decodeQuoted_cons {b : UInt8} (h : b ≠ backslash) (rest : Word) :
    decodeQuoted (b :: rest) = b :: decodeQuoted rest := by
  cases rest with
  | nil => rfl
  | cons next behind => rw [decodeQuoted, if_neg fun hb => h hb.1]

theorem decodeEscapes_single (content : Word) :
    decodeEscapes (some singleQuote) content = some (decodeQuoted content) := by
  induction hn : content.length using Nat.strong_induction_on generalizing content with
  | _ n ih =>
    subst hn
    match content with
    | [] => exact decodeEscapes_nil _
    | b :: rest =>
      by_cases hb : b = backslash
      · subst hb
        match rest with
        | [] => exact decodeEscapes_end _
        | next :: behind =>
          have hbehind := ih behind.length (by simp) behind rfl
          rw [decodeEscapes_escape, decodeQuoted, escape]
          by_cases hbackslash : next = backslash
          · rw [if_pos hbackslash, if_pos ⟨rfl, Or.inr hbackslash⟩, Option.bind_some,
              List.drop_zero, hbehind, hbackslash]
            rfl
          · by_cases hquote : next = singleQuote
            · rw [if_neg hbackslash, if_pos ⟨hquote, rfl⟩, if_pos ⟨rfl, Or.inl hquote⟩,
                Option.bind_some, List.drop_zero, hbehind, hquote]
              rfl
            · have hnot : ¬ (backslash = backslash ∧ (next = singleQuote ∨ next = backslash)) := by
                rintro ⟨-, h | h⟩
                · exact hquote h
                · exact hbackslash h
              have hdouble : ¬ (some singleQuote = some doubleQuote) := by decide
              rw [if_neg hbackslash, if_neg (fun h => hquote h.1), if_neg hdouble, if_neg hnot,
                Option.bind_some, List.drop_zero, hbehind, decodeQuoted_cons hbackslash]
              rfl
      · rw [decodeEscapes_cons hb, decodeQuoted_cons hb, ih rest.length (by simp) rest rfl]
        rfl

namespace LiteralString

variable (l : LiteralString)

/-- What a text between quotes is decoded to. -/
def value : Option Word :=
  if backslash ∉ l.content then some l.content else decodeEscapes (some l.quote) l.content

theorem between_self (q : UInt8) (content : Word) :
    between q (q :: (content ++ [q])) = some content := by
  have hlast : (q :: (content ++ [q])).getLast? = some q := by
    rw [← List.cons_append, List.getLast?_concat]
  have hlen : 2 ≤ (q :: (content ++ [q])).length := by simp
  rw [between, if_pos ⟨rfl, hlast, hlen⟩]
  simp

theorem between_of_ne {q q' : UInt8} (h : q ≠ q') (content : Word) :
    between q' (q :: (content ++ [q])) = none := by
  rw [between, if_neg]
  rintro ⟨hhead, -⟩
  exact h (Option.some.inj hhead)

theorem startsQuoted_quote {q : UInt8} (h : q = singleQuote ∨ q = doubleQuote) (rest : Word) :
    startsQuoted (q :: rest) = false := by
  cases rest with
  | nil => rfl
  | cons b rest =>
    rw [startsQuoted]
    obtain rfl | rfl := h
    · rfl
    · rfl

/-- The mark is passed over. -/
theorem parseLiteralString_raw : parseLiteralString l.raw none true = l.value := by
  have hstripped : (if (true && startsQuoted l.raw) = true then l.raw.tail else l.raw) =
      l.quote :: (l.content ++ [l.quote]) := by
    unfold raw
    cases hbinary : l.binary with
    | none =>
      rw [Option.toList_none, List.nil_append, Bool.true_and, startsQuoted_quote l.isQuote]
      exact if_neg Bool.false_ne_true
    | some b =>
      have hstarts : startsQuoted ([b] ++ l.quote :: (l.content ++ [l.quote])) = true := by
        rw [List.singleton_append, startsQuoted]
        obtain hb | hb := l.isBinary b hbinary
        · obtain hq | hq := l.isQuote
          · rw [hb, hq]
            rfl
          · rw [hb, hq]
            rfl
        · obtain hq | hq := l.isQuote
          · rw [hb, hq]
            rfl
          · rw [hb, hq]
            rfl
      rw [Option.toList_some, Bool.true_and, if_pos hstarts]
      rfl
  have hnonempty : ¬ l.raw.isEmpty = true := by
    rw [raw]
    simp
  unfold parseLiteralString
  rw [if_neg hnonempty]
  simp only [hstripped]
  unfold value
  obtain hq | hq := l.isQuote
  · rw [hq, between_of_ne (by decide), between_self]
    rfl
  · rw [hq, between_self]
    rfl

/-- The index is not an integer, however it is marked. -/
theorem parseInteger_of_head {b : UInt8} (rest : Word)
    (h : isAsciiDigit b = false ∧ b ≠ byte '-' ∧ b ≠ byte '+') :
    parseInteger (b :: rest) = none := by
  obtain ⟨hdigit, hminus, hplus⟩ := h
  simp [parseInteger, hdigit, hminus, hplus]

/-- Without a mark the content is found again. -/
theorem resolve_of_not_binary (h : l.binary = none) :
    resolveLiteralArrayKey l.raw =
      some (ArrayKey.fromString (if l.quote = singleQuote ∧ backslash ∈ l.content then
        decodeQuoted l.content else l.content)) := by
  have hraw : l.raw = l.quote :: (l.content ++ [l.quote]) := by
    rw [raw, h]
    rfl
  have hquote : (l.quote = singleQuote ∨ l.quote = doubleQuote) ∧
      2 ≤ (l.quote :: (l.content ++ [l.quote])).length := by
    simp [l.isQuote]
  have hcontent : ((l.quote :: (l.content ++ [l.quote])).drop 1).take
      ((l.quote :: (l.content ++ [l.quote])).length - 2) = l.content := by
    simp
  unfold resolveLiteralArrayKey
  simp only [hraw, List.head?_cons, hcontent, Option.some.injEq]
  rw [if_pos hquote, apply_ite ArrayKey.fromString, apply_ite some]

theorem resolve_of_binary {b : UInt8} (h : l.binary = some b) :
    resolveLiteralArrayKey l.raw = none := by
  have hraw : l.raw = b :: l.quote :: (l.content ++ [l.quote]) := by
    rw [raw, h]
    rfl
  have hb : isAsciiDigit b = false ∧ b ≠ byte '-' ∧ b ≠ byte '+' ∧ b ≠ singleQuote ∧
      b ≠ doubleQuote := by
    obtain rfl | rfl := l.isBinary b h
    · decide
    · decide
  obtain ⟨hdigit, hminus, hplus, hsingle, hdouble⟩ := hb
  have hnot : ¬ (((some b : Option UInt8) = some singleQuote ∨ some b = some doubleQuote) ∧
      2 ≤ (b :: l.quote :: (l.content ++ [l.quote])).length) := by
    rintro ⟨heq | heq, -⟩
    · exact hsingle (Option.some.inj heq)
    · exact hdouble (Option.some.inj heq)
  unfold resolveLiteralArrayKey
  simp only [hraw, List.head?_cons, if_neg hnot, parseInteger_of_head _ ⟨hdigit, hminus, hplus⟩]
  rfl

/-- An escape that only the parser decodes. -/
def Misread : Prop := l.binary = none ∧ l.quote = doubleQuote ∧ HasEscape l.content

theorem backslash_mem_of_hasEscape {content : Word} (h : HasEscape content) :
    backslash ∈ content := by
  obtain ⟨before, next, behind, rfl, -⟩ := h
  simp

theorem fromString_of_backslash {s : Word} (h : backslash ∈ s) :
    ArrayKey.fromString s = .string s := by
  have hdigits : backslash ∈ (if s.head? = some 45 then s.tail else s) := by
    cases s with
    | nil => cases h
    | cons b rest =>
      by_cases hminus : (b :: rest).head? = some 45
      · rw [if_pos hminus]
        obtain hhead | htail := List.mem_cons.mp h
        · rw [List.head?_cons, ← hhead] at hminus
          exact absurd hminus (by decide)
        · exact htail
      · rwa [if_neg hminus]
  have hnot : (if s.head? = some 45 then s.tail else s).all isAsciiDigit = false :=
    List.all_eq_false.mpr ⟨backslash, hdigits, by decide⟩
  simp only [ArrayKey.fromString, hnot, Bool.not_false, Bool.or_true, Bool.true_or, if_true]

theorem string_eq_of_fromString {s s' : Word} (h : ArrayKey.fromString s = .string s') :
    s = s' := by
  obtain hstring | ⟨n, hinteger, -, -⟩ := fromString_eq (s := s)
  · rw [hstring, ArrayKey.string.injEq] at h
    exact h
  · rw [hinteger] at h
    cases h

/-- The key of a string is the one of its value unless an escape is misread. -/
theorem resolve_iff {p : ArrayKey} (hp : key (.string l) = some p) :
    (∀ k, resolveLiteralArrayKey l.raw = some k → k = p) ↔ ¬ l.Misread := by
  rw [key, parseLiteralString_raw] at hp
  obtain ⟨value, hvalue, rfl⟩ := Option.map_eq_some_iff.mp hp
  unfold LiteralString.value at hvalue
  cases hbinary : l.binary with
  | some b =>
    rw [resolve_of_binary l hbinary]
    constructor
    · rintro - ⟨hnone, -⟩
      rw [hbinary] at hnone
      cases hnone
    · intro _ k hk
      cases hk
  | none =>
    rw [resolve_of_not_binary l hbinary]
    by_cases hslash : backslash ∈ l.content
    · rw [if_neg (not_not.mpr hslash)] at hvalue
      obtain hquote | hquote := l.isQuote
      · rw [hquote, decodeEscapes_single, Option.some.injEq] at hvalue
        rw [if_pos ⟨hquote, hslash⟩, hvalue]
        constructor
        · rintro - ⟨-, hdouble, -⟩
          rw [hquote] at hdouble
          exact absurd hdouble (by decide)
        · rintro - k ⟨⟩
          rfl
      · have hsingle : ¬ (l.quote = singleQuote ∧ backslash ∈ l.content) := by
          rintro ⟨hsingle, -⟩
          rw [hquote] at hsingle
          exact absurd hsingle (by decide)
        rw [hquote] at hvalue
        rw [if_neg hsingle]
        constructor
        · rintro h ⟨-, -, hescape⟩
          have hkey := h _ rfl
          rw [fromString_of_backslash hslash] at hkey
          have hsame := string_eq_of_fromString hkey.symm
          have hlt := (length_decodeEscapes hvalue).2 hescape
          rw [hsame] at hlt
          exact lt_irrefl _ hlt
        · rintro hnot k ⟨⟩
          have hkept := decodeEscapes_of_not_hasEscape fun he => hnot ⟨hbinary, hquote, he⟩
          rw [Option.some.inj (hvalue.symm.trans hkept)]
    · rw [if_pos hslash, Option.some.injEq] at hvalue
      rw [if_neg fun h => hslash h.2, hvalue]
      constructor
      · rintro - ⟨-, -, hescape⟩
        exact hslash (backslash_mem_of_hasEscape hescape)
      · rintro - k ⟨⟩
        rfl

end LiteralString

/-! ## Integers -/

namespace LiteralInteger

variable (l : LiteralInteger)

/-- A zero and octal digits, which stand for another number in base ten. -/
def Misread : Prop :=
  ∃ digits, l.raw = byte '0' :: digits ∧ digits ≠ [] ∧
    (∀ b ∈ digits, inRange '0' '7' b = true) ∧ 8 ≤ decimal l.raw ∧ decimal l.raw ≤ i64Max

theorem isAsciiDigit_eq (b : UInt8) : Syntax.isAsciiDigit b = isAsciiDigit b := by
  rw [Syntax.isAsciiDigit, inRange, isAsciiDigit, ← Bool.decide_and]
  rfl

/-- The digits of a word in base ten, as a natural number. -/
theorem decimal_eq_numberFrom {digits : Word} (h : ∀ b ∈ digits, isAsciiDigit b = true) :
    decimal digits = (numberFrom 10 0 digits : ℤ) := by
  have hfold (n : ℕ) : digits.foldl (fun (n : ℤ) b => 10 * n + (b.toNat - 48 : ℤ)) n =
      (numberFrom 10 n digits : ℤ) := by
    induction digits generalizing n with
    | nil => rfl
    | cons b rest ih =>
      have hb := h b List.mem_cons_self
      have hle : 48 ≤ b.toNat := by
        simp only [isAsciiDigit, Bool.and_eq_true, decide_eq_true_eq] at hb
        exact hb.1
      have hstep : (10 * (n : ℤ) + (b.toNat - 48 : ℤ)) = ((n * 10 + (b.toNat - 0x30) : ℕ) : ℤ) := by
        push_cast [Nat.cast_sub hle]
        ring
      rw [List.foldl_cons, hstep, ih fun c hc => h c (List.mem_cons_of_mem _ hc)]
      rfl
  exact hfold 0

theorem resolve_eq_some_iff {k : ArrayKey} :
    resolveLiteralArrayKey l.raw = some k ↔
      (∀ b ∈ l.raw, isAsciiDigit b = true) ∧ decimal l.raw ≤ i64Max ∧
        k = .integer (decimal l.raw) := by
  obtain ⟨raw, hdigit⟩ := l
  cases raw with
  | nil => cases hdigit
  | cons b rest =>
    change isAsciiDigit b = true at hdigit
    have hne {c : UInt8} (hc : isAsciiDigit c = false) : b ≠ c := by
      rintro rfl
      rw [hdigit] at hc
      cases hc
    have hnot : ¬ ((b = singleQuote ∨ b = doubleQuote) ∧ 2 ≤ (b :: rest).length) := by
      rintro ⟨heq | heq, -⟩
      · exact hne (by decide) heq
      · exact hne (by decide) heq
    have hminus : b ≠ byte '-' := hne (by decide)
    have hplus : b ≠ byte '+' := hne (by decide)
    have hsign : b ≠ 45 := hminus
    have hresolve : resolveLiteralArrayKey (b :: rest) =
        (parseInteger (b :: rest)).map .integer := by
      unfold resolveLiteralArrayKey
      simp only [List.head?_cons, Option.some.injEq]
      exact if_neg hnot
    have hparse : parseInteger (b :: rest) =
        if (b :: rest).all isAsciiDigit then parseI64 (b :: rest) else none := by
      simp only [parseInteger, List.head?_cons, Option.some.injEq, hminus, hplus, or_self, if_false,
        List.isEmpty_cons, Bool.false_or]
      cases (b :: rest).all isAsciiDigit with
      | true => rfl
      | false => rfl
    rw [hresolve, hparse]
    by_cases hall : (b :: rest).all isAsciiDigit = true
    · have hdigits := List.all_eq_true.mp hall
      have hnonneg : i64Min ≤ decimal (b :: rest) := by
        rw [decimal_eq_numberFrom hdigits]
        have hmin : i64Min ≤ 0 := by decide
        omega
      rw [if_pos hall, parseI64, List.head?_cons, if_neg fun h => hsign (Option.some.inj h)]
      by_cases hmax : decimal (b :: rest) ≤ i64Max
      · rw [if_pos ⟨hnonneg, hmax⟩, Option.map_some, Option.some.injEq]
        constructor
        · rintro rfl
          exact ⟨hdigits, hmax, rfl⟩
        · rintro ⟨-, -, rfl⟩
          rfl
      · rw [if_neg fun h => hmax h.2, Option.map_none]
        constructor
        · intro h
          cases h
        · rintro ⟨-, h, -⟩
          exact absurd h hmax
    · rw [if_neg hall, Option.map_none]
      constructor
      · intro h
        cases h
      · rintro ⟨h, -⟩
        exact absurd (List.all_eq_true.mpr h) hall

theorem digit_lt_ten {b : UInt8} (h : isAsciiDigit b = true) : b.toNat - 0x30 < 10 := by
  simp only [isAsciiDigit, Bool.and_eq_true, decide_eq_true_eq, UInt8.le_iff_toNat_le] at h
  have hle : b.toNat ≤ 57 := h.2
  omega

theorem isAsciiDigit_of_octal {b : UInt8} (h : inRange '0' '7' b = true) :
    isAsciiDigit b = true := by
  simp only [inRange, decide_eq_true_eq] at h
  have hseven : byte '7' ≤ (57 : UInt8) := by decide
  simp only [isAsciiDigit, Bool.and_eq_true, decide_eq_true_eq]
  exact ⟨h.1, UInt8.le_trans h.2 hseven⟩

theorem octal_lt_eight {b : UInt8} (h : inRange '0' '7' b = true) : b.toNat - 0x30 < 8 := by
  simp only [inRange, decide_eq_true_eq, UInt8.le_iff_toNat_le] at h
  have hle : b.toNat ≤ 55 := h.2
  omega

/-- A leading zero says nothing. -/
theorem numberFrom_zero_cons (digits : Word) :
    numberFrom 10 0 (byte '0' :: digits) = numberFrom 10 0 digits := rfl

/-- Digits are octal behind a zero, where all of them can be. -/
theorem radixAndStart_octal {digits : Word} (hne : digits ≠ [])
    (h : ∀ b ∈ digits, inRange '0' '7' b = true) : radixAndStart (byte '0' :: digits) = (8, 1) := by
  cases digits with
  | nil => exact absurd rfl hne
  | cons b rest =>
    have hb := isAsciiDigit_of_octal (h b List.mem_cons_self)
    have hletter {c : UInt8} (hc : isAsciiDigit c = false) : b ≠ c := by
      rintro rfl
      rw [hb] at hc
      cases hc
    have hall : ((b :: rest).all fun b => b == byte '_' || inRange '0' '7' b) = true := by
      rw [List.all_eq_true]
      intro c hc
      rw [h c hc, Bool.or_true]
    rw [radixAndStart, if_pos rfl, if_neg, if_neg, if_neg, if_pos hall]
    all_goals
      rintro (heq | heq)
      · exact hletter (by decide) heq
      · exact hletter (by decide) heq

theorem radixAndStart_decimal {raw : Word} (hdigits : ∀ b ∈ raw, isAsciiDigit b = true)
    (hnot : ¬ ∃ digits, raw = byte '0' :: digits ∧ digits ≠ [] ∧
      ∀ b ∈ digits, inRange '0' '7' b = true) : radixAndStart raw = (10, 0) := by
  match raw with
  | [] => rfl
  | [b] => rfl
  | first :: second :: rest =>
    have hletter {c : UInt8} (hc : isAsciiDigit c = false) : second ≠ c := by
      rintro rfl
      rw [hdigits second (by simp)] at hc
      cases hc
    by_cases hzero : first = byte '0'
    · subst hzero
      have hall : ¬ ((second :: rest).all fun b => b == byte '_' || inRange '0' '7' b) = true := by
        intro hall
        refine hnot ⟨second :: rest, rfl, List.cons_ne_nil _ _, fun b hb => ?_⟩
        have hoctal := List.all_eq_true.mp hall b hb
        have hunderscore : (b == byte '_') = false := by
          rw [beq_eq_false_iff_ne]
          rintro rfl
          exact absurd (hdigits _ (List.mem_cons_of_mem _ hb)) (by decide)
        rwa [hunderscore, Bool.false_or] at hoctal
      rw [radixAndStart, if_pos rfl, if_neg, if_neg, if_neg, if_neg hall]
      all_goals
        rintro (heq | heq)
        · exact hletter (by decide) heq
        · exact hletter (by decide) heq
    · rw [radixAndStart, if_neg hzero]

/-- The parser's number for digits alone: octal behind a zero, where all digits can be. -/
theorem parseLiteralInteger_digits {raw : Word} (hne : raw ≠ [])
    (hdigits : ∀ b ∈ raw, isAsciiDigit b = true) (hmax : decimal raw ≤ i64Max) :
    (∃ digits, raw = byte '0' :: digits ∧ digits ≠ [] ∧
        (∀ b ∈ digits, inRange '0' '7' b = true) ∧
        parseLiteralInteger raw = some (numberFrom 8 0 digits)) ∨
      (¬ ∃ digits, raw = byte '0' :: digits ∧ digits ≠ [] ∧
        ∀ b ∈ digits, inRange '0' '7' b = true) ∧
        parseLiteralInteger raw = some (numberFrom 10 0 raw) := by
  have hempty : ¬ raw.isEmpty = true := by simpa using hne
  have hsmall : numberFrom 10 0 raw ≤ u64Max := by
    rw [decimal_eq_numberFrom hdigits] at hmax
    have hbound : i64Max ≤ (u64Max : ℤ) := by decide
    omega
  by_cases hoctal : ∃ digits, raw = byte '0' :: digits ∧ digits ≠ [] ∧
      ∀ b ∈ digits, inRange '0' '7' b = true
  · obtain ⟨digits, rfl, hrest, hdigit⟩ := hoctal
    have hle := (numberFrom_octal fun b hb => octal_lt_eight (hdigit b hb)).1
    have hparse := parseDigits_of_digits 8 (by decide) 0 false
      (fun b hb => ⟨(isAsciiDigit_eq b).trans (isAsciiDigit_of_octal (hdigit b hb)),
        octal_lt_eight (hdigit b hb)⟩)
      (le_trans hle hsmall) (Or.inl hrest)
    refine Or.inl ⟨digits, rfl, hrest, hdigit, ?_⟩
    rw [parseLiteralInteger, if_neg hempty, radixAndStart_octal hrest hdigit]
    exact hparse
  · have hparse := parseDigits_of_digits 10 (by decide) 0 false
      (fun b hb => ⟨(isAsciiDigit_eq b).trans (hdigits b hb), digit_lt_ten (hdigits b hb)⟩)
      hsmall (Or.inl hne)
    refine Or.inr ⟨hoctal, ?_⟩
    rw [parseLiteralInteger, if_neg hempty, radixAndStart_decimal hdigits hoctal]
    exact hparse

/-- The key of an integer is its value unless octal digits are misread. -/
theorem resolve_iff {p : ArrayKey} (hp : key (.integer l) = some p) :
    (∀ k, resolveLiteralArrayKey l.raw = some k → k = p) ↔ ¬ l.Misread := by
  rw [key] at hp
  obtain ⟨value, hvalue, hp⟩ := Option.bind_eq_some_iff.mp hp
  rw [Option.ite_none_right_eq_some, Option.some.injEq] at hp
  obtain ⟨-, rfl⟩ := hp
  have hne : l.raw ≠ [] := by
    intro hnil
    have hdigit := l.startsWithDigit
    rw [hnil] at hdigit
    cases hdigit
  constructor
  · rintro h ⟨digits, hraw, hrest, hoctal, hge, hmax⟩
    have hdigits : ∀ b ∈ l.raw, isAsciiDigit b = true := by
      rw [hraw]
      intro b hb
      obtain rfl | hb := List.mem_cons.mp hb
      · decide
      · exact isAsciiDigit_of_octal (hoctal b hb)
    have hkey := h _ (l.resolve_eq_some_iff.mpr ⟨hdigits, hmax, rfl⟩)
    rw [ArrayKey.integer.injEq, decimal_eq_numberFrom hdigits] at hkey
    rw [decimal_eq_numberFrom hdigits] at hge
    obtain ⟨digits', hraw', -, hoctal', hparse⟩ | ⟨hnot, -⟩ :=
      parseLiteralInteger_digits hne hdigits hmax
    · rw [hraw, List.cons.injEq] at hraw'
      obtain ⟨-, rfl⟩ := hraw'
      cases Option.some.inj (hvalue.symm.trans hparse)
      have hsmall := (numberFrom_octal fun b hb => octal_lt_eight (hoctal b hb)).2
      rw [hraw, numberFrom_zero_cons] at hkey hge
      omega
    · exact hnot ⟨digits, hraw, hrest, hoctal⟩
  · intro hnot k hk
    obtain ⟨hdigits, hmax, rfl⟩ := l.resolve_eq_some_iff.mp hk
    rw [ArrayKey.integer.injEq, decimal_eq_numberFrom hdigits]
    obtain ⟨digits, hraw, hrest, hoctal, hparse⟩ | ⟨-, hparse⟩ :=
      parseLiteralInteger_digits hne hdigits hmax
    · cases Option.some.inj (hvalue.symm.trans hparse)
      have hsmall := (numberFrom_octal fun b hb => octal_lt_eight (hoctal b hb)).2
      have hlt : ¬ 8 ≤ decimal l.raw := fun hge => hnot ⟨digits, hraw, hrest, hoctal, hge, hmax⟩
      rw [decimal_eq_numberFrom hdigits, hraw, numberFrom_zero_cons] at hlt
      rw [hraw, numberFrom_zero_cons]
      omega
    · cases Option.some.inj (hvalue.symm.trans hparse)
      rfl

end LiteralInteger

/-! ## Both -/

/-- What the reconciler reads otherwise than the parser. -/
def Literal.Misread : Literal → Prop
  | .string l => l.Misread
  | .integer l => l.Misread

/-- The resolved key of a literal with a key is this key exactly when nothing is misread. -/
theorem resolveLiteralArrayKey_iff (literal : Literal) {p : ArrayKey} (hp : key literal = some p) :
    (∀ k, resolveLiteralArrayKey (getIndexId literal) = some k → k = p) ↔ ¬ literal.Misread := by
  cases literal with
  | string l => exact l.resolve_iff hp
  | integer l => exact l.resolve_iff hp

/-- `07` is seven in base eight and in base ten. -/
theorem resolveLiteralArrayKey_iff_octal :
    resolveLiteralArrayKey [0x30, 0x37] = some (.integer 7) ∧
    ((∀ k, resolveLiteralArrayKey [0x30, 0x37] = some k → k = .integer 7) ↔
      ¬ (Literal.integer ⟨[0x30, 0x37], by decide⟩).Misread) :=
  ⟨by decide, resolveLiteralArrayKey_iff (.integer ⟨[0x30, 0x37], by decide⟩) (by decide)⟩

/-- `010` is eight, and `"\\n"` a line feed. -/
theorem resolveLiteralArrayKey_misread :
    (∃ l : LiteralInteger, l.raw = [0x30, 0x31, 0x30] ∧
      key (.integer l) = some (.integer 8) ∧
      resolveLiteralArrayKey (getIndexId (.integer l)) = some (.integer 10)) ∧
    ∃ l : LiteralString, l.raw = [0x22, 0x5C, 0x6E, 0x22] ∧
      key (.string l) = some (.string [0x0A]) ∧
      resolveLiteralArrayKey (getIndexId (.string l)) = some (.string [0x5C, 0x6E]) := by
  refine ⟨⟨⟨[0x30, 0x31, 0x30], by decide⟩, rfl, by decide, by decide⟩,
    ⟨⟨none, doubleQuote, [0x5C, 0x6E], by simp, Or.inr rfl⟩, rfl, ?_, by decide⟩⟩
  have hescape : escape (some doubleQuote) 0x6E [] = some ([0x0A], 0) := by decide
  have hvalue : decodeEscapes (some doubleQuote) [0x5C, 0x6E] = some [0x0A] := by
    change decodeEscapes (some doubleQuote) [backslash, 0x6E] = some [0x0A]
    rw [decodeEscapes_escape, hescape, Option.bind_some, List.drop_nil, decodeEscapes_nil]
    rfl
  rw [key, LiteralString.parseLiteralString_raw, LiteralString.value, if_neg (by decide), hvalue]
  decide

end Mago.Types.LiteralKey
