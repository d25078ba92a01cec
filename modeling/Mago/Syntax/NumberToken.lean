import Mago.Syntax.IntegerLiteral

/-!
# Number tokens

How far the lexer reads a number, and whether it takes it for an integer. What it takes for an
integer is the spelling of one, which the decoder gives the number of.
-/
namespace Mago.Syntax.Literal

inductive NumberTokenKind
  | literalInteger
  | literalFloat
  | offsetNumber
  deriving DecidableEq, Repr

inductive NumberKind
  | integer
  | octalOrFloat
  | float
  | integerOrFloat
  deriving DecidableEq, Repr

/-- A zero, a mark of a base in one of its cases and a digit of the base. -/
def startsWithMark (lower upper : Char) (isDigit : UInt8 → Bool) : List UInt8 → Bool
  | [zero, mark, digit] =>
    zero == byte '0' && (mark == byte lower || mark == byte upper) && isDigit digit
  | _ => false

def startOfBinaryNumber : List UInt8 → Bool := startsWithMark 'b' 'B' (inRange '0' '1')

def startOfOctalNumber : List UInt8 → Bool := startsWithMark 'o' 'O' (inRange '0' '7')

def startOfHexadecimalNumber : List UInt8 → Bool := startsWithMark 'x' 'X' isAsciiHexdigit

/-- The length read so far, the base and the kind, from the first three bytes. -/
def startOfNumber (front : List UInt8) : ℕ × ℕ × NumberKind :=
  if startOfBinaryNumber front then (2, 2, .integer)
  else if startOfOctalNumber front then (2, 8, .integer)
  else if startOfHexadecimalNumber front then (2, 16, .integer)
  else if front.head? = some (byte '0') then (1, 10, .octalOrFloat)
  else if front.head? = some (byte '.') then (1, 10, .float)
  else (1, 10, .integerOrFloat)

def isExponentMark (b : UInt8) : Bool := b == byte 'e' || b == byte 'E'

def isNumberSign (b : UInt8) : Bool := b == byte '-' || b == byte '+'

def floatSeparator : List UInt8 → Bool
  | [] => false
  | first :: rest =>
    first == byte '.' ||
      isExponentMark first &&
        match rest with
        | [sign, digit] => isNumberSign sign && isAsciiDigit digit || isAsciiDigit sign
        | [digit] => isAsciiDigit digit
        | _ => false

/-- The end of the fraction that may follow. -/
def fractionLength (remaining : List UInt8) (length : ℕ) : ℕ :=
  if remaining[length]? = some (byte '.') then
    length + 1 + readDigitsOfBase 10 (remaining.drop (length + 1))
  else length

/-- The end of the exponent that may follow, which has digits. -/
def exponentLength (remaining : List UInt8) (length : ℕ) : ℕ :=
  if remaining[length]?.any isExponentMark then
    let start := if remaining[length + 1]?.any isNumberSign then length + 2 else length + 1
    let digits := readDigitsOfBase 10 (remaining.drop start)
    if 0 < digits then start + digits else length
  else length

def isEightOrNine (b : UInt8) : Bool := b == byte '8' || b == byte '9'

/-- The number at the front of the bytes, or the index of a digit that it must not have. -/
def lexNumber (remaining : List UInt8) : Except ℕ (NumberTokenKind × ℕ) :=
  let start := startOfNumber (remaining.take 3)
  let length :=
    if start.2.2 ≠ .float then
      start.1 + readDigitsOfBase start.2.1 (remaining.drop start.1)
    else start.1
  if start.2.2 = .integer then .ok (.literalInteger, length)
  else if !floatSeparator ((remaining.drop length).take 3) then
    if start.2.2 = .octalOrFloat then
      match (List.range' 1 (length - 1)).find? fun i => remaining[i]?.any isEightOrNine with
      | some invalid => .error invalid
      | none => .ok (.literalInteger, length)
    else .ok (.literalInteger, length)
  else .ok (.literalFloat, exponentLength remaining (fractionLength remaining length))

/-- A number in the offset of an interpolated variable. -/
def offsetNumberLength (remaining : List UInt8) : ℕ :=
  match remaining with
  | zero :: mark :: _ =>
    if zero = byte '0' ∧ (mark = byte 'x' ∨ mark = byte 'X') then
      2 + readDigitsOfBase 16 (remaining.drop 2)
    else if zero = byte '0' ∧ (mark = byte 'b' ∨ mark = byte 'B') then
      2 + readDigitsOfBase 2 (remaining.drop 2)
    else if zero = byte '0' ∧ (mark = byte 'o' ∨ mark = byte 'O') then
      2 + readDigitsOfBase 8 (remaining.drop 2)
    else 1 + readDigitsOfBase 10 (remaining.drop 1)
  | _ => 1 + readDigitsOfBase 10 (remaining.drop 1)

/-- The branches of the script mode for numbers; none where none of them is taken. -/
def lexNumberBranches (varOffsetDepth : ℕ) (remaining : List UInt8) :
    Option (Except ℕ (NumberTokenKind × ℕ)) :=
  match remaining with
  | [] => none
  | first :: rest =>
    if isAsciiDigit first then
      if 0 < varOffsetDepth then some (.ok (.offsetNumber, offsetNumberLength remaining))
      else some (lexNumber remaining)
    else if first = byte '.' ∧ rest.head?.any isAsciiDigit = true ∧ varOffsetDepth = 0 then
      some (.ok (.literalFloat,
        exponentLength remaining (2 + readDigitsOfBase 10 (remaining.drop 2))))
    else none

/-! ## Digits that are read -/

section Digits

variable {isDigit : UInt8 → Bool} {radix : ℕ} {bytes : List UInt8}

/-- A run of digits has them and separators, and a digit unless it is empty. -/
theorem readDigitsWith_spec (hdigit : ∀ b, isDigit b = true → IsDigitOf radix b)
    (bytes : List UInt8) :
    (∀ b ∈ bytes.take (readDigitsWith isDigit bytes), b = separator ∨ IsDigitOf radix b) ∧
      (0 < readDigitsWith isDigit bytes →
        ∃ b ∈ bytes.take (readDigitsWith isDigit bytes), b ≠ separator) := by
  have hne : ∀ b, isDigit b = true → b ≠ separator := by
    rintro b hb rfl
    obtain ⟨d, -, hd⟩ := hdigit _ hb
    rw [hexDigit_separator] at hd
    cases hd
  induction bytes using readDigitsWith.induct isDigit with
  | case1 => simp [readDigitsWith]
  | case2 b rest hb ih =>
    rw [readDigitsWith.eq_def]
    simp only [hb, if_true, List.take_succ_cons]
    refine ⟨?_, fun _ => ⟨b, List.mem_cons_self .., hne b hb⟩⟩
    rw [List.forall_mem_cons]
    exact ⟨.inr (hdigit b hb), ih.1⟩
  | case3 b hb =>
    rw [readDigitsWith.eq_def]
    simp [hb]
  | case4 b hb next rest hsep ih =>
    have hrun : readDigitsWith isDigit (b :: next :: rest) = readDigitsWith isDigit rest + 2 := by
      rw [readDigitsWith.eq_def]
      dsimp only
      rw [if_neg hb, if_pos hsep]
    rw [hrun, List.take_succ_cons, List.take_succ_cons]
    refine ⟨?_, fun _ => ⟨next, by simp, hne next hsep.2⟩⟩
    rw [List.forall_mem_cons, List.forall_mem_cons]
    exact ⟨.inl hsep.1, .inr (hdigit next hsep.2), ih.1⟩
  | case5 b hb next rest hsep =>
    rw [readDigitsWith.eq_def]
    simp [hb, hsep]

theorem isDigitOf_sixteen {b : UInt8} (h : isAsciiHexdigit b = true) : IsDigitOf 16 b := by
  rw [IsDigitOf, hexDigit]
  split
  · next hdigit =>
    have hup : b.toNat ≤ 57 := (of_decide_eq_true hdigit).2
    exact ⟨b.toNat - 0x30, by omega, rfl⟩
  split
  · next hlower =>
    have hup : b.toNat ≤ 102 := (of_decide_eq_true hlower).2
    exact ⟨b.toNat - 0x61 + 10, by omega, rfl⟩
  split
  · next hupper =>
    have hup : b.toNat ≤ 70 := (of_decide_eq_true hupper).2
    exact ⟨b.toNat - 0x41 + 10, by omega, rfl⟩
  · next hdigit hlower hupper =>
    simp [isAsciiHexdigit, hdigit, hlower, hupper] at h

theorem isDigitOf_small {base : ℕ} (hbase : base ≤ 10) {b : UInt8}
    (h : byte '0' ≤ b ∧ b.toNat < (byte '0').toNat + base) : IsDigitOf base b := by
  have hlow : 48 ≤ b.toNat := h.1
  have hup : b.toNat < 48 + base := h.2
  have hdigit : isAsciiDigit b = true := by
    have hnine : b.toNat ≤ 57 := by omega
    exact decide_eq_true ⟨h.1, hnine⟩
  exact ⟨b.toNat - 0x30, by omega, by rw [hexDigit, if_pos hdigit]⟩

/-- What is read in a base are its digits and separators. -/
theorem readDigitsOfBase_spec {base : ℕ} (hbase : base = 16 ∨ base ≤ 10) (bytes : List UInt8) :
    (∀ b ∈ bytes.take (readDigitsOfBase base bytes), b = separator ∨ IsDigitOf base b) ∧
      (0 < readDigitsOfBase base bytes →
        ∃ b ∈ bytes.take (readDigitsOfBase base bytes), b ≠ separator) := by
  rw [readDigitsOfBase]
  split
  · next h =>
    rw [h]
    exact readDigitsWith_spec (fun b => isDigitOf_sixteen) bytes
  · next h =>
    have hsmall : base ≤ 10 := hbase.resolve_left h
    exact readDigitsWith_spec (fun b hb => isDigitOf_small hsmall (of_decide_eq_true hb)) bytes

end Digits

/-! ## Integer tokens -/

/-- Behind a mark stands at least one digit of the base. -/
theorem exists_marked (base : Base) {lower upper : Char} {isDigit : UInt8 → Bool}
    {remaining : List UInt8} (hbase : base.radix = 16 ∨ base.radix ≤ 10)
    (hnot : base ≠ .decimal)
    (hleads : [byte '0', byte lower] ∈ base.leads ∧ [byte '0', byte upper] ∈ base.leads)
    (hdigit : ∀ b rest, isDigit b = true → 0 < readDigitsOfBase base.radix (b :: rest))
    (h : startsWithMark lower upper isDigit (remaining.take 3) = true) :
    ∃ l : IntegerLiteral,
      l.raw = remaining.take (2 + readDigitsOfBase base.radix (remaining.drop 2)) := by
  match remaining, h with
  | zero :: mark :: digit :: rest, h =>
    simp only [List.take_succ_cons, List.take_zero, startsWithMark, Bool.and_eq_true,
      Bool.or_eq_true, beq_iff_eq] at h
    obtain ⟨⟨rfl, hmark⟩, hfirst⟩ := h
    have hlead : [byte '0', mark] ∈ base.leads := by
      rcases hmark with rfl | rfl
      · exact hleads.1
      · exact hleads.2
    obtain ⟨hdigits, hsome⟩ := readDigitsOfBase_spec hbase (digit :: rest)
    refine ⟨⟨base, [byte '0', mark], _, hlead, ⟨hdigits, hsome (hdigit digit rest hfirst)⟩,
      fun heq => absurd heq hnot⟩, ?_⟩
    rw [IntegerLiteral.raw, List.drop_succ_cons, List.drop_succ_cons, List.drop_zero,
      Nat.add_comm]
    rfl

theorem readDigitsWith_pos {isDigit : UInt8 → Bool} {b : UInt8} (h : isDigit b = true)
    (rest : List UInt8) : 0 < readDigitsWith isDigit (b :: rest) := by
  rw [readDigitsWith.eq_def]
  dsimp only
  rw [if_pos h]
  exact Nat.succ_pos _

theorem readDigitsOfBase_pos {base : ℕ} (hbase : base ≠ 16) {upper : Char}
    (hupper : (byte upper).toNat < 48 + base) {b : UInt8} (h : inRange '0' upper b = true)
    (rest : List UInt8) : 0 < readDigitsOfBase base (b :: rest) := by
  obtain ⟨hlow, hup⟩ := of_decide_eq_true h
  have hle : b.toNat ≤ (byte upper).toNat := hup
  have hzero : (byte '0').toNat = 48 := rfl
  rw [readDigitsOfBase, if_neg hbase]
  exact readDigitsWith_pos (decide_eq_true ⟨hlow, by omega⟩) rest

theorem isDigitOf_eight {b : UInt8} (h : IsDigitOf 10 b) (hnot : isEightOrNine b = false) :
    IsDigitOf 8 b := by
  obtain ⟨d, hless, hd⟩ := h
  refine ⟨d, ?_, hd⟩
  simp only [isEightOrNine, Bool.or_eq_false_iff, beq_eq_false_iff_ne, ne_eq,
    ← UInt8.toNat_inj] at hnot
  obtain ⟨height, hnine⟩ := hnot
  have height : b.toNat ≠ 56 := height
  have hnine : b.toNat ≠ 57 := hnine
  simp only [hexDigit] at hd
  split at hd
  · cases hd
    omega
  split at hd
  · cases hd
    omega
  split at hd
  · cases hd
    omega
  · cases hd

/-- A decimal number, or a zero before octal digits. -/
theorem exists_unmarked {first : UInt8} {rest : List UInt8} (hfirst : isAsciiDigit first = true)
    (hoctal : first = byte '0' → ∀ b ∈ rest.take (readDigitsOfBase 10 rest),
      isEightOrNine b = false) :
    ∃ l : IntegerLiteral, l.raw = (first :: rest).take (1 + readDigitsOfBase 10 rest) := by
  obtain ⟨hdigits, hsome⟩ := readDigitsOfBase_spec (.inr le_rfl) rest
  rw [Nat.add_comm, List.take_succ_cons]
  generalize hbody : rest.take (readDigitsOfBase 10 rest) = body at hdigits hsome hoctal ⊢
  have hbodyTen : IsBody 10 (first :: body) := by
    refine ⟨?_, first, List.mem_cons_self .., ?_⟩
    · rw [List.forall_mem_cons]
      exact ⟨.inr (isDigitOf_ten hfirst), hdigits⟩
    · rintro rfl
      exact absurd hfirst (by decide)
  by_cases hzero : first = byte '0'
  · cases hempty : body with
    | nil =>
      refine ⟨⟨.decimal, [], [first], by simp [Base.leads], hempty ▸ hbodyTen, fun _ => ?_⟩, rfl⟩
      rintro ⟨tail, heq, hne, -⟩
      exact hne (List.cons.inj heq).2.symm
    | cons second tail =>
      have hdigitsEight : ∀ b ∈ body, b = separator ∨ IsDigitOf 8 b := by
        intro b hb
        exact (hdigits b hb).imp_right fun h => isDigitOf_eight h (hoctal hzero b hb)
      have hpositive : 0 < readDigitsOfBase 10 rest := by
        by_contra hnone
        have hnil : body = [] := by
          rw [← hbody, Nat.eq_zero_of_not_pos hnone, List.take_zero]
        rw [hnil] at hempty
        cases hempty
      refine ⟨⟨.legacyOctal, [byte '0'], body, by simp [Base.leads, byteString],
        ⟨hdigitsEight, hsome hpositive⟩, fun h => by cases h⟩, ?_⟩
      rw [hzero, ← hempty]
      rfl
  · refine ⟨⟨.decimal, [], first :: body, by simp [Base.leads], hbodyTen, fun _ => ?_⟩, rfl⟩
    rintro ⟨tail, heq, -⟩
    exact hzero (List.cons.inj heq).1

theorem exists_of_find_eq_none {remaining : List UInt8} {length : ℕ}
    (h : ((List.range' 1 (length - 1)).find? fun i => remaining[i]?.any isEightOrNine) = none) :
    ∀ b ∈ (remaining.take length).tail, isEightOrNine b = false := by
  rw [List.find?_eq_none] at h
  intro b hb
  obtain ⟨i, hi⟩ := List.mem_iff_getElem?.mp hb
  rw [List.getElem?_tail] at hi
  have hbound := (List.getElem?_eq_some_iff.mp hi).1
  rw [List.length_take] at hbound
  rw [List.getElem?_take_of_lt (by omega)] at hi
  have hrange : i + 1 ∈ List.range' 1 (length - 1) := by
    rw [List.mem_range'_1]
    omega
  have hnot := h (i + 1) hrange
  rw [hi] at hnot
  simpa using hnot

/-- What the lexer takes for an integer is the spelling of one. -/
theorem lexNumber_integer {first : UInt8} {rest : List UInt8} (hfirst : isAsciiDigit first = true)
    {length : ℕ} (h : lexNumber (first :: rest) = .ok (.literalInteger, length)) :
    ∃ l : IntegerLiteral, l.raw = (first :: rest).take length := by
  rw [lexNumber, startOfNumber] at h
  by_cases hbinary : startOfBinaryNumber ((first :: rest).take 3) = true
  · rw [if_pos hbinary] at h
    obtain ⟨-, rfl⟩ := Prod.mk.inj (Except.ok.inj h)
    refine exists_marked .binary (.inr (by decide)) (by decide) (by decide) ?_ hbinary
    intro b rest hb
    exact readDigitsOfBase_pos (by decide) (by decide) hb rest
  rw [if_neg hbinary] at h
  by_cases hoctal : startOfOctalNumber ((first :: rest).take 3) = true
  · rw [if_pos hoctal] at h
    obtain ⟨-, rfl⟩ := Prod.mk.inj (Except.ok.inj h)
    refine exists_marked .octal (.inr (by decide)) (by decide) (by decide) ?_ hoctal
    intro b rest hb
    exact readDigitsOfBase_pos (by decide) (by decide) hb rest
  rw [if_neg hoctal] at h
  by_cases hhexadecimal : startOfHexadecimalNumber ((first :: rest).take 3) = true
  · rw [if_pos hhexadecimal] at h
    obtain ⟨-, rfl⟩ := Prod.mk.inj (Except.ok.inj h)
    refine exists_marked .hexadecimal (.inl rfl) (by decide) (by decide) ?_ hhexadecimal
    intro b rest hb
    exact readDigitsWith_pos hb rest
  rw [if_neg hhexadecimal] at h
  have hpoint : ¬((first :: rest).take 3).head? = some (byte '.') := by
    rw [List.take_succ_cons, List.head?_cons, Option.some.injEq]
    rintro rfl
    exact absurd hfirst (by decide)
  by_cases hzero : ((first :: rest).take 3).head? = some (byte '0')
  · rw [if_pos hzero] at h
    dsimp only at h
    have hinteger : NumberKind.octalOrFloat ≠ .integer := by decide
    have hfloat : NumberKind.octalOrFloat ≠ .float := by decide
    rw [if_neg hinteger, if_pos hfloat] at h
    split at h
    · rw [if_pos rfl] at h
      split at h
      · cases h
      · next hfind =>
        obtain ⟨-, rfl⟩ := Prod.mk.inj (Except.ok.inj h)
        have hnone := exists_of_find_eq_none hfind
        rw [Nat.add_comm 1, List.take_succ_cons, List.tail_cons] at hnone
        exact exists_unmarked hfirst fun _ => hnone
    · cases h
  · rw [if_neg hzero, if_neg hpoint] at h
    dsimp only at h
    have hinteger : NumberKind.integerOrFloat ≠ .integer := by decide
    have hfloat : NumberKind.integerOrFloat ≠ .float := by decide
    rw [if_neg hinteger, if_pos hfloat] at h
    split at h
    · rw [if_neg (by decide)] at h
      obtain ⟨-, rfl⟩ := Prod.mk.inj (Except.ok.inj h)
      refine exists_unmarked hfirst fun heq => absurd ?_ hzero
      rw [heq]
      rfl
    · cases h

theorem consume_eq_take (input : Input) (length : ℕ) :
    (input.consume length).1 = input.readRemaining.take length := by
  have hle := input.offset_le
  rw [Input.consume, Library.slice, Input.readRemaining, Input.skip]
  dsimp only
  rw [List.take_eq_take_iff, List.length_drop, Input.length]
  omega

/-- The decoder gives every integer token the number that its digits denote, up to the largest
unsigned one. -/
theorem parseLiteralInteger_token (varOffsetDepth : ℕ) (input : Input) (length : ℕ)
    (h : lexNumberBranches varOffsetDepth input.readRemaining =
      some (.ok (.literalInteger, length))) :
    ∃ l : IntegerLiteral, l.raw = (input.consume length).1 ∧
      parseLiteralInteger (input.consume length).1 = some (min l.value u64Max) := by
  rw [consume_eq_take]
  generalize input.readRemaining = remaining at h
  cases remaining with
  | nil => cases h
  | cons first rest =>
    rw [lexNumberBranches] at h
    split at h
    · next hfirst =>
      split at h
      · cases h
      · obtain ⟨l, hl⟩ := lexNumber_integer hfirst (Option.some.inj h)
        exact ⟨l, hl, hl ▸ l.parseLiteralInteger_raw⟩
    · split at h
      · cases h
      · cases h

theorem parseLiteralInteger_token_hexadecimal :
    ∃ l : IntegerLiteral, l.raw = ((Input.new (byteString "0xF_f;")).consume 5).1 ∧
      parseLiteralInteger ((Input.new (byteString "0xF_f;")).consume 5).1 =
        some (min l.value u64Max) :=
  parseLiteralInteger_token 0 (Input.new (byteString "0xF_f;")) 5 (by decide)

end Mago.Syntax.Literal
