import Mago.Syntax.Input

/-!
# Literals

The values the parser gives to string and integer literals. What a double-quoted string makes of
its escapes is shorter than its text exactly where there is one that it knows.
-/
namespace Mago.Syntax.Literal

def backslash : UInt8 := 0x5C

def singleQuote : UInt8 := 0x27

def doubleQuote : UInt8 := 0x22

def u64Max : ℕ := 2 ^ 64 - 1

def hexDigit (c : UInt8) : Option ℕ :=
  if isAsciiDigit c then some (c.toNat - 0x30)
  else if inRange 'a' 'f' c then some (c.toNat - 0x61 + 10)
  else if inRange 'A' 'F' c then some (c.toNat - 0x41 + 10)
  else none

def octalDigit (d : UInt8) : Option ℕ := if inRange '0' '7' d then some (d.toNat - 0x30) else none

/-- The digits up to the first byte that is none. -/
def leadingDigits (digit : UInt8 → Option ℕ) : List UInt8 → List ℕ
  | [] => []
  | b :: rest =>
    match digit b with
    | some d => d :: leadingDigits digit rest
    | none => []

def valueOf (radix : ℕ) (digits : List ℕ) : ℕ :=
  digits.foldl (fun value digit => value * radix + digit) 0

/-! ## Strings -/

def encodeCodePoint (codePoint : ℕ) : List UInt8 :=
  if codePoint ≤ 0x7F then [.ofNat codePoint]
  else if codePoint ≤ 0x7FF then
    [0xC0 ||| .ofNat (codePoint >>> 6), 0x80 ||| .ofNat (codePoint &&& 0x3F)]
  else if codePoint ≤ 0xFFFF then
    [0xE0 ||| .ofNat (codePoint >>> 12), 0x80 ||| .ofNat ((codePoint >>> 6) &&& 0x3F),
      0x80 ||| .ofNat (codePoint &&& 0x3F)]
  else
    [0xF0 ||| .ofNat (codePoint >>> 18), 0x80 ||| .ofNat ((codePoint >>> 12) &&& 0x3F),
      0x80 ||| .ofNat ((codePoint >>> 6) &&& 0x3F), 0x80 ||| .ofNat (codePoint &&& 0x3F)]

def simpleEscape (next : UInt8) : Option UInt8 :=
  if next = doubleQuote then some doubleQuote
  else if next = byte '$' then some (byte '$')
  else if next = byte 'n' then some 0x0A
  else if next = byte 't' then some 0x09
  else if next = byte 'r' then some 0x0D
  else if next = byte 'v' then some 0x0B
  else if next = byte 'e' then some 0x1B
  else if next = byte 'f' then some 0x0C
  else none

/-- The bytes for an escape and how many bytes behind the escaped one it takes. An invalid code
point has none; a number too large for its variable is too large for a code point. -/
def doubleQuotedEscape (next : UInt8) (behind : List UInt8) : Option (List UInt8 × ℕ) :=
  match simpleEscape next with
  | some escaped => some ([escaped], 0)
  | none =>
    if next = byte 'x' then
      let digits := leadingDigits hexDigit (behind.take 2)
      if digits ≠ [] then some ([.ofNat (valueOf 16 digits)], digits.length)
      else some ([backslash, next], 0)
    else if next = byte 'u' ∧ behind.head? = some (byte '\x7b') then
      let digits := leadingDigits hexDigit behind.tail
      let codePoint := valueOf 16 digits
      if digits ≠ [] ∧ behind[1 + digits.length]? = some (byte '\x7d') ∧ codePoint ≤ 0x10FFFF then
        some (encodeCodePoint codePoint, 2 + digits.length)
      else none
    else if isAsciiDigit next then
      let digits := leadingDigits octalDigit ((next :: behind).take 3)
      if digits ≠ [] then some ([.ofNat (valueOf 8 digits)], digits.length - 1)
      else some ([backslash, next], 0)
    else some ([backslash, next], 0)

def escape (quoteChar : Option UInt8) (next : UInt8) (behind : List UInt8) :
    Option (List UInt8 × ℕ) :=
  if next = backslash then some ([backslash], 0)
  else if next = singleQuote ∧ quoteChar = some singleQuote then some ([singleQuote], 0)
  else if quoteChar = some doubleQuote then doubleQuotedEscape next behind
  else some ([backslash, next], 0)

def decodeEscapes (quoteChar : Option UInt8) (content : List UInt8) : Option (List UInt8) :=
  match content with
  | [] => some []
  | b :: rest =>
    if b ≠ backslash then (decodeEscapes quoteChar rest).map (b :: ·)
    else
      match rest with
      | [] => some [backslash]
      | next :: behind =>
        (escape quoteChar next behind).bind fun e =>
          (decodeEscapes quoteChar (behind.drop e.2)).map (e.1 ++ ·)
termination_by content.length
decreasing_by
  · simp
  · simp only [List.length_drop, List.length_cons]
    omega

def startsQuoted (s : List UInt8) : Bool :=
  match s with
  | b :: q :: _ => (b == byte 'b' || b == byte 'B') && (q == doubleQuote || q == singleQuote)
  | _ => false

/-- The content between two quotes of a kind. -/
def between (q : UInt8) (s : List UInt8) : Option (List UInt8) :=
  if s.head? = some q ∧ s.getLast? = some q ∧ 2 ≤ s.length then
    some ((s.drop 1).take (s.length - 2))
  else none

def parseLiteralString (s : List UInt8) (quoteChar : Option UInt8) (hasQuote : Bool) :
    Option (List UInt8) :=
  if s.isEmpty then some []
  else
    let s := if hasQuote && startsQuoted s then s.tail else s
    let quoted : Option (Option UInt8 × List UInt8) :=
      match quoteChar with
      | some quoteChar => some (some quoteChar, s)
      | none =>
        if !hasQuote then some (none, s)
        else
          match between doubleQuote s, between singleQuote s with
          | some content, _ => some (some doubleQuote, content)
          | none, some content => some (some singleQuote, content)
          | none, none => none
    quoted.bind fun q =>
      if backslash ∉ q.2 then some q.2 else decodeEscapes q.1 q.2

/-! ## Integers -/

/-- A number beyond 128 bits is the largest one already. -/
def parseDigits (radix : ℕ) : List UInt8 → (result : ℕ) → (hasDigits : Bool) → Option ℕ
  | [], result, hasDigits => if hasDigits then some (min result u64Max) else none
  | b :: rest, result, hasDigits =>
    if b = byte '_' then parseDigits radix rest result hasDigits
    else
      match hexDigit b with
      | none => none
      | some digit =>
        if radix ≤ digit then none
        else if 2 ^ 128 ≤ result * radix then some u64Max
        else if 2 ^ 128 ≤ result * radix + digit then some u64Max
        else parseDigits radix rest (result * radix + digit) true

def radixAndStart (bytes : List UInt8) : ℕ × ℕ :=
  match bytes with
  | first :: second :: rest =>
    if first = byte '0' then
      if second = byte 'x' ∨ second = byte 'X' then (16, 2)
      else if second = byte 'o' ∨ second = byte 'O' then (8, 2)
      else if second = byte 'b' ∨ second = byte 'B' then (2, 2)
      else if (second :: rest).all fun b => b == byte '_' || inRange '0' '7' b then (8, 1)
      else (10, 0)
    else (10, 0)
  | _ => (10, 0)

def parseLiteralInteger (bytes : List UInt8) : Option ℕ :=
  if bytes.isEmpty then none
  else
    let start := radixAndStart bytes
    parseDigits start.1 (bytes.drop start.2) 0 false

/-! ## Escapes -/

theorem decodeEscapes_nil (quoteChar : Option UInt8) : decodeEscapes quoteChar [] = some [] := by
  simp [decodeEscapes]

theorem decodeEscapes_cons {quoteChar : Option UInt8} {b : UInt8} (h : b ≠ backslash)
    (rest : List UInt8) :
    decodeEscapes quoteChar (b :: rest) = (decodeEscapes quoteChar rest).map (b :: ·) := by
  rw [decodeEscapes.eq_def]
  exact if_pos h

theorem decodeEscapes_end (quoteChar : Option UInt8) :
    decodeEscapes quoteChar [backslash] = some [backslash] := by
  rw [decodeEscapes, if_neg (not_not.mpr rfl)]

theorem decodeEscapes_escape (quoteChar : Option UInt8) (next : UInt8) (behind : List UInt8) :
    decodeEscapes quoteChar (backslash :: next :: behind) =
      (escape quoteChar next behind).bind fun e =>
        (decodeEscapes quoteChar (behind.drop e.2)).map (e.1 ++ ·) := by
  rw [decodeEscapes, if_neg (not_not.mpr rfl)]

/-- A byte and what follows it that double quotes read as an escape. -/
def IsEscape (next : UInt8) (behind : List UInt8) : Prop :=
  next = backslash ∨ simpleEscape next ≠ none ∨
    (next = byte 'x' ∧ behind.head?.bind hexDigit ≠ none) ∨
    (next = byte 'u' ∧ behind.head? = some (byte '\x7b')) ∨ octalDigit next ≠ none

instance (next : UInt8) (behind : List UInt8) : Decidable (IsEscape next behind) := by
  unfold IsEscape
  infer_instance

/-- A text with an escape somewhere behind a backslash. -/
def HasEscape (content : List UInt8) : Prop :=
  ∃ before next behind, content = before ++ backslash :: next :: behind ∧ IsEscape next behind

theorem length_leadingDigits_le (digit : UInt8 → Option ℕ) (bytes : List UInt8) :
    (leadingDigits digit bytes).length ≤ bytes.length := by
  induction bytes with
  | nil => exact le_rfl
  | cons b rest ih =>
    unfold leadingDigits
    split
    · simpa using ih
    · exact Nat.zero_le _

theorem leadingDigits_cons_eq_nil {digit : UInt8 → Option ℕ} {b : UInt8} {rest : List UInt8} :
    leadingDigits digit (b :: rest) = [] ↔ digit b = none := by
  rw [leadingDigits]
  cases digit b with
  | none => simp
  | some d => simp

theorem length_encodeCodePoint_le (codePoint : ℕ) : (encodeCodePoint codePoint).length ≤ 4 := by
  unfold encodeCodePoint
  split
  · simp
  · split
    · simp
    · split
      · simp
      · simp

theorem doubleQuotedEscape_of_not_isEscape {next : UInt8} {behind : List UInt8}
    (h : ¬ IsEscape next behind) :
    doubleQuotedEscape next behind = some ([backslash, next], 0) := by
  simp only [IsEscape, not_or, not_and, not_not] at h
  obtain ⟨-, hsimple, hhex, hcode, hoctal⟩ := h
  unfold doubleQuotedEscape
  rw [hsimple]
  simp only []
  by_cases hx : next = byte 'x'
  · have hnone : leadingDigits hexDigit (behind.take 2) = [] := by
      cases behind with
      | nil => rfl
      | cons b rest => exact leadingDigits_cons_eq_nil.mpr (hhex hx)
    rw [if_pos hx, if_neg (not_not.mpr hnone)]
  · rw [if_neg hx, if_neg (not_and.mpr hcode)]
    by_cases hdigit : isAsciiDigit next = true
    · have hnone : leadingDigits octalDigit ((next :: behind).take 3) = [] :=
        leadingDigits_cons_eq_nil.mpr hoctal
      rw [if_pos hdigit, if_neg (not_not.mpr hnone)]
    · rw [if_neg hdigit]

theorem escape_of_not_isEscape {next : UInt8} {behind : List UInt8} (h : ¬ IsEscape next behind) :
    escape (some doubleQuote) next behind = some ([backslash, next], 0) := by
  have hnext : next ≠ backslash := fun heq => h (Or.inl heq)
  have hquote : ¬ (next = singleQuote ∧ some doubleQuote = some singleQuote) := by
    rintro ⟨-, hquote⟩
    exact absurd hquote (by decide)
  rw [escape, if_neg hnext, if_neg hquote, if_pos rfl, doubleQuotedEscape_of_not_isEscape h]

theorem length_doubleQuotedEscape_lt {next : UInt8} {behind : List UInt8} {e : List UInt8 × ℕ}
    (hnext : next ≠ backslash) (h : IsEscape next behind)
    (he : doubleQuotedEscape next behind = some e) :
    e.1.length < 2 + e.2 ∧ e.2 ≤ behind.length := by
  unfold doubleQuotedEscape at he
  cases hsimple : simpleEscape next with
  | some escaped =>
    rw [hsimple] at he
    cases he
    simp
  | none =>
    rw [hsimple] at he
    simp only [] at he
    by_cases hx : next = byte 'x'
    · rw [if_pos hx] at he
      have hle := length_leadingDigits_le hexDigit (behind.take 2)
      rw [List.length_take] at hle
      by_cases hdigits : leadingDigits hexDigit (behind.take 2) = []
      · exfalso
        subst hx
        obtain h | h | ⟨-, h⟩ | ⟨h, -⟩ | h := h
        · exact hnext h
        · exact h hsimple
        · cases behind with
          | nil => exact h rfl
          | cons b rest => exact h (leadingDigits_cons_eq_nil.mp hdigits)
        · exact absurd h (by decide)
        · exact absurd h (by decide)
      · rw [if_pos hdigits] at he
        cases he
        simp only [List.length_singleton]
        omega
    · rw [if_neg hx] at he
      by_cases hu : next = byte 'u' ∧ behind.head? = some (byte '\x7b')
      · rw [if_pos hu, Option.ite_none_right_eq_some] at he
        obtain ⟨⟨hdigits, hclose, -⟩, he⟩ := he
        cases he
        have hpos := List.length_pos_iff.mpr hdigits
        have hle := length_encodeCodePoint_le (valueOf 16 (leadingDigits hexDigit behind.tail))
        have hlt := (List.getElem?_eq_some_iff.mp hclose).1
        simp only []
        omega
      · rw [if_neg hu] at he
        have hdigit : octalDigit next ≠ none := by
          obtain h | h | ⟨h, -⟩ | h | h := h
          · exact absurd h hnext
          · exact absurd hsimple h
          · exact absurd h hx
          · exact absurd h hu
          · exact h
        have hascii : isAsciiDigit next = true := by
          simp only [octalDigit, inRange, decide_eq_true_eq, ne_eq, ite_eq_right_iff, reduceCtorEq,
            imp_false, not_not] at hdigit
          simp only [isAsciiDigit, inRange, decide_eq_true_eq]
          have hseven : byte '7' ≤ byte '9' := by decide
          exact ⟨hdigit.1, UInt8.le_trans hdigit.2 hseven⟩
        have hdigits : leadingDigits octalDigit ((next :: behind).take 3) ≠ [] :=
          fun hnone => hdigit (leadingDigits_cons_eq_nil.mp hnone)
        rw [if_pos hascii, if_pos hdigits] at he
        cases he
        have hle := length_leadingDigits_le octalDigit ((next :: behind).take 3)
        rw [List.length_take, List.length_cons] at hle
        simp only [List.length_singleton]
        omega

/-- An escape stands for fewer bytes than it has. -/
theorem length_escape_lt {next : UInt8} {behind : List UInt8} {e : List UInt8 × ℕ}
    (h : IsEscape next behind) (he : escape (some doubleQuote) next behind = some e) :
    e.1.length < 2 + e.2 ∧ e.2 ≤ behind.length := by
  have hquote : ¬ (next = singleQuote ∧ some doubleQuote = some singleQuote) := by
    rintro ⟨-, hquote⟩
    exact absurd hquote (by decide)
  unfold escape at he
  by_cases hnext : next = backslash
  · rw [if_pos hnext] at he
    cases he
    simp
  · rw [if_neg hnext, if_neg hquote, if_pos rfl] at he
    exact length_doubleQuotedEscape_lt hnext h he

theorem HasEscape.of_cons {b : UInt8} {rest : List UInt8} (h : HasEscape (b :: rest))
    (hb : b ≠ backslash) : HasEscape rest := by
  obtain ⟨before, next, behind, heq, hescape⟩ := h
  cases before with
  | nil =>
    cases heq
    exact absurd rfl hb
  | cons c before =>
    cases heq
    exact ⟨before, next, behind, rfl, hescape⟩

/-- Behind a backslash and a byte that are no escape. -/
theorem HasEscape.of_not_isEscape {next : UInt8} {behind : List UInt8}
    (h : HasEscape (backslash :: next :: behind)) (hnext : ¬ IsEscape next behind) :
    HasEscape behind := by
  obtain ⟨before, next', behind', heq, hescape⟩ := h
  match before with
  | [] =>
    cases heq
    exact absurd hescape hnext
  | [c] =>
    cases heq
    exact absurd (Or.inl rfl) hnext
  | c :: c' :: before =>
    cases heq
    exact ⟨before, next', behind', rfl, hescape⟩

/-- Double quotes shorten a text, by an escape at least. -/
theorem length_decodeEscapes {content decoded : List UInt8}
    (h : decodeEscapes (some doubleQuote) content = some decoded) :
    decoded.length ≤ content.length ∧ (HasEscape content → decoded.length < content.length) := by
  induction hn : content.length using Nat.strong_induction_on generalizing content decoded with
  | _ n ih =>
    subst hn
    match content with
    | [] =>
      rw [decodeEscapes_nil] at h
      cases h
      refine ⟨le_rfl, ?_⟩
      rintro ⟨before, next, behind, heq, -⟩
      exact absurd heq (by simp)
    | b :: rest =>
      by_cases hb : b = backslash
      · subst hb
        match rest with
        | [] =>
          rw [decodeEscapes_end] at h
          cases h
          refine ⟨le_rfl, ?_⟩
          rintro ⟨before, next, behind, heq, -⟩
          have hlen := congrArg List.length heq
          simp at hlen
          omega
        | next :: behind =>
          rw [decodeEscapes_escape] at h
          obtain ⟨e, he, h⟩ := Option.bind_eq_some_iff.mp h
          obtain ⟨tail, htail, rfl⟩ := Option.map_eq_some_iff.mp h
          have hlt : (behind.drop e.2).length < (backslash :: next :: behind).length := by
            simp only [List.length_drop, List.length_cons]
            omega
          obtain ⟨hle, hstrict⟩ := ih _ hlt htail rfl
          simp only [List.length_append, List.length_drop, List.length_cons] at hle ⊢
          by_cases hescape : IsEscape next behind
          · obtain ⟨hless, hfits⟩ := length_escape_lt hescape he
            omega
          · rw [escape_of_not_isEscape hescape] at he
            cases he
            simp only [List.drop_zero, List.length_cons, List.length_nil] at hle hstrict ⊢
            refine ⟨by omega, fun hhas => ?_⟩
            have := hstrict (hhas.of_not_isEscape hescape)
            omega
      · rw [decodeEscapes_cons hb] at h
        obtain ⟨tail, htail, rfl⟩ := Option.map_eq_some_iff.mp h
        obtain ⟨hle, hstrict⟩ := ih rest.length (by simp) htail rfl
        simp only [List.length_cons]
        refine ⟨by omega, fun hhas => ?_⟩
        have := hstrict (hhas.of_cons hb)
        omega

/-- A text without escapes is kept. -/
theorem decodeEscapes_of_not_hasEscape {content : List UInt8} (h : ¬ HasEscape content) :
    decodeEscapes (some doubleQuote) content = some content := by
  induction hn : content.length using Nat.strong_induction_on generalizing content with
  | _ n ih =>
    subst hn
    match content with
    | [] => exact decodeEscapes_nil _
    | b :: rest =>
      by_cases hb : b = backslash
      · subst hb
        match rest with
        | [] => exact decodeEscapes_end _
        | next :: behind =>
          have hescape : ¬ IsEscape next behind := fun he => h ⟨[], next, behind, rfl, he⟩
          have hbehind : ¬ HasEscape behind := by
            rintro ⟨before, next', behind', rfl, he⟩
            exact h ⟨backslash :: next :: before, next', behind', rfl, he⟩
          rw [decodeEscapes_escape, escape_of_not_isEscape hescape, Option.bind_some,
            List.drop_zero, ih behind.length (by simp) hbehind rfl]
          rfl
      · have hrest : ¬ HasEscape rest := by
          rintro ⟨before, next, behind, rfl, he⟩
          exact h ⟨b :: before, next, behind, rfl, he⟩
        rw [decodeEscapes_cons hb, ih rest.length (by simp) hrest rfl]
        rfl

/-! ## Numbers -/

/-- The value of the digits in a base behind what was read. -/
def numberFrom (radix value : ℕ) (bytes : List UInt8) : ℕ :=
  bytes.foldl (fun value b => value * radix + (b.toNat - 0x30)) value

theorem le_numberFrom {radix : ℕ} (hradix : 1 ≤ radix) (value : ℕ) (bytes : List UInt8) :
    value ≤ numberFrom radix value bytes := by
  induction bytes generalizing value with
  | nil => exact le_rfl
  | cons b rest ih =>
    have hstep : value ≤ value * radix + (b.toNat - 0x30) :=
      le_trans (Nat.le_mul_of_pos_right value hradix) (Nat.le_add_right _ _)
    exact le_trans hstep (ih _)

theorem parseDigits_of_digits (radix : ℕ) (hradix : 1 ≤ radix) (value : ℕ) (hasDigits : Bool)
    {bytes : List UInt8}
    (hdigits : ∀ b ∈ bytes, isAsciiDigit b = true ∧ b.toNat - 0x30 < radix)
    (hvalue : numberFrom radix value bytes ≤ u64Max)
    (hnonempty : bytes ≠ [] ∨ hasDigits = true) :
    parseDigits radix bytes value hasDigits = some (numberFrom radix value bytes) := by
  induction bytes generalizing value hasDigits with
  | nil =>
    have hhas : hasDigits = true := by simpa using hnonempty
    rw [parseDigits, if_pos hhas, numberFrom, List.foldl_nil]
    rw [numberFrom, List.foldl_nil] at hvalue
    rw [min_eq_left hvalue]
  | cons b rest ih =>
    obtain ⟨hdigit, hless⟩ := hdigits b List.mem_cons_self
    have hunderscore : b ≠ byte '_' := by
      rintro rfl
      exact absurd hdigit (by decide)
    have hnext : numberFrom radix (value * radix + (b.toNat - 0x30)) rest ≤ u64Max := hvalue
    have hsmall := le_trans (le_numberFrom hradix _ rest) hnext
    have hbound : u64Max < 2 ^ 128 := by decide
    rw [parseDigits, if_neg hunderscore, hexDigit, if_pos hdigit]
    simp only []
    rw [if_neg (by omega), if_neg (by omega), if_neg (by omega)]
    exact ih _ _ (fun c hc => hdigits c (List.mem_cons_of_mem _ hc)) hnext (Or.inr rfl)

/-- Read in base eight, octal digits give less than in base ten, from eight on. -/
theorem numberFrom_octal {bytes : List UInt8} (h : ∀ b ∈ bytes, b.toNat - 0x30 < 8) :
    numberFrom 8 0 bytes ≤ numberFrom 10 0 bytes ∧
      (numberFrom 8 0 bytes = numberFrom 10 0 bytes ↔ numberFrom 10 0 bytes < 8) := by
  induction bytes using List.reverseRecOn with
  | nil => simp [numberFrom]
  | append_singleton bytes b ih =>
    have hb := h b (by simp)
    obtain ⟨hle, -⟩ := ih fun c hc => h c (List.mem_append_left _ hc)
    simp only [numberFrom, List.foldl_append, List.foldl_cons, List.foldl_nil] at hle ⊢
    omega

end Mago.Syntax.Literal
