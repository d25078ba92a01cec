import Mago.Syntax.Input

/-!
# Double-quoted strings

The lexer first tries to read a double-quoted string as one literal, jumping from one quote,
backslash or dollar sign to the next. Where that finds an interpolation it enters a mode that
reads the string byte by byte. The two know different starts of an identifier.
-/
namespace Mago.Syntax.DoubleQuote

/-- The lookup table of the literal path, letters and the underscore. -/
def isStartOfIdentifier (b : UInt8) : Bool := isAsciiAlphabetic b || b == byte '_'

/-- The pattern of the interpolating mode, which has the bytes from 0x80 on too. -/
def startOfIdentifier (b : UInt8) : Bool :=
  isAsciiAlphabetic b || b == byte '_' || decide (0x80 ≤ b)

/-! ## The literal path -/

inductive TokenKind
  | literalString
  | partialLiteralString
  deriving DecidableEq, Repr

/-- The bytes that are searched for. -/
def isSpecial (b : UInt8) : Bool := b == byte '"' || b == byte '\\' || b == byte '$'

/-- Whether the dollar sign at a position starts an interpolation. A brace before the start of
the scan belongs to an escape. -/
def interpolates (bytes : List UInt8) (start position : ℕ) : Bool :=
  (decide (start < position) && bytes[position - 1]? == some (byte '\x7b')) ||
    bytes[position + 1]?.any fun next => isStartOfIdentifier next || next == byte '\x7b'

/-- The search of an empty rest finds nothing. -/
def readLoop (bytes : List UInt8) (start : ℕ) : Option (TokenKind × ℕ) :=
  if start < bytes.length then
    match (bytes.drop start).findIdx? isSpecial with
    | none => some (.partialLiteralString, bytes.length)
    | some offset =>
      let position := start + offset
      if bytes[position]? = some (byte '"') then some (.literalString, position + 1)
      else if bytes[position]? = some (byte '\\') then
        readLoop bytes (min (position + 2) bytes.length)
      else if interpolates bytes start position then none
      else readLoop bytes (position + 1)
  else some (.partialLiteralString, bytes.length)
termination_by bytes.length - start

/-- The token of a string with its quotes, unless it has an interpolation. -/
def readLiteralDoubleQuoteString (bytes : List UInt8) (prefixLen : ℕ) : Option (TokenKind × ℕ) :=
  readLoop bytes (prefixLen + 1)

/-! ## The interpolating mode -/

/-- Where the mode stops: at a variable, at a brace that opens an expression, at the closing
quote or at the end of the input. -/
inductive Stop
  | untilOffset
  | brace
  | quote
  | eof
  deriving DecidableEq, Repr

/-- The loop of the mode over the bytes that are left: what it reads and where it stops. -/
def scan (identifier : UInt8 → Bool) : List UInt8 → Bool → ℕ × Stop
  | [], _ => (0, .eof)
  | b :: rest, lastWasSlash =>
    if b = byte '$' ∧ rest.head?.any identifier ∧ !lastWasSlash then (0, .untilOffset)
    else if (b = byte '\x7b' ∧ rest.head? = some (byte '$') ∨
        b = byte '$' ∧ rest.head? = some (byte '\x7b')) ∧ !lastWasSlash then (0, .brace)
    else if b = byte '\\' then
      let read := scan identifier rest (!lastWasSlash)
      (read.1 + 1, read.2)
    else if b = byte '"' ∧ !lastWasSlash then (0, .quote)
    else
      let read := scan identifier rest false
      (read.1 + 1, read.2)

/-- The loop of the mode from the start of the string. -/
def modeScan (bytes : List UInt8) (prefixLen : ℕ) : ℕ × Stop :=
  scan startOfIdentifier (bytes.drop (prefixLen + 1)) false

/-- The literal that the scan of a string leaves. -/
def literalOf (start : ℕ) : ℕ × Stop → Option (TokenKind × ℕ)
  | (k, .quote) => some (.literalString, start + k + 1)
  | (k, .eof) => some (.partialLiteralString, start + k)
  | (_, .untilOffset) => none
  | (_, .brace) => none

theorem literalOf_add (start m k : ℕ) (stop : Stop) :
    literalOf start (k + m, stop) = literalOf (start + m) (k, stop) := by
  cases stop <;> simp [literalOf] <;> omega

section Scan

variable {identifier : UInt8 → Bool}

theorem scan_eof {bytes : List UInt8} {lastWasSlash : Bool}
    (h : (scan identifier bytes lastWasSlash).2 = .eof) :
    (scan identifier bytes lastWasSlash).1 = bytes.length := by
  induction bytes generalizing lastWasSlash with
  | nil => rfl
  | cons b rest ih =>
    unfold scan at h ⊢
    split_ifs at h ⊢
    · exact congrArg (· + 1) (ih h)
    · exact congrArg (· + 1) (ih h)

theorem scan_cons_of_plain {b : UInt8} {rest : List UInt8} (h : isSpecial b = false)
    (hbrace : b = byte '\x7b' → rest.head? ≠ some (byte '$')) :
    scan identifier (b :: rest) false =
      ((scan identifier rest false).1 + 1, (scan identifier rest false).2) := by
  simp only [isSpecial, Bool.or_eq_false_iff, beq_eq_false_iff_ne] at h
  simp only [scan, h, false_and, or_false, if_false]
  rw [if_neg]
  exact fun hopen => hbrace hopen.1.1 hopen.1.2

/-- A run of plain bytes is read, except for a brace in front of a dollar sign. -/
theorem scan_plain {plain rest : List UInt8} (h : ∀ b ∈ plain, isSpecial b = false) :
    scan identifier (plain ++ rest) false =
      if plain.getLast? = some (byte '\x7b') ∧ rest.head? = some (byte '$')
      then (plain.length - 1, .brace)
      else ((scan identifier rest false).1 + plain.length, (scan identifier rest false).2) := by
  induction plain with
  | nil => simp
  | cons b plain ih =>
    have hb := h b List.mem_cons_self
    have hplain := ih fun c hc => h c (List.mem_cons_of_mem _ hc)
    cases plain with
    | nil =>
      by_cases hopen : b = byte '\x7b' ∧ rest.head? = some (byte '$')
      · obtain ⟨rfl, hrest⟩ := hopen
        rw [if_pos ⟨rfl, hrest⟩, List.singleton_append, scan, hrest]
        rw [if_neg (by simp [byte]), if_pos (by simp)]
        rfl
      · have hlast : ¬ ([b].getLast? = some (byte '\x7b') ∧ rest.head? = some (byte '$')) := by
          simpa using hopen
        rw [if_neg hlast, List.singleton_append, scan_cons_of_plain hb fun hbrace hrest =>
          hopen ⟨hbrace, hrest⟩]
        rfl
    | cons c plain =>
      have hc := h c (by simp)
      have hne : c ≠ byte '$' := by
        rintro rfl
        simp [isSpecial] at hc
      rw [List.cons_append, scan_cons_of_plain hb fun _ => by simpa using hne, hplain,
        List.getLast?_cons_cons]
      split_ifs
      · simp
      · simp [Nat.add_assoc]

/-- An escape is skipped with its byte. -/
theorem scan_escape (rest : List UInt8) : scan identifier (byte '\\' :: rest) false =
    ((scan identifier (rest.drop 1) false).1 + min 2 (rest.length + 1),
      (scan identifier (rest.drop 1) false).2) := by
  have hslash : scan identifier (byte '\\' :: rest) false =
      ((scan identifier rest true).1 + 1, (scan identifier rest true).2) := by
    rw [scan, if_neg (by simp [byte]), if_neg (by simp [byte]), if_pos rfl]
    rfl
  rw [hslash]
  cases rest with
  | nil => rfl
  | cons c rest =>
    have hskip : scan identifier (c :: rest) true =
        ((scan identifier rest false).1 + 1, (scan identifier rest false).2) := by
      simp [scan]
    rw [hskip, List.drop_one, List.tail_cons, List.length_cons]
    have hmin : min 2 (rest.length + 1 + 1) = 2 := by omega
    rw [hmin]

/-- A dollar sign stops the loop in front of an identifier or a brace. -/
theorem scan_dollar (rest : List UInt8) : scan identifier (byte '$' :: rest) false =
    if rest.head?.any identifier then (0, .untilOffset)
    else if rest.head? = some (byte '\x7b') then (0, .brace)
    else ((scan identifier rest false).1 + 1, (scan identifier rest false).2) := by
  have hslash : byte '$' ≠ byte '\\' := by decide
  have hquote : byte '$' ≠ byte '"' := by decide
  have hbrace : byte '$' ≠ byte '\x7b' := by decide
  simp [scan, hslash, hquote, hbrace]

/-- What the search of the literal path jumps over. -/
theorem exists_plain {bytes : List UInt8} {offset : ℕ}
    (h : bytes.findIdx? isSpecial = some offset) : ∃ plain c rest, bytes = plain ++ c :: rest ∧
      plain.length = offset ∧ (∀ b ∈ plain, isSpecial b = false) ∧ isSpecial c = true := by
  obtain ⟨hlt, hc, hplain⟩ := List.findIdx?_eq_some_iff_getElem.mp h
  refine ⟨bytes.take offset, bytes[offset], bytes.drop (offset + 1), ?_, ?_, fun b hb => ?_, hc⟩
  · rw [List.getElem_cons_drop, List.take_append_drop]
  · exact List.length_take_of_le hlt.le
  · obtain ⟨i, hi, rfl⟩ := List.mem_take_iff_getElem.mp hb
    have := hplain i (by omega)
    simpa using this

end Scan

/-- The test of the literal path looks at the bytes around the dollar sign. -/
theorem interpolates_eq {bytes plain rest : List UInt8} {start : ℕ} {c : UInt8}
    (h : bytes.drop start = plain ++ c :: rest) :
    interpolates bytes start (start + plain.length) =
      (decide (plain.getLast? = some (byte '\x7b')) ||
        rest.head?.any fun next => isStartOfIdentifier next || next == byte '\x7b') := by
  have hat : ∀ i, bytes[start + i]? = (plain ++ c :: rest)[i]? := fun i => by
    rw [← h, List.getElem?_drop]
  have hnext : bytes[start + plain.length + 1]? = rest.head? := by
    rw [Nat.add_assoc, hat, List.getElem?_append_right (by omega), Nat.add_sub_cancel_left,
      List.getElem?_cons_succ, List.head?_eq_getElem?]
  rw [interpolates, hnext]
  congr 1
  rcases List.eq_nil_or_concat' plain with rfl | ⟨init, last, rfl⟩
  · simp
  · have hlast : bytes[start + (init ++ [last]).length - 1]? = some last := by
      have hindex : start + (init ++ [last]).length - 1 = start + init.length := by
        rw [List.length_append, List.length_singleton]
        omega
      rw [hindex, hat]
      simp
    rw [hlast]
    exact Bool.eq_iff_iff.mpr (by simp)

theorem drop_min_length {α : Type*} (xs : List α) (n : ℕ) :
    xs.drop (min n xs.length) = xs.drop n := by
  rcases Nat.le_total n xs.length with h | h
  · rw [min_eq_left h]
  · rw [min_eq_right h, List.drop_length, List.drop_of_length_le h]

/-- The literal path reads what the byte-by-byte loop reads with the same identifiers. -/
theorem readLoop_eq (bytes : List UInt8) {start : ℕ} (hstart : start ≤ bytes.length) :
    readLoop bytes start =
      literalOf start (scan isStartOfIdentifier (bytes.drop start) false) := by
  induction hsize : bytes.length - start using Nat.strong_induction_on generalizing start with
  | _ size ih =>
    rw [readLoop]
    split_ifs with hlt
    · cases hfind : (bytes.drop start).findIdx? isSpecial with
      | none =>
        have hplain : ∀ b ∈ bytes.drop start, isSpecial b = false := by
          simpa using hfind
        have hscan : scan isStartOfIdentifier (bytes.drop start ++ []) false = _ :=
          scan_plain hplain
        rw [List.append_nil, if_neg (by simp)] at hscan
        rw [hscan, scan, List.length_drop]
        simp [literalOf, Nat.add_sub_cancel' hstart]
      | some offset =>
        obtain ⟨plain, c, rest, hsplit, hlength, hplain, hc⟩ := exists_plain hfind
        subst hlength
        have hat : ∀ i, bytes[start + i]? = (plain ++ c :: rest)[i]? := fun i => by
          rw [← hsplit, List.getElem?_drop]
        have hposition : bytes[start + plain.length]? = some c := by simp [hat]
        have hrest : bytes.drop (start + plain.length + 1) = rest := by
          rw [Nat.add_assoc, ← List.drop_drop, hsplit]
          simp
        have hlong : bytes.length = start + plain.length + 1 + rest.length := by
          have := congrArg List.length hsplit
          rw [List.length_drop, List.length_append, List.length_cons] at this
          omega
        rw [hsplit, scan_plain hplain]
        simp only [hposition, Option.some_inj, List.head?_cons]
        simp only [isSpecial, Bool.or_eq_true, beq_iff_eq] at hc
        rcases hc with (rfl | rfl) | rfl
        · rw [if_pos rfl, if_neg (by simp [byte]), literalOf_add, scan, if_neg (by simp [byte]),
            if_neg (by simp [byte]), if_neg (by simp [byte]), if_pos (by simp)]
          rfl
        · rw [if_neg (by simp [byte]), if_pos rfl, if_neg (by simp [byte]), literalOf_add,
            scan_escape, literalOf_add]
          have hnext : min (start + plain.length + 2) bytes.length =
              start + plain.length + min 2 (rest.length + 1) := by omega
          have hdrop : bytes.drop (start + plain.length + min 2 (rest.length + 1)) =
              rest.drop 1 := by
            rw [← hnext, drop_min_length, ← hrest, List.drop_drop]
          rw [hnext, ih _ (by omega) (by omega) rfl, hdrop]
        · rw [if_neg (by simp [byte]), if_neg (by simp [byte]), interpolates_eq hsplit]
          by_cases hbrace : plain.getLast? = some (byte '\x7b')
          · simp [hbrace, literalOf]
          · have hno : ¬ (plain.getLast? = some (byte '\x7b') ∧ byte '$' = byte '$') :=
              fun h => hbrace h.1
            rw [if_neg hno, literalOf_add, scan_dollar]
            have hrec : readLoop bytes (start + plain.length + 1) =
                literalOf (start + plain.length)
                  ((scan isStartOfIdentifier rest false).1 + 1,
                    (scan isStartOfIdentifier rest false).2) := by
              rw [ih _ (by omega) (by omega) rfl, hrest, literalOf_add]
            rw [hrec, decide_eq_false hbrace, Bool.false_or]
            cases rest.head? with
            | none => simp
            | some next =>
              by_cases hidentifier : isStartOfIdentifier next = true
              · simp [hidentifier, literalOf]
              · by_cases hopen : next = byte '\x7b'
                · subst hopen
                  simp [hidentifier, literalOf]
                · simp [hidentifier, hopen]
    · have hend : start = bytes.length := by omega
      rw [hend, List.drop_length]
      rfl

/-- A dollar sign with a byte from 0x80 on is where the mode stops and the literal path goes
on. -/
def StopsAtHighByte (bytes : List UInt8) (prefixLen : ℕ) : Prop :=
  (modeScan bytes prefixLen).2 = .untilOffset ∧
    ∃ b ∈ bytes[prefixLen + 1 + (modeScan bytes prefixLen).1 + 1]?, 0x80 ≤ b

theorem startOfIdentifier_iff {b : UInt8} :
    startOfIdentifier b = true ↔ isStartOfIdentifier b = true ∨ 0x80 ≤ b := by
  simp [startOfIdentifier, isStartOfIdentifier]

/-- Both sets of identifiers stop the loop at the same place, unless the larger one stops it
with a byte that the smaller one does not have. -/
theorem scan_eq_of_not_high {bytes : List UInt8} {lastWasSlash : Bool}
    (h : (scan startOfIdentifier bytes lastWasSlash).2 = .untilOffset →
      ∀ b ∈ bytes[(scan startOfIdentifier bytes lastWasSlash).1 + 1]?, ¬ 0x80 ≤ b) :
    scan isStartOfIdentifier bytes lastWasSlash = scan startOfIdentifier bytes lastWasSlash := by
  induction bytes generalizing lastWasSlash with
  | nil => rfl
  | cons b rest ih =>
    by_cases hstop : b = byte '$' ∧ rest.head?.any startOfIdentifier ∧ !lastWasSlash
    · obtain ⟨hdollar, hnext, hslash⟩ := hstop
      have hscan : scan startOfIdentifier (b :: rest) lastWasSlash = (0, .untilOffset) := by
        rw [scan, if_pos ⟨hdollar, hnext, hslash⟩]
      rw [hscan] at h ⊢
      obtain ⟨next, hhead, hstart⟩ := (Option.any_eq_true _ _).mp hnext
      have hlow := h rfl next (by simpa [List.head?_eq_getElem?] using hhead)
      have hnext' : rest.head?.any isStartOfIdentifier = true := by
        rw [hhead]
        exact (startOfIdentifier_iff.mp hstart).resolve_right hlow
      rw [scan, if_pos ⟨hdollar, hnext', hslash⟩]
    · have hstop' : ¬ (b = byte '$' ∧ rest.head?.any isStartOfIdentifier ∧ !lastWasSlash) := by
        intro hstart
        obtain ⟨hdollar, hnext, hslash⟩ := hstart
        obtain ⟨next, hhead, hnext⟩ := (Option.any_eq_true _ _).mp hnext
        refine hstop ⟨hdollar, ?_, hslash⟩
        rw [hhead]
        exact startOfIdentifier_iff.mpr (.inl hnext)
      rw [scan, if_neg hstop] at h
      rw [scan, if_neg hstop', scan, if_neg hstop]
      split_ifs at h ⊢
      · rfl
      · rw [ih h]
      · rfl
      · rw [ih h]

/-- Unless the mode stops at such a dollar sign, the literal path reads what the mode reads:
a literal up to the closing quote, a partial one up to the end of the input, and nothing before
an interpolation. -/
theorem readLiteral_agrees (bytes : List UInt8) (prefixLen : ℕ)
    (hquote : bytes[prefixLen]? = some (byte '"')) (hhigh : ¬ StopsAtHighByte bytes prefixLen) :
    (∀ n, readLiteralDoubleQuoteString bytes prefixLen = some (.literalString, n) ↔
      ∃ k, n = prefixLen + 1 + k + 1 ∧ modeScan bytes prefixLen = (k, .quote)) ∧
    (∀ n, readLiteralDoubleQuoteString bytes prefixLen = some (.partialLiteralString, n) ↔
      n = bytes.length ∧ (modeScan bytes prefixLen).2 = .eof) ∧
    (readLiteralDoubleQuoteString bytes prefixLen = none ↔
      (modeScan bytes prefixLen).2 = .untilOffset ∨ (modeScan bytes prefixLen).2 = .brace) := by
  obtain ⟨hlt, -⟩ := List.getElem?_eq_some_iff.mp hquote
  have hscan : scan isStartOfIdentifier (bytes.drop (prefixLen + 1)) false =
      modeScan bytes prefixLen := by
    refine scan_eq_of_not_high fun hstop b hb hle => hhigh ⟨hstop, b, ?_, hle⟩
    rw [List.getElem?_drop] at hb
    exact hb
  have hread : readLiteralDoubleQuoteString bytes prefixLen =
      literalOf (prefixLen + 1) (modeScan bytes prefixLen) := by
    rw [readLiteralDoubleQuoteString, readLoop_eq bytes hlt, hscan]
  have heof : (modeScan bytes prefixLen).2 = .eof →
      prefixLen + 1 + (modeScan bytes prefixLen).1 = bytes.length := by
    intro hstop
    rw [modeScan, scan_eof hstop, List.length_drop]
    omega
  rw [hread]
  generalize modeScan bytes prefixLen = stopped at heof ⊢
  obtain ⟨k, stop⟩ := stopped
  cases stop with
  | untilOffset => simp [literalOf]
  | brace => simp [literalOf]
  | quote => simp [literalOf, eq_comm]
  | eof => simpa [literalOf, eq_comm] using heof

/-- An escaped quote and a dollar sign in front of a digit are part of the literal. -/
theorem readLiteral_escaped_quote :
    readLiteralDoubleQuoteString [34, 92, 34, 36, 49, 34] 0 = some (.literalString, 6) := by
  have hhigh : ¬ StopsAtHighByte [34, 92, 34, 36, 49, 34] 0 := by
    intro h
    exact absurd h.1 (by decide)
  exact ((readLiteral_agrees _ 0 rfl hhigh).1 6).mpr ⟨4, rfl, by decide⟩

/-- The literal path returns a length exactly when the mode finds the closing quote in front of
its last byte. -/
def ReadsUpToQuote (bytes : List UInt8) (prefixLen : ℕ) : Prop :=
  ∀ n, (∃ kind, readLiteralDoubleQuoteString bytes prefixLen = some (kind, n)) ↔
    ∃ k, n = prefixLen + 1 + k + 1 ∧ modeScan bytes prefixLen = (k, .quote)

/-- An unterminated string is read to its end, and a dollar sign in front of a byte from 0x80 on
is read over although the mode stops there. -/
theorem reads_without_closing_quote :
    ¬ ReadsUpToQuote [34, 97] 0 ∧ ¬ ReadsUpToQuote [34, 36, 0xC3, 0xA9, 34] 0 := by
  constructor
  · intro h
    have hread : readLiteralDoubleQuoteString [34, 97] 0 = some (.partialLiteralString, 2) := by
      rw [readLiteralDoubleQuoteString, readLoop_eq _ (by decide)]
      decide
    obtain ⟨k, -, hscan⟩ := (h 2).mp ⟨_, hread⟩
    have hstop : (modeScan [34, 97] 0).2 = .eof := by decide
    rw [hscan] at hstop
    exact absurd hstop (by simp)
  · intro h
    have hread : readLiteralDoubleQuoteString [34, 36, 0xC3, 0xA9, 34] 0 =
        some (.literalString, 5) := by
      rw [readLiteralDoubleQuoteString, readLoop_eq _ (by decide)]
      decide
    obtain ⟨k, -, hscan⟩ := (h 5).mp ⟨_, hread⟩
    have hstop : (modeScan [34, 36, 0xC3, 0xA9, 34] 0).2 = .untilOffset := by decide
    rw [hscan] at hstop
    exact absurd hstop (by simp)

end Mago.Syntax.DoubleQuote
