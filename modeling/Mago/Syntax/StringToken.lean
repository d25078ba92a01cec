import Mago.Syntax.DoubleQuote
import Mago.Syntax.Literal

/-!
# String tokens

How the lexer finds the end of a string. A backslash takes the byte behind it along, so the string
ends with the first quote that none takes.
-/
namespace Mago.Syntax.StringToken
open Literal (backslash singleQuote doubleQuote)
open DoubleQuote (TokenKind readLoop readLiteralDoubleQuoteString scan literalOf)

/-! ## The lexer -/

/-- The loop over the bytes that are left, after those of the token so far. -/
def readLiteralLoop (quote : UInt8) (bytes : List UInt8) (length : ℕ) : TokenKind × ℕ :=
  match bytes.findIdx? fun b => b == quote || b == backslash with
  | none => (.partialLiteralString, length + bytes.length)
  | some position =>
    if bytes[position]? = some backslash then
      if bytes.length < position + 2 then (.partialLiteralString, length + bytes.length)
      else readLiteralLoop quote (bytes.drop (position + 2)) (length + position + 2)
    else (.literalString, length + position + 1)
termination_by bytes.length
decreasing_by
  rw [List.length_drop]
  omega

def readLiteralString (bytes : List UInt8) (quote : UInt8) (prefixLen : ℕ) : TokenKind × ℕ :=
  readLiteralLoop quote (bytes.drop (prefixLen + 1)) (prefixLen + 1)

/-- The token of a string. There is none where another token starts, as does the double quote of a
string with an interpolation; and a letter marks no string in an interpolation or an offset. -/
def readStringToken (interpolating : Bool) (varOffsetDepth : ℕ) (remaining : List UInt8) :
    Option (TokenKind × ℕ) :=
  match remaining with
  | [] => none
  | b :: rest =>
    if b = singleQuote then some (readLiteralString remaining singleQuote 0)
    else if b = doubleQuote then readLiteralDoubleQuoteString remaining 0
    else if varOffsetDepth = 0 ∧ interpolating = false ∧ (b = byte 'b' ∨ b = byte 'B') then
      if rest.head? = some singleQuote then some (readLiteralString remaining singleQuote 1)
      else if rest.head? = some doubleQuote then readLiteralDoubleQuoteString remaining 1
      else none
    else none

/-! ## The body of a string -/

/-- What may stand between two quotes: each backslash is followed by the byte it takes along. -/
inductive Body (quote : UInt8) : List UInt8 → Prop
  | nil : Body quote []
  | plain {b : UInt8} {content : List UInt8} : b ≠ quote → b ≠ backslash → Body quote content →
    Body quote (b :: content)
  | escaped {b : UInt8} {content : List UInt8} : Body quote content →
    Body quote (backslash :: b :: content)

section Loop

variable {quote : UInt8}

theorem readLiteralLoop_nil (length : ℕ) :
    readLiteralLoop quote [] length = (.partialLiteralString, length) := by
  rw [readLiteralLoop]
  rfl

theorem readLiteralLoop_plain {b : UInt8} (hquote : b ≠ quote) (hslash : b ≠ backslash)
    (bytes : List UInt8) (length : ℕ) :
    readLiteralLoop quote (b :: bytes) length = readLiteralLoop quote bytes (length + 1) := by
  have hfind : (b :: bytes).findIdx? (fun b => b == quote || b == backslash) =
      (bytes.findIdx? fun b => b == quote || b == backslash).map (· + 1) := by
    rw [List.findIdx?_cons]
    simp [hquote, hslash]
  rw [readLiteralLoop, readLiteralLoop, hfind]
  cases bytes.findIdx? fun b => b == quote || b == backslash with
  | none =>
    rw [Option.map_none]
    dsimp only
    rw [List.length_cons, Nat.add_assoc, Nat.add_comm 1]
  | some position =>
    rw [Option.map_some]
    dsimp only
    rw [List.getElem?_cons_succ, List.length_cons, List.drop_succ_cons]
    have hlength : length + (position + 1) = length + 1 + position := by omega
    have hless : bytes.length + 1 < position + 1 + 2 ↔ bytes.length < position + 2 := by omega
    have htotal : length + (bytes.length + 1) = length + 1 + bytes.length := by omega
    simp only [hlength, hless, htotal]

theorem readLiteralLoop_quote (hquote : quote ≠ backslash) (bytes : List UInt8) (length : ℕ) :
    readLiteralLoop quote (quote :: bytes) length = (.literalString, length + 1) := by
  rw [readLiteralLoop, List.findIdx?_cons]
  simp [hquote]

theorem readLiteralLoop_escaped (b : UInt8) (bytes : List UInt8) (length : ℕ) :
    readLiteralLoop quote (backslash :: b :: bytes) length =
      readLiteralLoop quote bytes (length + 2) := by
  rw [readLiteralLoop, List.findIdx?_cons]
  simp

theorem readLiteralLoop_end (length : ℕ) :
    readLiteralLoop quote [backslash] length = (.partialLiteralString, length + 1) := by
  rw [readLiteralLoop, List.findIdx?_cons]
  simp

theorem readLiteralLoop_body (hquote : quote ≠ backslash) {content : List UInt8}
    (h : Body quote content) (behind : List UInt8) (length : ℕ) :
    readLiteralLoop quote (content ++ quote :: behind) length =
      (.literalString, length + content.length + 1) := by
  induction h generalizing length with
  | nil => exact readLiteralLoop_quote hquote behind length
  | plain hplain hslash _ ih =>
    rw [List.cons_append, readLiteralLoop_plain hplain hslash, ih, List.length_cons]
    exact congrArg _ (by omega)
  | escaped _ ih =>
    rw [List.cons_append, List.cons_append, readLiteralLoop_escaped, ih, List.length_cons,
      List.length_cons]
    exact congrArg _ (by omega)

theorem exists_body_of_readLiteralLoop (hquote : quote ≠ backslash) {bytes : List UInt8}
    {length total : ℕ} (h : readLiteralLoop quote bytes length = (.literalString, total)) :
    ∃ content behind, bytes = content ++ quote :: behind ∧ Body quote content ∧
      total = length + content.length + 1 := by
  induction hn : bytes.length using Nat.strong_induction_on generalizing bytes length with
  | _ n ih =>
    subst hn
    match bytes with
    | [] =>
      rw [readLiteralLoop_nil] at h
      cases h
    | b :: rest =>
      by_cases hb : b = quote
      · rw [hb, readLiteralLoop_quote hquote] at h
        exact ⟨[], rest, congrArg (· :: rest) hb, .nil, (Prod.mk.inj h).2.symm⟩
      · by_cases hslash : b = backslash
        · subst hslash
          match rest with
          | [] =>
            rw [readLiteralLoop_end] at h
            cases h
          | c :: rest =>
            rw [readLiteralLoop_escaped] at h
            obtain ⟨content, behind, rfl, hbody, rfl⟩ := ih rest.length (by simp) h rfl
            refine ⟨backslash :: c :: content, behind, rfl, hbody.escaped, ?_⟩
            rw [List.length_cons, List.length_cons]
            omega
        · rw [readLiteralLoop_plain hb hslash] at h
          obtain ⟨content, behind, rfl, hbody, rfl⟩ := ih rest.length (by simp) h rfl
          refine ⟨b :: content, behind, rfl, hbody.plain hb hslash, ?_⟩
          rw [List.length_cons]
          omega

end Loop

/-! ## Double quotes -/

section Scan

variable {identifier : UInt8 → Bool}

theorem scan_quote (rest : List UInt8) :
    scan identifier (doubleQuote :: rest) false = (0, .quote) := by
  have hdollar : ¬doubleQuote = byte '$' := by decide
  have hbrace : ¬doubleQuote = byte '\x7b' := by decide
  have hslash : ¬doubleQuote = byte '\\' := by decide
  rw [scan, if_neg (fun h => hdollar h.1), if_neg, if_neg hslash]
  · exact if_pos ⟨rfl, rfl⟩
  · exact fun h => h.1.elim (fun h => hbrace h.1) fun h => hdollar h.1

theorem scan_escaped (b : UInt8) (rest : List UInt8) :
    scan identifier (backslash :: b :: rest) false =
      ((scan identifier rest false).1 + 2, (scan identifier rest false).2) :=
  DoubleQuote.scan_escape (b :: rest)

/-- Another byte is passed, or it starts an interpolation with the byte behind it. -/
theorem scan_other {b : UInt8} (hquote : b ≠ doubleQuote) (hslash : b ≠ backslash)
    (rest : List UInt8) :
    scan identifier (b :: rest) false =
      if b = byte '$' ∧ rest.head?.any identifier then (0, .untilOffset)
      else if b = byte '\x7b' ∧ rest.head? = some (byte '$') ∨
          b = byte '$' ∧ rest.head? = some (byte '\x7b') then (0, .brace)
      else ((scan identifier rest false).1 + 1, (scan identifier rest false).2) := by
  have hnotSlash : ¬b = byte '\\' := hslash
  have hnotQuote : ¬b = byte '"' := hquote
  rw [scan]
  simp [hnotSlash, hnotQuote]

/-- Where the scan stops at a quote it has passed a body. -/
theorem exists_body_of_scan {bytes : List UInt8} {k : ℕ}
    (h : scan identifier bytes false = (k, .quote)) :
    ∃ content behind, bytes = content ++ doubleQuote :: behind ∧ Body doubleQuote content ∧
      k = content.length := by
  induction hn : bytes.length using Nat.strong_induction_on generalizing bytes k with
  | _ n ih =>
    subst hn
    match bytes with
    | [] => cases h
    | b :: rest =>
      by_cases hquote : b = doubleQuote
      · rw [hquote, scan_quote] at h
        exact ⟨[], rest, congrArg (· :: rest) hquote, .nil, (Prod.mk.inj h).1.symm⟩
      · by_cases hslash : b = backslash
        · subst hslash
          match rest with
          | [] => cases h
          | c :: rest =>
            rw [scan_escaped] at h
            obtain ⟨hk, hstop⟩ := Prod.mk.inj h
            obtain ⟨content, behind, rfl, hbody, hlength⟩ :=
              ih rest.length (by simp) (Prod.ext rfl hstop) rfl
            refine ⟨backslash :: c :: content, behind, rfl, hbody.escaped, ?_⟩
            exact hk.symm.trans (congrArg (· + 2) hlength)
        · rw [scan_other hquote hslash] at h
          split_ifs at h
          · cases h
          · cases h
          · obtain ⟨hk, hstop⟩ := Prod.mk.inj h
            obtain ⟨content, behind, rfl, hbody, hlength⟩ :=
              ih rest.length (by simp) (Prod.ext rfl hstop) rfl
            refine ⟨b :: content, behind, rfl, hbody.plain hquote hslash, ?_⟩
            exact hk.symm.trans (congrArg (· + 1) hlength)

/-- What is behind the closing quote does not matter. -/
theorem scan_behind {content behind : List UInt8} (hbody : Body doubleQuote content)
    (h : scan identifier (content ++ doubleQuote :: behind) false = (content.length, .quote))
    (behind' : List UInt8) :
    scan identifier (content ++ doubleQuote :: behind') false = (content.length, .quote) := by
  induction hbody with
  | nil => exact scan_quote behind'
  | @plain b content hquote hslash hbody ih =>
    have hhead : (content ++ doubleQuote :: behind).head? =
        (content ++ doubleQuote :: behind').head? := by
      cases content <;> rfl
    rw [List.cons_append, scan_other hquote hslash, hhead] at h
    rw [List.cons_append, scan_other hquote hslash]
    split_ifs at h ⊢ with hdollar hbrace
    · cases h
    · cases h
    · obtain ⟨hlength, hstop⟩ := Prod.mk.inj h
      rw [ih (Prod.ext (Nat.succ.inj hlength) hstop)]
      rfl
  | escaped _ ih =>
    rw [List.cons_append, List.cons_append, scan_escaped] at h
    rw [List.cons_append, List.cons_append, scan_escaped]
    obtain ⟨hlength, hstop⟩ := Prod.mk.inj h
    rw [ih (Prod.ext (Nat.add_right_cancel hlength) hstop)]
    rfl

/-- Without a dollar sign there is no interpolation. -/
theorem scan_body {content : List UInt8} (hbody : Body doubleQuote content)
    (hdollar : byte '$' ∉ content) (behind : List UInt8) :
    scan identifier (content ++ doubleQuote :: behind) false = (content.length, .quote) := by
  induction hbody with
  | nil => exact scan_quote behind
  | @plain b content hquote hslash hbody ih =>
    have hcontent := fun h => hdollar (List.mem_cons_of_mem b h)
    have hhead : (content ++ doubleQuote :: behind).head? ≠ some (byte '$') := by
      cases content with
      | nil => exact fun h => absurd (Option.some.inj h) (by decide)
      | cons c content => exact fun h => hcontent (Option.some.inj h ▸ List.mem_cons_self)
    have hno : ¬b = byte '$' := fun h => hdollar (h ▸ List.mem_cons_self)
    rw [List.cons_append, scan_other hquote hslash, if_neg (fun h => hno h.1), if_neg, ih hcontent]
    · rfl
    · rintro (hbrace | hbrace)
      · exact hhead hbrace.2
      · exact hno hbrace.1
  | escaped _ ih =>
    have hcontent := fun h => hdollar (List.mem_cons_of_mem _ (List.mem_cons_of_mem _ h))
    rw [List.cons_append, List.cons_append, scan_escaped, ih hcontent]
    rfl

end Scan

/-! ## Tokens of strings -/

/-- What may stand in front of the first quote. -/
def Marks (interpolating : Bool) (varOffsetDepth : ℕ) (mark : List UInt8) : Prop :=
  mark = [] ∨ varOffsetDepth = 0 ∧ interpolating = false ∧
    (mark = [byte 'b'] ∨ mark = [byte 'B'])

/-- The content of a string that is one token. -/
structure Reads (quote : UInt8) (content : List UInt8) : Prop where
  isQuote : quote = singleQuote ∨ quote = doubleQuote
  body : Body quote content
  uninterpolated : quote = doubleQuote → ∀ behind, scan DoubleQuote.isStartOfIdentifier
    (content ++ doubleQuote :: behind) false = (content.length, .quote)

/-- What is read behind the first quote. -/
def readBehind (quote : UInt8) (rest : List UInt8) (length : ℕ) : Option (TokenKind × ℕ) :=
  if quote = singleQuote then some (readLiteralLoop singleQuote rest length)
  else literalOf length (scan DoubleQuote.isStartOfIdentifier rest false)

theorem drop_behind (mark rest : List UInt8) (quote : UInt8) :
    (mark ++ quote :: rest).drop (mark.length + 1) = rest := by
  rw [List.append_cons, List.drop_left']
  rw [List.length_append, List.length_singleton]

theorem readLiteralString_behind (mark rest : List UInt8) :
    readLiteralString (mark ++ singleQuote :: rest) singleQuote mark.length =
      readLiteralLoop singleQuote rest (mark.length + 1) := by
  rw [readLiteralString, drop_behind]

theorem readLiteralDoubleQuoteString_behind (mark rest : List UInt8) :
    readLiteralDoubleQuoteString (mark ++ doubleQuote :: rest) mark.length =
      literalOf (mark.length + 1) (scan DoubleQuote.isStartOfIdentifier rest false) := by
  have hlength : mark.length + 1 ≤ (mark ++ doubleQuote :: rest).length := by
    rw [List.length_append, List.length_cons]
    omega
  rw [readLiteralDoubleQuoteString, DoubleQuote.readLoop_eq _ hlength, drop_behind]

variable {interpolating : Bool} {varOffsetDepth : ℕ}

theorem readStringToken_eq {mark : List UInt8} (hmark : Marks interpolating varOffsetDepth mark)
    {quote : UInt8} (hquote : quote = singleQuote ∨ quote = doubleQuote) (rest : List UInt8) :
    readStringToken interpolating varOffsetDepth (mark ++ quote :: rest) =
      readBehind quote rest (mark.length + 1) := by
  have hmarked (b : UInt8) (hb : b = byte 'b' ∨ b = byte 'B') :
      b ≠ singleQuote ∧ b ≠ doubleQuote := by
    rcases hb with rfl | rfl <;> decide
  rcases hmark with rfl | ⟨hdepth, hplain, hmark⟩
  · rcases hquote with rfl | rfl
    · exact congrArg some (readLiteralString_behind [] rest)
    · exact readLiteralDoubleQuoteString_behind [] rest
  · obtain ⟨b, hb, rfl⟩ : ∃ b, (b = byte 'b' ∨ b = byte 'B') ∧ mark = [b] := by
      rcases hmark with hmark | hmark
      · exact ⟨_, .inl rfl, hmark⟩
      · exact ⟨_, .inr rfl, hmark⟩
    obtain ⟨hsingle, hdouble⟩ := hmarked b hb
    rw [List.singleton_append, readStringToken, if_neg hsingle, if_neg hdouble,
      if_pos ⟨hdepth, hplain, hb⟩]
    rcases hquote with rfl | rfl
    · exact congrArg some (readLiteralString_behind [b] rest)
    · exact readLiteralDoubleQuoteString_behind [b] rest

theorem exists_of_readStringToken {bytes : List UInt8} {token : TokenKind × ℕ}
    (h : readStringToken interpolating varOffsetDepth bytes = some token) :
    ∃ mark quote rest, bytes = mark ++ quote :: rest ∧ Marks interpolating varOffsetDepth mark ∧
      (quote = singleQuote ∨ quote = doubleQuote) := by
  match bytes with
  | [] => cases h
  | b :: rest =>
    have hmark (hb : varOffsetDepth = 0 ∧ interpolating = false ∧ (b = byte 'b' ∨ b = byte 'B')) :
        Marks interpolating varOffsetDepth [b] :=
      .inr ⟨hb.1, hb.2.1, hb.2.2.imp (congrArg fun b => [b]) (congrArg fun b => [b])⟩
    rw [readStringToken] at h
    split_ifs at h with hsingle hdouble hb hfirst hsecond
    · exact ⟨[], b, rest, rfl, .inl rfl, .inl hsingle⟩
    · exact ⟨[], b, rest, rfl, .inl rfl, .inr hdouble⟩
    · obtain ⟨behind, rfl⟩ := List.head?_eq_some_iff.mp hfirst
      exact ⟨[b], singleQuote, behind, rfl, hmark hb, .inl rfl⟩
    · obtain ⟨behind, rfl⟩ := List.head?_eq_some_iff.mp hsecond
      exact ⟨[b], doubleQuote, behind, rfl, hmark hb, .inr rfl⟩

theorem Reads.token {quote : UInt8} {content : List UInt8} (h : Reads quote content)
    {mark : List UInt8} (hmark : Marks interpolating varOffsetDepth mark) (behind : List UInt8) :
    readStringToken interpolating varOffsetDepth (mark ++ quote :: (content ++ quote :: behind)) =
      some (.literalString, mark.length + content.length + 2) := by
  rw [readStringToken_eq hmark h.isQuote]
  have hlength : mark.length + 1 + content.length + 1 = mark.length + content.length + 2 := by
    omega
  rcases h.isQuote with rfl | rfl
  · rw [readBehind, if_pos rfl, readLiteralLoop_body (by decide) h.body, hlength]
  · rw [readBehind, if_neg (by decide), h.uninterpolated rfl, literalOf, hlength]

theorem exists_reads {bytes : List UInt8} {length : ℕ}
    (h : readStringToken interpolating varOffsetDepth bytes = some (.literalString, length)) :
    ∃ mark quote content behind, bytes = mark ++ quote :: (content ++ quote :: behind) ∧
      Marks interpolating varOffsetDepth mark ∧ Reads quote content ∧
      length = mark.length + content.length + 2 := by
  obtain ⟨mark, quote, rest, rfl, hmark, hquote⟩ := exists_of_readStringToken h
  rw [readStringToken_eq hmark hquote, readBehind] at h
  rcases hquote with rfl | rfl
  · rw [if_pos rfl] at h
    obtain ⟨content, behind, rfl, hbody, hlength⟩ :=
      exists_body_of_readLiteralLoop (by decide) (Option.some.inj h)
    refine ⟨mark, singleQuote, content, behind, rfl, hmark, ⟨.inl rfl, hbody, ?_⟩, by omega⟩
    exact fun hdouble => absurd hdouble (by decide)
  · rw [if_neg (by decide)] at h
    cases hscan : scan DoubleQuote.isStartOfIdentifier rest false with
    | mk k stop =>
      rw [hscan] at h
      cases stop with
      | untilOffset => cases h
      | brace => cases h
      | eof => cases h
      | quote =>
        obtain ⟨content, behind, rfl, hbody, hk⟩ := exists_body_of_scan hscan
        have hlength : mark.length + 1 + k + 1 = length := (Prod.mk.inj (Option.some.inj h)).2
        subst hk
        refine ⟨mark, doubleQuote, content, behind, rfl, hmark, ⟨.inr rfl, hbody, ?_⟩, by omega⟩
        exact fun _ behind' => scan_behind hbody hscan behind'

end Mago.Syntax.StringToken
