import Mago.Phpdoc.Lexer

/-!
# Docblock tokens tile the comment

Every reader advances, so the tokens tile the input. A reader that does not close the comment
stops before its marker: most of them read no star at all, text and line comments look for the
marker, and a string ends with its quote.
-/
namespace Mago.Phpdoc
open Mago.Library Mago.Syntax

/-- The bytes up to a length are there and none of them is a star. -/
def StarFree (bytes : List UInt8) (length : ℕ) : Prop :=
  ∀ i < length, ∃ b, bytes[i]? = some b ∧ b ≠ byte '*'

/-- A star and a slash. -/
def MarkerAt (bytes : List UInt8) (i : ℕ) : Prop :=
  bytes[i]? = some (byte '*') ∧ bytes[i + 1]? = some (byte '/')

section StarFree

variable {bytes : List UInt8} {m n i : ℕ} {b : UInt8} {rest : List UInt8}

theorem StarFree.zero : StarFree bytes 0 := by
  intro i hi
  omega

theorem StarFree.cons (hb : b ≠ byte '*') (hn : StarFree rest n) : StarFree (b :: rest) (n + 1) := by
  intro i hi
  cases i with
  | zero => exact ⟨b, rfl, hb⟩
  | succ i => exact hn i (by omega)

theorem StarFree.append (hm : StarFree bytes m) (hn : StarFree (bytes.drop m) n) :
    StarFree bytes (m + n) := by
  intro i hi
  by_cases him : i < m
  · exact hm i him
  · obtain ⟨b, hb, hne⟩ := hn (i - m) (by omega)
    rw [List.getElem?_drop, Nat.add_sub_cancel' (by omega)] at hb
    exact ⟨b, hb, hne⟩

theorem StarFree.takeWhile {p : UInt8 → Bool} (hp : p (byte '*') = false) (bytes : List UInt8) :
    StarFree bytes (bytes.takeWhile p).length := by
  induction bytes with
  | nil => exact .zero
  | cons b rest ih =>
    rw [List.takeWhile_cons]
    split_ifs with hb
    · refine .cons ?_ ih
      intro heq
      rw [heq, hp] at hb
      cases hb
    · exact .zero

theorem StarFree.le_marker (h : StarFree bytes n) (hmarker : MarkerAt bytes i) : n ≤ i := by
  by_contra hlt
  obtain ⟨b, hb, hne⟩ := h i (by omega)
  rw [hmarker.1] at hb
  exact hne (Option.some.inj hb).symm

theorem StarFree.getElem (h : bytes[m]? = some b) (hb : b ≠ byte '*') :
    StarFree (bytes.drop m) 1 := by
  intro i hi
  obtain rfl : i = 0 := by omega
  exact ⟨b, by rw [List.getElem?_drop, Nat.add_zero, h], hb⟩

theorem StarFree.getElem_any {p : UInt8 → Bool} (h : (bytes[m]?).any p = true)
    (hp : p (byte '*') = false) : StarFree (bytes.drop m) 1 := by
  obtain ⟨b, hb, hpb⟩ := (Option.any_eq_true _ _).mp h
  refine StarFree.getElem hb ?_
  intro heq
  rw [heq, hp] at hpb
  cases hpb

/-- Bytes that agree with a text without stars. -/
theorem StarFree.of_take {text : List UInt8} (h : bytes.take n = text) (hlength : text.length = n)
    (htext : byte '*' ∉ text) : StarFree bytes n := by
  intro i hi
  obtain ⟨b, hb⟩ : ∃ b, text[i]? = some b :=
    Option.isSome_iff_exists.mp (by simpa [hlength] using hi)
  refine ⟨b, ?_, ?_⟩
  · rw [← List.getElem?_take_of_lt hi, h, hb]
  · rintro rfl
    exact htext (List.mem_of_getElem? hb)

theorem MarkerAt.tail {b : UInt8} {rest : List UInt8} (h : MarkerAt (b :: rest) (i + 1)) :
    MarkerAt rest i := h

theorem MarkerAt.drop {k : ℕ} (h : MarkerAt bytes i) (hk : k ≤ i) :
    MarkerAt (bytes.drop k) (i - k) := by
  constructor
  · rw [List.getElem?_drop, Nat.add_sub_cancel' hk]
    exact h.1
  · rw [List.getElem?_drop, show k + (i - k + 1) = i + 1 by omega]
    exact h.2

theorem MarkerAt.of_drop (h : MarkerAt (bytes.drop m) i) : MarkerAt bytes (m + i) := by
  obtain ⟨hstar, hslash⟩ := h
  rw [List.getElem?_drop] at hstar hslash
  exact ⟨hstar, hslash⟩

theorem MarkerAt.ne_star (h : MarkerAt bytes i) (hb : bytes[m]? = some b) (hne : b ≠ byte '*') :
    m ≠ i := by
  rintro rfl
  exact hne (Option.some.inj (hb.symm.trans h.1))

theorem MarkerAt.ne_slash (h : MarkerAt bytes i) (hb : bytes[m]? = some b) (hne : b ≠ byte '/') :
    m ≠ i + 1 := by
  rintro rfl
  exact hne (Option.some.inj (hb.symm.trans h.2))

end StarFree

section Readers

variable {bytes remaining : List UInt8} {i : ℕ}

theorem readDigitsWith_starFree {isDigit : UInt8 → Bool} (hstar : isDigit (byte '*') = false) :
    StarFree bytes (readDigitsWith isDigit bytes) := by
  induction bytes using readDigitsWith.induct isDigit with
  | case1 => exact .zero
  | case2 b rest hb ih =>
    rw [readDigitsWith.eq_def]
    simp only [if_pos hb]
    refine .cons ?_ ih
    rintro rfl
    rw [hstar] at hb
    cases hb
  | case3 b hb =>
    rw [readDigitsWith.eq_def]
    simp only [if_neg hb]
    exact .zero
  | case4 b hb next rest hsep ih =>
    rw [readDigitsWith.eq_def]
    simp only [if_neg hb, if_pos hsep]
    refine .cons ?_ (.cons ?_ ih)
    · rw [hsep.1]
      decide
    · rintro rfl
      rw [hstar] at hsep
      cases hsep.2
  | case5 b hb next rest hsep =>
    rw [readDigitsWith.eq_def]
    simp only [if_neg hb, if_neg hsep]
    exact .zero

theorem readDigitsOfBase_starFree (base : ℕ) : StarFree bytes (readDigitsOfBase base bytes) := by
  unfold readDigitsOfBase
  split_ifs
  · exact readDigitsWith_starFree (by decide)
  · exact readDigitsWith_starFree (by simp [byte])

theorem identifierTail_starFree (bytes : List UInt8) : StarFree bytes (identifierTail bytes).1 := by
  induction bytes with
  | nil => exact .zero
  | cons b rest ih =>
    unfold identifierTail
    split_ifs with hpart
    · refine .cons ?_ ih
      rintro rfl
      exact absurd hpart (by decide)
    · exact .zero
    · exact .zero

/-- After a separator comes the start of an identifier. -/
theorem identifierTail_separator (h : (identifierTail bytes).2 = true) :
    bytes[(identifierTail bytes).1]? = some (byte '\\') ∧
      (bytes[(identifierTail bytes).1 + 1]?).any isStartOfIdentifier = true := by
  induction bytes with
  | nil => cases h
  | cons b rest ih =>
    unfold identifierTail at h ⊢
    split_ifs at h ⊢ with hpart hsep
    · exact ih h
    · exact ⟨by simp [hsep], by simpa [List.head?_eq_getElem?] using h⟩

theorem scanIdentifier_starFree (h : StarFree bytes 1) :
    StarFree bytes (scanIdentifier bytes).1 := by
  cases bytes with
  | nil => exact .zero
  | cons b rest =>
    obtain ⟨c, hc, hne⟩ := h 0 (by omega)
    obtain rfl : b = c := by simpa using hc
    exact .cons hne (identifierTail_starFree rest)

theorem scanIdentifier_separator (h : (scanIdentifier bytes).2 = true) :
    bytes[(scanIdentifier bytes).1]? = some (byte '\\') ∧
      (bytes[(scanIdentifier bytes).1 + 1]?).any isStartOfIdentifier = true := by
  cases bytes with
  | nil => cases h
  | cons b rest => exact identifierTail_separator h

end Readers

namespace DocblockLexer

variable {bytes remaining : List UInt8} {i : ℕ}

theorem hyphenRun_starFree (bytes : List UInt8) : StarFree bytes (hyphenRun bytes) := by
  induction bytes with
  | nil => exact .zero
  | cons b rest ih =>
    unfold hyphenRun
    split_ifs with hb
    · refine .cons ?_ ih
      rw [hb.1]
      decide
    · exact .zero

/-- An identifier has no star when its first byte is none. -/
theorem readIdentifier_starFree (h : StarFree remaining 1) :
    StarFree remaining (readIdentifier remaining) := by
  induction remaining using readIdentifier.induct with
  | case1 remaining segment hsep ih =>
    have hscan : StarFree remaining segment.1 := scanIdentifier_starFree h
    obtain ⟨hseparator, hstart⟩ := scanIdentifier_separator hsep
    have hnext : StarFree (remaining.drop (segment.1 + 1)) 1 :=
      .getElem_any hstart (by decide)
    unfold readIdentifier
    rw [dif_pos hsep]
    exact (hscan.append (.getElem hseparator (by decide))).append (ih hnext)
  | case2 remaining segment hsep hyphens hgo ih =>
    have hscan : StarFree remaining segment.1 := scanIdentifier_starFree h
    have hnext : StarFree (remaining.drop (segment.1 + hyphens)) 1 :=
      .getElem_any hgo.2 (by decide)
    unfold readIdentifier
    rw [dif_neg hsep, dif_pos hgo]
    exact (hscan.append (hyphenRun_starFree _)).append (ih hnext)
  | case3 remaining segment hsep hyphens hgo =>
    have hscan : StarFree remaining segment.1 := scanIdentifier_starFree h
    unfold readIdentifier
    rw [dif_neg hsep, dif_neg hgo]
    exact hscan.append (hyphenRun_starFree _)

theorem readVariable_starFree {token : TokenKind × ℕ} (hfirst : StarFree remaining 1)
    (h : readVariable remaining = some token) : StarFree remaining token.2 := by
  unfold readVariable at h
  split_ifs at h with hthis hname
  · cases h
    exact .of_take hthis.1 (by decide) (by decide)
  · cases h
    exact hfirst.append (scanIdentifier_starFree (.getElem_any hname (by decide)))

theorem readTag_starFree {token : TokenKind × ℕ} (hfirst : StarFree remaining 1)
    (h : readTag remaining = some token) : StarFree remaining token.2 := by
  have hname : StarFree remaining (1 + scanWhile tagTable (remaining.drop 1)) :=
    hfirst.append (.takeWhile (by decide) _)
  unfold readTag at h
  dsimp only at h
  split_ifs at h with halphabetic hcolon
  · cases h
    refine hname.append ?_
    refine StarFree.append (.getElem hcolon.1 (by decide)) ?_
    rw [List.drop_drop]
    exact .takeWhile (by decide) _
  · cases h
    exact hname

theorem fractionEnd_starFree {length : ℕ} (h : StarFree remaining length) :
    StarFree remaining (fractionEnd remaining length) := by
  unfold fractionEnd
  split_ifs with hfraction
  · exact (h.append (.getElem hfraction.1 (by decide))).append (readDigitsOfBase_starFree 10)
  · exact h

theorem exponentEnd_starFree {length : ℕ} (h : StarFree remaining length) :
    StarFree remaining (exponentEnd remaining length) := by
  unfold exponentEnd
  dsimp only
  split_ifs with hletter hsign hdigit hdigit
  · have hmark : StarFree remaining (length + 1) := h.append (.getElem_any hletter (by decide))
    have hexponent : StarFree remaining (length + 2) :=
      hmark.append (.getElem_any hsign (by decide))
    exact hexponent.append (readDigitsOfBase_starFree 10)
  · exact h
  · have hmark : StarFree remaining (length + 1) := h.append (.getElem_any hletter (by decide))
    exact hmark.append (readDigitsOfBase_starFree 10)
  · exact h
  · exact h

theorem readDecimal_starFree (remaining : List UInt8) :
    StarFree remaining (readDecimal remaining).2 :=
  exponentEnd_starFree (fractionEnd_starFree (readDigitsOfBase_starFree 10))

theorem basePrefix_starFree {base : ℕ} (h : basePrefix remaining = some base) :
    StarFree remaining 2 := by
  unfold basePrefix at h
  split_ifs at h with hzero
  obtain ⟨b, hb, hbase⟩ := Option.bind_eq_some_iff.mp h
  have hne : b ≠ byte '*' := by
    rintro rfl
    simp [byte, byteString] at hbase
  have hfirst : StarFree remaining 1 := by
    simpa using StarFree.getElem hzero (by decide)
  exact hfirst.append (.getElem hb hne)

theorem readNumber_starFree (remaining : List UInt8) :
    StarFree remaining (readNumber remaining).2 := by
  unfold readNumber
  split
  case h_1 base hbase =>
    dsimp only
    split_ifs
    · exact (basePrefix_starFree hbase).append (readDigitsOfBase_starFree base)
    · exact readDecimal_starFree remaining
  case h_2 => exact readDecimal_starFree remaining

section Marker

variable {kind : TokenKind} {length : ℕ}

theorem getElem?_of_lt_starRun (h : i < starRun bytes) : bytes[i]? = some (byte '*') := by
  induction bytes generalizing i with
  | nil => cases h
  | cons b rest ih =>
    rw [starRun, List.takeWhile_cons] at h
    split_ifs at h with hb
    · cases i with
      | zero => simpa using hb
      | succ i => exact ih (Nat.lt_of_succ_lt_succ h)
    · cases h

theorem isClosingMarker_of_markerAt (h : MarkerAt bytes 0) : isClosingMarker bytes = true := by
  obtain ⟨hstar, hslash⟩ := h
  cases bytes with
  | nil => cases hstar
  | cons b rest =>
    cases rest with
    | nil => cases hslash
    | cons c rest =>
      obtain rfl : b = byte '*' := by simpa using hstar
      obtain rfl : c = byte '/' := by simpa using hslash
      have hrun : starRun (byte '*' :: byte '/' :: rest) = 1 := by
        rw [starRun, List.takeWhile_cons, if_pos (by decide), List.takeWhile_cons,
          if_neg (by decide)]
        rfl
      rw [isClosingMarker, hrun]
      simp

/-- Text stops before a marker. -/
theorem otherLength_le (h : MarkerAt bytes i) : otherLength bytes ≤ i := by
  induction bytes generalizing i with
  | nil => exact Nat.zero_le _
  | cons b rest ih =>
    unfold otherLength
    split_ifs with hstop hmarker
    · exact Nat.zero_le _
    · exact Nat.zero_le _
    · cases i with
      | zero =>
        have hb : b = byte '*' := by simpa using h.1
        exact absurd ⟨hb, isClosingMarker_of_markerAt h⟩ hmarker
      | succ i => exact Nat.succ_le_succ (ih h.tail)

theorem findMarker_le (h : MarkerAt bytes i) : ∃ m ≤ i, findMarker bytes = some m := by
  induction bytes generalizing i with
  | nil => cases h.1
  | cons b rest ih =>
    unfold findMarker
    split_ifs with hb
    · exact ⟨0, Nat.zero_le _, rfl⟩
    · cases i with
      | zero =>
        refine absurd ⟨by simpa using h.1, ?_⟩ hb
        have hslash := h.2
        rw [List.getElem?_cons_succ] at hslash
        rw [List.head?_eq_getElem?, hslash]
      | succ i =>
        obtain ⟨m, hm, hfind⟩ := ih h.tail
        exact ⟨m + 1, by omega, by rw [hfind]; rfl⟩

theorem beforeStars_le (bytes : List UInt8) (m : ℕ) : beforeStars bytes m ≤ m := by
  induction m with
  | zero => exact le_rfl
  | succ m ih =>
    unfold beforeStars
    split_ifs
    · omega
    · exact le_rfl

theorem readLineComment_le (h : MarkerAt remaining i) (hi : 2 ≤ i) :
    (readLineComment remaining).2 ≤ i := by
  obtain ⟨m, hm, hfind⟩ := findMarker_le (h.drop hi)
  have hbefore := beforeStars_le (remaining.drop 2) m
  unfold readLineComment
  dsimp only
  rw [hfind, Option.map_some]
  cases findNewline (remaining.drop 2) with
  | none =>
    show 2 + beforeStars _ m ≤ i
    omega
  | some newline =>
    show 2 + min newline (beforeStars _ m) ≤ i
    omega

/-- A string that is closed ends with its quote. -/
theorem stringLength_quote {quote : UInt8} {length : ℕ} (h : stringLength quote bytes = some length) :
    0 < length ∧ bytes[length - 1]? = some quote := by
  fun_induction stringLength quote bytes generalizing length with
  | case1 => cases h
  | case2 => cases h
  | case3 tail stop hstop hline hquote =>
    cases h
    exact ⟨Nat.succ_pos stop, hquote⟩
  | case4 => cases h
  | case5 tail stop hstop hline hquote hnext ih =>
    obtain ⟨n, hn, rfl⟩ := Option.map_eq_some_iff.mp h
    obtain ⟨hpos, hlast⟩ := ih hn
    refine ⟨by omega, ?_⟩
    rw [List.getElem?_drop] at hlast
    rw [← hlast]
    congr 1
    omega

theorem readPartial_le (h : MarkerAt remaining i) (hi : 1 ≤ i) {quote : UInt8}
    (hopen : stringLength quote (remaining.drop 1) = none) : (readString quote remaining).2 ≤ i := by
  obtain ⟨m, hm, hfind⟩ := findMarker_le (h.drop hi)
  have hbefore := beforeStars_le (remaining.drop 1) m
  unfold readString
  rw [hopen]
  dsimp only
  rw [hfind]
  show 1 + min _ (beforeStars _ m) ≤ i
  omega

theorem readString_le (h : MarkerAt remaining i) (hi : 1 ≤ i) (hend : i + 2 = remaining.length)
    {quote : UInt8} (hstar : quote ≠ byte '*') (hslash : quote ≠ byte '/') :
    (readString quote remaining).2 ≤ i := by
  cases hopen : stringLength quote (remaining.drop 1) with
  | none => exact readPartial_le h hi hopen
  | some length =>
    obtain ⟨hpos, hlast⟩ := stringLength_quote hopen
    rw [List.getElem?_drop, Nat.add_sub_cancel' hpos] at hlast
    have hlt : length < remaining.length := (List.getElem?_eq_some_iff.mp hlast).1
    have hne : length ≠ i := h.ne_star hlast hstar
    have hne' : length ≠ i + 1 := h.ne_slash hlast hslash
    unfold readString
    rw [hopen]
    show 1 + length ≤ i
    omega

theorem readOther_le (h : MarkerAt remaining i) (hi : 1 ≤ i) : (readOther remaining).2 ≤ i := by
  have := otherLength_le h
  show max (otherLength remaining) 1 ≤ i
  omega

theorem openingMarker_le (h : MarkerAt remaining i) (hfirst : remaining[0]? = some (byte '/'))
    (hopening : remaining.take 3 = byteString "/**" ∧
      (remaining[3]?).any isAsciiWhitespace = true) : 4 ≤ i := by
  obtain ⟨b, hb, hspace⟩ := (Option.any_eq_true _ _).mp hopening.2
  have hstar : remaining[2]? = some (byte '*') := by
    rw [← List.getElem?_take_of_lt (by omega : 2 < 3), hopening.1]
    rfl
  have hbstar : b ≠ byte '*' := by
    rintro rfl
    exact absurd hspace (by decide)
  have hbslash : b ≠ byte '/' := by
    rintro rfl
    exact absurd hspace (by decide)
  have hzero : 0 ≠ i := h.ne_star hfirst (by decide)
  have htwo : 2 ≠ i + 1 := h.ne_slash hstar (by decide)
  have hthree : 3 ≠ i := h.ne_star hb hbstar
  have hthree' : 3 ≠ i + 1 := h.ne_slash hb hbslash
  omega

theorem readSlash_le (lexer : DocblockLexer) (h : MarkerAt remaining i)
    (hfirst : remaining[0]? = some (byte '/')) : (lexer.readSlash remaining).2 ≤ i := by
  have hzero : 0 ≠ i := h.ne_star hfirst (by decide)
  unfold readSlash
  split_ifs with hcomment hopening hspace
  · have hone : 1 ≠ i := h.ne_star hcomment.1 (by decide)
    exact readLineComment_le h (by omega)
  · have := openingMarker_le h hfirst hopening
    exact this
  · have := openingMarker_le h hfirst hopening
    exact Nat.le_of_succ_le this
  · exact readOther_le h (by omega)

/-- Without a marker before the last one, a run of stars in front of a slash ends the input. -/
theorem readAsterisk_stops (h : MarkerAt remaining i)
    (honly : ∀ j, MarkerAt remaining j → j + 2 = remaining.length)
    (hfirst : remaining[0]? = some (byte '*')) :
    (readAsterisk remaining).1 = .closingMarker ∧ (readAsterisk remaining).2 = remaining.length ∨
      (readAsterisk remaining).2 ≤ i := by
  unfold readAsterisk
  split_ifs with hslash
  · have hpos : starRun remaining ≠ 0 := by
      intro hzero
      rw [hzero, hfirst] at hslash
      exact absurd hslash (by decide)
    have hmarker : MarkerAt remaining (starRun remaining - 1) := by
      refine ⟨getElem?_of_lt_starRun (by omega), ?_⟩
      rw [Nat.sub_add_cancel (by omega)]
      exact hslash
    have hlast := honly _ hmarker
    exact .inl ⟨rfl, show starRun remaining + 1 = remaining.length by omega⟩
  · refine .inr ?_
    by_contra hlt
    obtain rfl : i = 0 := by omega
    exact hslash (by simpa [isClosingMarker] using isClosingMarker_of_markerAt h)

section Dispatch

variable {first : UInt8} {rest : List UInt8}

/-- A token that does not start with a star stops before a marker. -/
theorem readToken_le (lexer : DocblockLexer) (hne : first ≠ byte '*')
    (h : MarkerAt (first :: rest) i) (hend : i + 2 = (first :: rest).length) :
    (lexer.readToken first (first :: rest)).2 ≤ i := by
  have hone : StarFree (first :: rest) 1 := StarFree.cons hne .zero
  have hi : 1 ≤ i := hone.le_marker h
  have hother : (readOther (first :: rest)).2 ≤ i := readOther_le h hi
  have hpair {c : Char} (hc : (first :: rest)[1]? = some (byte c)) (hstar : byte c ≠ byte '*') :
      2 ≤ i := (hone.append (.getElem hc hstar)).le_marker h
  unfold readToken
  dsimp only
  split
  case h_14 =>
    split_ifs with hcolon
    · exact hpair hcolon (by decide)
    · exact hi
  case h_15 =>
    split_ifs with harrow
    · exact hpair harrow (by decide)
    · exact hi
  case h_16 hchar => exact absurd (eq_byte_of_char hchar) hne
  case h_17 =>
    split_ifs with hellipsis hdigit
    · exact (StarFree.of_take hellipsis (by decide) (by decide)).le_marker h
    · exact (readNumber_starFree _).le_marker h
    · exact hother
  case h_18 =>
    split_ifs with harrow
    · exact hpair harrow (by decide)
    · exact hi
  case h_20 => exact (StarFree.takeWhile (by decide) _).le_marker h
  case h_21 hchar =>
    split_ifs
    · exact readSlash_le lexer h (congrArg some (eq_byte_of_char hchar))
    · exact hother
  case h_22 hchar =>
    split_ifs
    · exact readString_le h hi hend hne (by rw [eq_byte_of_char hchar]; decide)
    · exact hother
  case h_23 hchar =>
    split_ifs
    · exact readString_le h hi hend hne (by rw [eq_byte_of_char hchar]; decide)
    · exact hother
  case h_24 =>
    cases hread : readVariable (first :: rest) with
    | none => exact hother
    | some token => exact (readVariable_starFree hone hread).le_marker h
  case h_25 =>
    cases hread : readTag (first :: rest) with
    | none => exact hother
    | some token => exact (readTag_starFree hone hread).le_marker h
  case h_26 =>
    split_ifs
    · exact (readIdentifier_starFree hone).le_marker h
    · exact hother
  case h_27 =>
    split_ifs
    · exact (readNumber_starFree _).le_marker h
    · exact (readIdentifier_starFree hone).le_marker h
    · exact hother
  all_goals exact hi

end Dispatch

end Marker

section Progress

variable {first : UInt8} {rest : List UInt8} {length : ℕ}

theorem le_fractionEnd : length ≤ fractionEnd remaining length := by
  unfold fractionEnd
  split_ifs <;> omega

theorem le_exponentEnd : length ≤ exponentEnd remaining length := by
  unfold exponentEnd
  dsimp only
  split_ifs <;> omega

theorem readNumber_pos (h : isAsciiDigit first = true ∨
    first = byte '.' ∧ ((first :: rest)[1]?).any isAsciiDigit = true) :
    0 < (readNumber (first :: rest)).2 := by
  have hdecimal : 0 < (readDecimal (first :: rest)).2 := by
    refine Nat.lt_of_lt_of_le ?_ le_exponentEnd
    rcases h with h | ⟨rfl, hdigit⟩
    · exact Nat.lt_of_lt_of_le (readDigitsOfBase_ten_pos h) le_fractionEnd
    · rw [readDigitsOfBase_ten_point, fractionEnd, if_pos ⟨rfl, hdigit⟩]
      omega
  unfold readNumber
  split
  · dsimp only
    split_ifs
    · exact Nat.add_pos_left (by omega) _
    · exact hdecimal
  · exact hdecimal

theorem readIdentifier_pos : 0 < readIdentifier (first :: rest) := by
  unfold readIdentifier
  dsimp only
  have hsegment : 0 < (scanIdentifier (first :: rest)).1 := Nat.succ_pos _
  split_ifs <;> omega

theorem readOther_pos : 0 < (readOther remaining).2 :=
  Nat.lt_of_lt_of_le Nat.one_pos (Nat.le_max_right _ _)

theorem readString_pos {quote : UInt8} : 0 < (readString quote remaining).2 := by
  unfold readString
  split <;> exact Nat.add_pos_left Nat.one_pos _

theorem readVariable_pos {token : TokenKind × ℕ} (h : readVariable remaining = some token) :
    0 < token.2 := by
  unfold readVariable at h
  split_ifs at h
  · cases h
    exact Nat.succ_pos _
  · cases h
    exact Nat.add_pos_left Nat.one_pos _

theorem readTag_pos {token : TokenKind × ℕ} (h : readTag remaining = some token) :
    0 < token.2 := by
  unfold readTag at h
  dsimp only at h
  split_ifs at h
  · cases h
    exact Nat.add_pos_right _ (Nat.add_pos_left Nat.one_pos _)
  · cases h
    exact Nat.add_pos_left Nat.one_pos _

/-- Every token has a length. -/
theorem readToken_pos (lexer : DocblockLexer) : 0 < (lexer.readToken first (first :: rest)).2 := by
  unfold readToken
  dsimp only
  split
  case h_14 => split_ifs <;> exact Nat.succ_pos _
  case h_15 => split_ifs <;> exact Nat.succ_pos _
  case h_16 =>
    unfold readAsterisk
    split_ifs <;> exact Nat.succ_pos _
  case h_17 hchar =>
    split_ifs with hellipsis hdigit
    · exact Nat.succ_pos _
    · exact readNumber_pos (.inr ⟨eq_byte_of_char hchar, hdigit⟩)
    · exact readOther_pos
  case h_18 => split_ifs <;> exact Nat.succ_pos _
  case h_20 hchar =>
    have hfirst : decide (first = byte '\x60') = true := decide_eq_true (eq_byte_of_char hchar)
    rw [scanWhile, List.takeWhile_cons, if_pos hfirst]
    exact Nat.succ_pos _
  case h_21 =>
    split_ifs
    · unfold readSlash
      split_ifs
      · exact Nat.add_pos_left (by omega) _
      · exact Nat.succ_pos _
      · exact Nat.succ_pos _
      · exact readOther_pos
    · exact readOther_pos
  case h_22 =>
    split_ifs
    · exact readString_pos
    · exact readOther_pos
  case h_23 =>
    split_ifs
    · exact readString_pos
    · exact readOther_pos
  case h_24 =>
    cases hread : readVariable (first :: rest) with
    | none => exact readOther_pos
    | some token => exact readVariable_pos hread
  case h_25 =>
    cases hread : readTag (first :: rest) with
    | none => exact readOther_pos
    | some token => exact readTag_pos hread
  case h_26 =>
    split_ifs
    · exact readIdentifier_pos
    · exact readOther_pos
  case h_27 =>
    split_ifs with hdigit
    · exact readNumber_pos (.inl hdigit)
    · exact readIdentifier_pos
    · exact readOther_pos
  all_goals exact Nat.succ_pos _

end Progress

section Advance

variable {lexer next : DocblockLexer} {token : Token}

/-- What a call that returns a token does. -/
theorem advance_some (h : lexer.advance = (some token, next)) :
    lexer.input.hasReachedEof = false ∧ ∃ count, 0 < count ∧ next.input = lexer.input.skip count ∧
      token.start = lexer.input.currentPosition ∧
      token.value = slice lexer.input.bytes lexer.input.offset next.input.offset ∧
      (token.kind = .whitespace ∧
          count = (lexer.input.readRemaining.takeWhile whitespaceTable).length ∨
        ∃ first rest, lexer.input.readRemaining = first :: rest ∧
          lexer.readToken first (first :: rest) = (token.kind, count)) := by
  cases heof : lexer.input.hasReachedEof with
  | true =>
    rw [advance, if_pos heof] at h
    cases h
  | false =>
    refine ⟨rfl, ?_⟩
    rw [advance, if_neg (by rw [heof]; decide)] at h
    dsimp only at h
    by_cases hspace : lexer.input.consumeWhitespaces.1 = []
    · rw [if_neg (by simpa using hspace)] at h
      split at h
      case h_1 => cases h
      case h_2 first rest hremaining =>
        cases h
        exact ⟨_, readToken_pos lexer, rfl, rfl, rfl, .inr ⟨first, rest, hremaining, rfl⟩⟩
    · rw [if_pos hspace] at h
      cases h
      refine ⟨_, ?_, rfl, rfl, rfl, .inl ⟨rfl, rfl⟩⟩
      rw [List.length_pos_iff]
      intro hnil
      rw [Input.consumeWhitespaces, hnil] at hspace
      exact hspace (Input.consume_zero _)

theorem advance_none (h : lexer.advance = (none, next)) :
    lexer.input.offset = lexer.input.bytes.length := by
  cases heof : lexer.input.hasReachedEof with
  | true => exact Input.hasReachedEof_iff.mp heof
  | false =>
    rw [advance, if_neg (by rw [heof]; decide)] at h
    dsimp only at h
    by_cases hspace : lexer.input.consumeWhitespaces.1 = []
    · rw [if_neg (by simpa using hspace)] at h
      split at h
      case h_1 hremaining =>
        have hlength : lexer.input.readRemaining.length = _ := Input.length_readRemaining
        have := lexer.input.offset_le
        rw [hremaining, List.length_nil] at hlength
        omega
      case h_2 => cases h
    · rw [if_pos hspace] at h
      cases h

end Advance

section Run

/-- `advance` as a tokenizer that never fails. -/
def tokenStep (lexer : DocblockLexer) : Option (Except Empty Token) × DocblockLexer :=
  (lexer.advance.1.map .ok, lexer.advance.2)

variable {source : List UInt8} {origin : ℕ} {lexer next : DocblockLexer} {token : Token}

theorem tokenStep_ok (h : lexer.tokenStep = (some (.ok token), next)) :
    lexer.advance = (some token, next) := by
  unfold tokenStep at h
  obtain ⟨htoken, rfl⟩ := Prod.mk.inj h
  obtain ⟨t, ht, heq⟩ := Option.map_eq_some_iff.mp htoken
  cases heq
  exact Prod.ext ht rfl

theorem tokenStep_none (h : lexer.tokenStep = (none, next)) : lexer.advance = (none, next) := by
  unfold tokenStep at h
  obtain ⟨htoken, rfl⟩ := Prod.mk.inj h
  exact Prod.ext (Option.map_eq_none_iff.mp htoken) rfl

theorem tilingStep (source : List UInt8) (origin : ℕ) :
    TilingStep tokenStep source origin Token.start Token.value (fun lexer => lexer.input.offset)
      (fun lexer => Reads source origin lexer.input) where
  cursor_le := by
    intro lexer h
    exact h.offset_le
  token := by
    intro lexer next token h hstep
    obtain ⟨heof, count, hpos, hnext, hstart, hvalue, -⟩ := advance_some (tokenStep_ok hstep)
    refine ⟨hnext ▸ h.skip count, ?_, ?_, ?_⟩
    · rw [hstart, Input.currentPosition, h.startingPosition_eq]
    · rw [hnext]
      exact Input.lt_offset_skip hpos heof
    · rw [hvalue, h.bytes_eq]
  ended := by
    intro lexer next h hstep
    rw [advance_none (tokenStep_none hstep), h.bytes_eq]

/-- A token that closes the comment covers the rest, any other one stops before the marker. -/
theorem readToken_stops (lexer : DocblockLexer) {first : UInt8} {rest : List UInt8} {i : ℕ}
    (h : MarkerAt (first :: rest) i)
    (honly : ∀ j, MarkerAt (first :: rest) j → j + 2 = (first :: rest).length) :
    (lexer.readToken first (first :: rest)).1 = .closingMarker ∧
        (lexer.readToken first (first :: rest)).2 = (first :: rest).length ∨
      (lexer.readToken first (first :: rest)).2 ≤ i := by
  by_cases hstar : first = byte '*'
  · subst hstar
    exact readAsterisk_stops h honly rfl
  · exact .inr (readToken_le lexer hstar h (honly i h))

/-- Before the marker at the end, a token stops before it or is the closing marker. -/
theorem advance_stops {i : ℕ} (h : Reads source origin lexer.input) (hi : lexer.input.offset ≤ i)
    (hmarker : MarkerAt source i) (honly : ∀ j, MarkerAt source j → j + 2 = source.length)
    (hadvance : lexer.advance = (some token, next)) :
    next.input.offset ≤ i ∨ token.kind = .closingMarker ∧ next.input.offset = source.length := by
  obtain ⟨-, count, -, hnext, -, -, hkind⟩ := advance_some hadvance
  have hremaining := h.readRemaining_eq
  have hdrop : MarkerAt lexer.input.readRemaining (i - lexer.input.offset) :=
    hremaining ▸ hmarker.drop hi
  have hlength : lexer.input.readRemaining.length = source.length - lexer.input.offset := by
    rw [hremaining, List.length_drop]
  have hend : i + 2 = source.length := honly i hmarker
  have hle : next.input.offset ≤ lexer.input.offset + count := hnext ▸ Nat.min_le_left _ _
  rcases hkind with ⟨-, rfl⟩ | ⟨first, rest, hcons, hread⟩
  · have hspace : StarFree lexer.input.readRemaining
        (lexer.input.readRemaining.takeWhile whitespaceTable).length := .takeWhile (by decide) _
    have := hspace.le_marker hdrop
    exact .inl (by omega)
  · have honlyDrop (j : ℕ) (hj : MarkerAt (first :: rest) j) : j + 2 = (first :: rest).length := by
      rw [← hcons, hremaining] at hj
      have := honly _ hj.of_drop
      rw [← hcons, hlength]
      omega
    rw [hcons] at hdrop
    rcases readToken_stops lexer hdrop honlyDrop with ⟨hclosing, hall⟩ | hstop
    · rw [hread] at hclosing hall
      refine .inr ⟨hclosing, ?_⟩
      rw [← hcons, hlength] at hall
      have hcount : lexer.input.offset + count = source.length := by
        show _ = _
        have : count = source.length - lexer.input.offset := hall
        omega
      have hbytes : lexer.input.bytes.length = source.length := h.length_eq
      rw [hnext, Input.offset_skip (by omega), hcount]
    · rw [hread] at hstop
      have : count ≤ i - lexer.input.offset := hstop
      exact .inl (by omega)

/-- Calling `advance` until it returns nothing gives tokens that tile the comment, and when the
comment has its one closing marker at the end, that is the last token. -/
theorem tokens_tile_comment (source : List UInt8) (origin : ℕ) :
    ∃ tokens : List Token,
      (∀ calls, source.length < calls →
        ∃ stopped, runTokens tokenStep calls (new (.anchoredAt source origin)) =
          some ⟨tokens, none, stopped⟩) ∧
      (∀ token ∈ tokens, token.value ≠ []) ∧
      (tokens.map Token.value).flatten = source ∧
      (∀ i token, tokens[i]? = some token →
        token.start = origin + ((tokens.take i).map fun t => t.value.length).sum) ∧
      ((∃ i, MarkerAt source i) → (∀ i, MarkerAt source i → i + 2 = source.length) →
        ∃ token, tokens.getLast? = some token ∧ token.kind = .closingMarker) := by
  have hreads : Reads source origin (new (.anchoredAt source origin)).input := ⟨rfl, rfl⟩
  have htiling := tilingStep source origin
  obtain ⟨result, hrun, hinv, htiles, hend⟩ :=
    htiling.run hreads (show source.length - 0 < source.length + 1 by omega)
  have herror : result.error = none := by
    cases herror : result.error with
    | none => rfl
    | some e => exact e.elim
  have hwhole := hend herror
  refine ⟨result.tokens, ?_, htiles.nonempty, ?_, ?_, ?_⟩
  · intro calls hcalls
    refine ⟨result.stopped, ?_⟩
    rw [runTokens_mono hrun hcalls, ← herror]
  · rw [htiles.flatten, hwhole]
    exact List.take_length
  · intro i token htoken
    have hstart := htiles.startOf_eq htoken
    rw [hstart]
    show origin + (0 + _) = _
    rw [Nat.zero_add]
  · rintro ⟨i, hmarker⟩ honly
    have hlast := honly i hmarker
    refine htiling.getLast_final (show i < source.length by omega) ?_ hreads (Nat.zero_le i) hrun
      herror
    intro lexer next token hlexer hle hstep
    exact advance_stops hlexer hle hmarker honly (tokenStep_ok hstep)

/-- The tokens of `/***/` end with its closing marker. -/
theorem tokens_tile_short : ∃ tokens : List Token,
    (tokens.map Token.value).flatten = byteString "/***/" ∧
      ∃ token, tokens.getLast? = some token ∧ token.kind = .closingMarker := by
  have honly (i : ℕ) (h : MarkerAt (byteString "/***/") i) :
      i + 2 = (byteString "/***/").length := by
    have hlt : i < 5 := (List.getElem?_eq_some_iff.mp h.1).1
    interval_cases i <;> first | rfl | exact absurd h.2 (by decide)
  obtain ⟨tokens, -, -, hvalues, -, hlast⟩ := tokens_tile_comment (byteString "/***/") 0
  exact ⟨tokens, hvalues, hlast ⟨3, by decide, by decide⟩ honly⟩

end Run

end DocblockLexer

end Mago.Phpdoc
