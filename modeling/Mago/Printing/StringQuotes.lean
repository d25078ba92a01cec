import Mago.Syntax.StringToken
import Mago.Types.LiteralKey

/-!
# The quotes of strings

The printer writes a string with the quotes that are preferred, where nothing but escaped quotes
would have to change. Its scan for the preferred quote and its rewrite each step over the byte
behind a backslash.
-/
namespace Mago.Printing
open Mago.Syntax (byte)
open Mago.Syntax.Literal
open Mago.Syntax.DoubleQuote (scan)
open Mago.Syntax.StringToken (Body Reads Marks readStringToken)
open Mago.Types.LiteralKey (LiteralString)

/-! ## Printing a string -/

inductive LiteralStringKind
  | singleQuoted
  | doubleQuoted
  deriving DecidableEq, Repr

/-- The kind that the parser gives a token. -/
def literalStringKind (raw : List UInt8) : LiteralStringKind :=
  if [doubleQuote].isPrefixOf raw || [byte 'b', doubleQuote].isPrefixOf raw ||
      [byte 'B', doubleQuote].isPrefixOf raw then .doubleQuoted
  else .singleQuoted

/-- The loop with the counts so far. -/
def preferredQuoteLoop (enclosingQuote preferredQuoteChar alternateQuoteChar : UInt8) :
    List UInt8 → ℕ → ℕ → UInt8
  | [], preferredQuoteCount, alternateQuoteCount =>
    if alternateQuoteCount < preferredQuoteCount then alternateQuoteChar else preferredQuoteChar
  | b :: rest, preferredQuoteCount, alternateQuoteCount =>
    if b = byte '$' ∧ enclosingQuote = singleQuote then enclosingQuote
    else if b = preferredQuoteChar then
      preferredQuoteLoop enclosingQuote preferredQuoteChar alternateQuoteChar rest
        (preferredQuoteCount + 1) alternateQuoteCount
    else if b = alternateQuoteChar then
      preferredQuoteLoop enclosingQuote preferredQuoteChar alternateQuoteChar rest
        preferredQuoteCount (alternateQuoteCount + 1)
    else if b = backslash then
      match rest with
      | [] => preferredQuoteLoop enclosingQuote preferredQuoteChar alternateQuoteChar []
          preferredQuoteCount alternateQuoteCount
      | next :: behind =>
        if next ≠ enclosingQuote then enclosingQuote
        else preferredQuoteLoop enclosingQuote preferredQuoteChar alternateQuoteChar behind
          preferredQuoteCount alternateQuoteCount
    else preferredQuoteLoop enclosingQuote preferredQuoteChar alternateQuoteChar rest
      preferredQuoteCount alternateQuoteCount

def getPreferredQuote (raw : List UInt8) (enclosingQuote : UInt8) (preferSingleQuote : Bool) :
    UInt8 :=
  if preferSingleQuote then preferredQuoteLoop enclosingQuote singleQuote doubleQuote raw 0 0
  else preferredQuoteLoop enclosingQuote doubleQuote singleQuote raw 0 0

/-- The text between the new quotes. -/
def requote (enclosingQuote otherQuote : UInt8) : List UInt8 → List UInt8
  | [] => []
  | b :: rest =>
    if b = backslash then
      match rest with
      | [] => [backslash]
      | next :: behind =>
        (if next ≠ otherQuote then [backslash] else []) ++
          next :: requote enclosingQuote otherQuote behind
    else if b = enclosingQuote then backslash :: b :: requote enclosingQuote otherQuote rest
    else b :: requote enclosingQuote otherQuote rest

def makeString (rawText : List UInt8) (enclosingQuote : UInt8) : List UInt8 :=
  let otherQuote := if enclosingQuote = doubleQuote then singleQuote else doubleQuote
  enclosingQuote :: (requote enclosingQuote otherQuote rawText ++ [enclosingQuote])

/-- The text has a quote at each end, maybe behind a mark. -/
def printString (preferSingleQuote : Bool) (kind : LiteralStringKind) (text : List UInt8) :
    List UInt8 :=
  let marked := [byte 'b'].isPrefixOf text || [byte 'B'].isPrefixOf text
  let mark := if marked then text.take 1 else []
  let textWithoutPrefix := if marked then text.drop 1 else text
  let quote := textWithoutPrefix.headD 0
  let rawText := (textWithoutPrefix.drop 1).take (textWithoutPrefix.length - 2)
  let enclosingQuote := getPreferredQuote rawText quote preferSingleQuote
  if kind = .singleQuoted ∧ enclosingQuote = singleQuote then text
  else if kind = .doubleQuoted ∧ enclosingQuote = doubleQuote then text
  else mark ++ makeString rawText enclosingQuote

/-! ## Contents whose only escapes are quotes -/

inductive Simple (quote : UInt8) : List UInt8 → Prop
  | nil : Simple quote []
  | plain {b : UInt8} {content : List UInt8} : b ≠ quote → b ≠ backslash → Simple quote content →
    Simple quote (b :: content)
  | quote {content : List UInt8} : Simple quote content →
    Simple quote (backslash :: quote :: content)

def unescaped (content : List UInt8) : List UInt8 := content.filter fun b => b != backslash

section Simple

variable {quote : UInt8} {content : List UInt8}

theorem Simple.body (h : Simple quote content) : Body quote content := by
  induction h with
  | nil => exact .nil
  | plain hquote hslash _ ih => exact ih.plain hquote hslash
  | quote _ ih => exact ih.escaped

theorem unescaped_cons {b : UInt8} (h : b ≠ backslash) (content : List UInt8) :
    unescaped (b :: content) = b :: unescaped content := by
  rw [unescaped, List.filter_cons_of_pos (by simpa using h), unescaped]

theorem unescaped_backslash (content : List UInt8) :
    unescaped (backslash :: content) = unescaped content := by
  rw [unescaped, List.filter_cons_of_neg (by simp), unescaped]

theorem unescaped_of_not_mem (h : backslash ∉ content) : unescaped content = content := by
  refine List.filter_eq_self.mpr fun b hb => bne_iff_ne.mpr fun hslash => h ?_
  rw [← hslash]
  exact hb

theorem escape_quote (hquote : quote = singleQuote ∨ quote = doubleQuote) (behind : List UInt8) :
    escape (some quote) quote behind = some ([quote], 0) := by
  rcases hquote with rfl | rfl <;> rfl

theorem Simple.decode (h : Simple quote content)
    (hquote : quote = singleQuote ∨ quote = doubleQuote) :
    decodeEscapes (some quote) content = some (unescaped content) := by
  have hslash : quote ≠ backslash := by
    rcases hquote with rfl | rfl <;> decide
  induction h with
  | nil => exact decodeEscapes_nil _
  | plain _ hplain _ ih =>
    rw [decodeEscapes_cons hplain, ih, unescaped_cons hplain]
    rfl
  | quote _ ih =>
    rw [decodeEscapes_escape, escape_quote hquote, Option.bind_some, List.drop_zero, ih,
      unescaped_backslash, unescaped_cons hslash]
    rfl

end Simple

/-! ## The preferred quote -/

section Preferred

variable {quote preferred alternate : UInt8} {content : List UInt8} {p a : ℕ}

theorem preferredQuoteLoop_end :
    preferredQuoteLoop quote preferred alternate [] p a =
      if a < p then alternate else preferred := rfl

/-- A byte that is no backslash is counted, unless it is a dollar sign in single quotes. -/
theorem preferredQuoteLoop_plain {b : UInt8} (hslash : b ≠ backslash) (rest : List UInt8) :
    preferredQuoteLoop quote preferred alternate (b :: rest) p a =
      if b = byte '$' ∧ quote = singleQuote then quote
      else preferredQuoteLoop quote preferred alternate rest
        (if b = preferred then p + 1 else p)
        (if b ≠ preferred ∧ b = alternate then a + 1 else a) := by
  conv_lhs => unfold preferredQuoteLoop
  by_cases hpreferred : b = preferred
  · simp only [hpreferred, if_true, ne_eq, not_true, false_and, if_false]
  · by_cases halternate : b = alternate
    · simp only [if_neg hpreferred, if_pos halternate, if_pos (And.intro hpreferred halternate)]
    · simp only [if_neg hpreferred, if_neg halternate, if_neg hslash,
        if_neg fun h : b ≠ preferred ∧ b = alternate => halternate h.2]

theorem preferredQuoteLoop_escaped (hpreferred : backslash ≠ preferred)
    (halternate : backslash ≠ alternate) (next : UInt8) (behind : List UInt8) :
    preferredQuoteLoop quote preferred alternate (backslash :: next :: behind) p a =
      if next ≠ quote then quote
      else preferredQuoteLoop quote preferred alternate behind p a := by
  have hdollar : ¬(backslash = byte '$' ∧ quote = singleQuote) := fun h => absurd h.1 (by decide)
  conv_lhs => unfold preferredQuoteLoop
  rw [if_neg hdollar, if_neg hpreferred, if_neg halternate, if_pos rfl]

/-- A quote that the content does not have unescaped stays when it is preferred. -/
theorem preferredQuoteLoop_same (hquote : quote ≠ backslash) (halternate : alternate ≠ backslash)
    (h : Body quote content) (a : ℕ) :
    preferredQuoteLoop quote quote alternate content 0 a = quote := by
  induction h generalizing a with
  | nil => rfl
  | plain hplain hslash _ ih =>
    rw [preferredQuoteLoop_plain hslash, if_neg hplain, ih]
    exact ite_self quote
  | escaped _ ih =>
    rw [preferredQuoteLoop_escaped hquote.symm halternate.symm, ih]
    exact ite_self quote

theorem preferredQuoteLoop_cases (hpreferred : preferred ≠ backslash)
    (halternate : alternate ≠ backslash) (h : Body quote content) (p a : ℕ) :
    preferredQuoteLoop quote preferred alternate content p a = quote ∨
      preferredQuoteLoop quote preferred alternate content p a = preferred ∨
      preferredQuoteLoop quote preferred alternate content p a = alternate := by
  induction h generalizing p a with
  | nil =>
    rw [preferredQuoteLoop_end]
    split
    · exact .inr (.inr rfl)
    · exact .inr (.inl rfl)
  | plain hplain hslash _ ih =>
    rw [preferredQuoteLoop_plain hslash]
    split
    · exact .inl rfl
    · exact ih _ _
  | escaped _ ih =>
    rw [preferredQuoteLoop_escaped hpreferred.symm halternate.symm]
    split
    · exact .inl rfl
    · exact ih _ _

/-- Where the quotes change, only they are escaped, and no dollar sign leaves single quotes. -/
theorem simple_of_preferredQuoteLoop (hpreferred : preferred ≠ backslash)
    (halternate : alternate ≠ backslash) (h : Body quote content)
    (hne : preferredQuoteLoop quote preferred alternate content p a ≠ quote) :
    Simple quote content ∧ (quote = singleQuote → byte '$' ∉ content) := by
  induction h generalizing p a with
  | nil => exact ⟨.nil, fun _ => List.not_mem_nil⟩
  | @plain b content hplain hslash _ ih =>
    rw [preferredQuoteLoop_plain hslash] at hne
    have hdollar := fun h => hne (if_pos h)
    rw [if_neg hdollar] at hne
    obtain ⟨hsimple, hcontent⟩ := ih hne
    refine ⟨hsimple.plain hplain hslash, fun hquote hmem => ?_⟩
    rcases List.mem_cons.mp hmem with hb | hmem
    · exact hdollar ⟨hb.symm, hquote⟩
    · exact hcontent hquote hmem
  | @escaped next content _ ih =>
    rw [preferredQuoteLoop_escaped hpreferred.symm halternate.symm] at hne
    have hnext : next = quote := not_not.mp fun h => hne (if_pos h)
    rw [if_neg (not_not.mpr hnext)] at hne
    obtain ⟨hsimple, hcontent⟩ := ih hne
    rw [hnext]
    refine ⟨hsimple.quote, fun hquote hmem => ?_⟩
    rcases List.mem_cons.mp hmem with hb | hmem
    · exact absurd hb (by decide)
    · rcases List.mem_cons.mp hmem with hb | hmem
      · exact absurd (hb.trans hquote) (by decide)
      · exact hcontent hquote hmem

end Preferred

/-- The quote that the settings prefer, and the other one. -/
def preferredQuote (preferSingleQuote : Bool) : UInt8 :=
  if preferSingleQuote then singleQuote else doubleQuote

theorem isQuote_preferredQuote (preferSingleQuote : Bool) :
    preferredQuote preferSingleQuote = singleQuote ∨
      preferredQuote preferSingleQuote = doubleQuote := by
  cases preferSingleQuote
  · exact .inr rfl
  · exact .inl rfl

section Quote

variable {quote : UInt8} {content : List UInt8}

/-- The preferred quote is chosen, or the one that is there stays. -/
theorem getPreferredQuote_cases (hquote : quote = singleQuote ∨ quote = doubleQuote)
    (h : Body quote content) (preferSingleQuote : Bool) :
    getPreferredQuote content quote preferSingleQuote = quote ∨
      getPreferredQuote content quote preferSingleQuote = preferredQuote preferSingleQuote ∧
        preferredQuote preferSingleQuote ≠ quote ∧ Simple quote content ∧
          (quote = singleQuote → byte '$' ∉ content) := by
  by_cases hsame : getPreferredQuote content quote preferSingleQuote = quote
  · exact .inl hsame
  · refine .inr ?_
    have hsingle : singleQuote ≠ backslash := by decide
    have hdouble : doubleQuote ≠ backslash := by decide
    cases preferSingleQuote with
    | true =>
      have hcases := preferredQuoteLoop_cases hsingle hdouble h 0 0
      have hsimple := simple_of_preferredQuoteLoop hsingle hdouble h hsame
      rcases hquote with rfl | rfl
      · exact absurd (preferredQuoteLoop_same hsingle hdouble h 0) hsame
      · refine ⟨(hcases.resolve_left hsame).resolve_right hsame, by decide, hsimple⟩
    | false =>
      have hcases := preferredQuoteLoop_cases hdouble hsingle h 0 0
      have hsimple := simple_of_preferredQuoteLoop hdouble hsingle h hsame
      rcases hquote with rfl | rfl
      · refine ⟨(hcases.resolve_left hsame).resolve_right hsame, by decide, hsimple⟩
      · exact absurd (preferredQuoteLoop_same hdouble hsingle h 0) hsame

theorem getPreferredQuote_preferred {preferSingleQuote : Bool}
    (h : Body (preferredQuote preferSingleQuote) content) :
    getPreferredQuote content (preferredQuote preferSingleQuote) preferSingleQuote =
      preferredQuote preferSingleQuote := by
  cases preferSingleQuote with
  | true => exact preferredQuoteLoop_same (by decide) (by decide) h 0
  | false => exact preferredQuoteLoop_same (by decide) (by decide) h 0

/-! ## The new quotes -/

theorem requote_plain {enclosing other b : UInt8} (h : b ≠ backslash) (rest : List UInt8) :
    requote enclosing other (b :: rest) =
      if b = enclosing then backslash :: b :: requote enclosing other rest
      else b :: requote enclosing other rest := by
  conv_lhs => unfold requote
  rw [if_neg h]

theorem requote_quote {enclosing other : UInt8} (behind : List UInt8) :
    requote enclosing other (backslash :: other :: behind) =
      other :: requote enclosing other behind := by
  conv_lhs => unfold requote
  rw [if_pos rfl]
  dsimp only
  rw [if_neg (not_not.mpr rfl), List.nil_append]

variable {enclosing : UInt8}

theorem Simple.requote (h : Simple quote content) (hne : quote ≠ enclosing)
    (hslash : quote ≠ backslash) : Simple enclosing (requote enclosing quote content) := by
  induction h with
  | nil => exact .nil
  | @plain b content hplain hb _ ih =>
    rw [requote_plain hb]
    split
    · next henclosing =>
      rw [henclosing]
      exact ih.quote
    · next henclosing => exact ih.plain henclosing hb
  | quote _ ih =>
    rw [requote_quote]
    exact ih.plain hne hslash

theorem Simple.unescaped_requote (h : Simple quote content) (hslash : quote ≠ backslash) :
    unescaped (Printing.requote enclosing quote content) = unescaped content := by
  induction h with
  | nil => rfl
  | plain hplain hb _ ih =>
    rw [requote_plain hb, unescaped_cons hb, ← ih]
    split
    · rw [unescaped_backslash, unescaped_cons hb]
    · rw [unescaped_cons hb]
  | quote _ ih =>
    rw [requote_quote, unescaped_cons hslash, unescaped_backslash, unescaped_cons hslash, ih]

theorem Simple.not_mem_requote {b : UInt8} (h : Simple quote content) (hb : b ≠ backslash)
    (hmem : b ∉ content) : b ∉ Printing.requote enclosing quote content := by
  induction h with
  | nil => exact hmem
  | @plain c content _ hc _ ih =>
    have hcontent := ih fun h => hmem (List.mem_cons_of_mem c h)
    have hne : b ≠ c := fun h => hmem (h ▸ List.mem_cons_self)
    rw [requote_plain hc]
    split
    · simp [hb, hne, hcontent]
    · simp [hne, hcontent]
  | @quote content _ ih =>
    have hcontent := ih fun h => hmem (List.mem_cons_of_mem _ (List.mem_cons_of_mem _ h))
    have hne : b ≠ quote := fun h => hmem (h ▸ List.mem_cons_of_mem _ List.mem_cons_self)
    rw [requote_quote]
    simp [hne, hcontent]

/-- With its new quotes the string is one token again. -/
theorem Simple.reads_requote (h : Simple quote content)
    (hquote : quote = singleQuote ∨ quote = doubleQuote)
    (henclosing : enclosing = singleQuote ∨ enclosing = doubleQuote) (hne : quote ≠ enclosing)
    (hdollar : quote = singleQuote → byte '$' ∉ content) :
    Reads enclosing (Printing.requote enclosing quote content) := by
  have hslash : quote ≠ backslash := by
    rcases hquote with rfl | rfl <;> decide
  have hbody := (h.requote hne hslash).body
  refine ⟨henclosing, hbody, fun hdouble behind => ?_⟩
  have hsingle : quote = singleQuote := hquote.resolve_right fun h => hne (h.trans hdouble.symm)
  rw [hdouble] at hbody ⊢
  exact Syntax.StringToken.scan_body hbody (h.not_mem_requote (by decide) (hdollar hsingle)) behind

end Quote

/-! ## Strings -/

section LiteralString

variable (l : LiteralString)

theorem literalStringKind_raw :
    literalStringKind l.raw = if l.quote = doubleQuote then .doubleQuoted else .singleQuoted := by
  obtain ⟨binary, quote, content, hbinary, hquote⟩ := l
  cases binary with
  | none => rcases hquote with rfl | rfl <;> rfl
  | some b => rcases hbinary b rfl with rfl | rfl <;> rcases hquote with rfl | rfl <;> rfl

theorem isMarked_raw : ([byte 'b'].isPrefixOf l.raw || [byte 'B'].isPrefixOf l.raw) =
    l.binary.isSome := by
  obtain ⟨binary, quote, content, hbinary, hquote⟩ := l
  cases binary with
  | none => rcases hquote with rfl | rfl <;> rfl
  | some b => rcases hbinary b rfl with rfl | rfl <;> rfl

theorem printString_raw (preferSingleQuote : Bool) :
    printString preferSingleQuote (literalStringKind l.raw) l.raw =
      if getPreferredQuote l.content l.quote preferSingleQuote = l.quote then l.raw
      else l.binary.toList ++
        makeString l.content (getPreferredQuote l.content l.quote preferSingleQuote) := by
  have hmark : (if l.binary.isSome then l.raw.take 1 else []) = l.binary.toList := by
    rw [LiteralString.raw]
    cases l.binary <;> rfl
  have htext : (if l.binary.isSome then l.raw.drop 1 else l.raw) =
      l.quote :: (l.content ++ [l.quote]) := by
    rw [LiteralString.raw]
    cases l.binary <;> rfl
  have hcontent : ((l.quote :: (l.content ++ [l.quote])).drop 1).take
      ((l.quote :: (l.content ++ [l.quote])).length - 2) = l.content := by
    simp
  unfold printString
  rw [isMarked_raw, literalStringKind_raw]
  dsimp only
  rw [hmark, htext, hcontent, List.headD_cons]
  rcases l.isQuote with hquote | hquote
  · have hkind : ¬singleQuote = doubleQuote := by decide
    rw [hquote, if_neg hkind]
    simp
  · rw [hquote, if_pos rfl]
    simp

theorem value_of_simple (h : Simple l.quote l.content) : l.value = some (unescaped l.content) := by
  rw [LiteralString.value]
  split
  · next hslash => rw [unescaped_of_not_mem hslash]
  · exact h.decode l.isQuote

theorem makeString_other {enclosing : UInt8} (henclosing : enclosing = singleQuote ∨
    enclosing = doubleQuote) (hne : l.quote ≠ enclosing) :
    makeString l.content enclosing =
      enclosing :: (requote enclosing l.quote l.content ++ [enclosing]) := by
  have hother : (if enclosing = doubleQuote then singleQuote else doubleQuote) = l.quote := by
    rcases henclosing with rfl | rfl
    · rw [if_neg (by decide), l.isQuote.resolve_left hne]
    · rw [if_pos rfl, l.isQuote.resolve_right hne]
  rw [makeString, hother]

/-- The string that is printed, with the same mark. -/
theorem exists_printed (preferSingleQuote : Bool) (h : Reads l.quote l.content) :
    ∃ l' : LiteralString,
      printString preferSingleQuote (literalStringKind l.raw) l.raw = l'.raw ∧
        l'.binary = l.binary ∧ Reads l'.quote l'.content ∧ l'.value = l.value ∧
        printString preferSingleQuote (literalStringKind l'.raw) l'.raw = l'.raw := by
  rcases getPreferredQuote_cases l.isQuote h.body preferSingleQuote with
    hsame | ⟨hpreferred, hne, hsimple, hdollar⟩
  · have hprint := printString_raw l preferSingleQuote
    rw [if_pos hsame] at hprint
    exact ⟨l, hprint, rfl, h, rfl, hprint⟩
  · have hquote := isQuote_preferredQuote preferSingleQuote
    have hslash : l.quote ≠ backslash := by
      rcases l.isQuote with hl | hl <;> rw [hl] <;> decide
    have hreads := hsimple.reads_requote l.isQuote hquote hne.symm hdollar
    refine ⟨⟨l.binary, preferredQuote preferSingleQuote,
      requote (preferredQuote preferSingleQuote) l.quote l.content, l.isBinary, hquote⟩,
      ?_, rfl, hreads, ?_, ?_⟩
    · rw [printString_raw, hpreferred, if_neg hne, makeString_other l hquote hne.symm]
      rfl
    · rw [value_of_simple l hsimple, value_of_simple _ (hsimple.requote hne.symm hslash)]
      exact congrArg some (hsimple.unescaped_requote hslash)
    · rw [printString_raw]
      exact if_pos (getPreferredQuote_preferred hreads.body)

end LiteralString

variable {interpolating : Bool} {varOffsetDepth : ℕ}

theorem exists_literalString {mark : List UInt8} (h : Marks interpolating varOffsetDepth mark) :
    ∃ binary : Option UInt8, mark = binary.toList ∧
      ∀ b ∈ binary, b = byte 'b' ∨ b = byte 'B' := by
  rcases h with rfl | ⟨-, -, rfl | rfl⟩
  · exact ⟨none, rfl, fun b hb => nomatch hb⟩
  · exact ⟨some (byte 'b'), rfl, fun b hb => .inl (Option.some.inj hb).symm⟩
  · exact ⟨some (byte 'B'), rfl, fun b hb => .inr (Option.some.inj hb).symm⟩

/-- A string token has its quotes at its ends. -/
theorem exists_raw {text behind : List UInt8}
    (h : readStringToken interpolating varOffsetDepth (text ++ behind) =
      some (.literalString, text.length)) :
    ∃ l : LiteralString, text = l.raw ∧ Reads l.quote l.content ∧
      Marks interpolating varOffsetDepth l.binary.toList := by
  obtain ⟨mark, quote, content, rest, hbytes, hmark, hreads, hlength⟩ :=
    Syntax.StringToken.exists_reads h
  obtain ⟨binary, rfl, hbinary⟩ := exists_literalString hmark
  refine ⟨⟨binary, quote, content, hbinary, hreads.isQuote⟩, ?_, hreads, hmark⟩
  have hsplit : text ++ behind =
      (binary.toList ++ quote :: (content ++ [quote])) ++ rest := by
    rw [hbytes, List.append_assoc, List.cons_append, List.append_assoc, List.singleton_append]
  refine (List.append_inj hsplit ?_).1
  rw [hlength, List.length_append, List.length_cons, List.length_append, List.length_singleton]
  omega

theorem readStringToken_raw (l : LiteralString) (h : Reads l.quote l.content)
    (hmark : Marks interpolating varOffsetDepth l.binary.toList) (behind : List UInt8) :
    readStringToken interpolating varOffsetDepth (l.raw ++ behind) =
      some (.literalString, l.raw.length) := by
  have hraw : l.raw ++ behind =
      l.binary.toList ++ l.quote :: (l.content ++ l.quote :: behind) := by
    rw [LiteralString.raw, List.append_assoc, List.cons_append, List.append_assoc,
      List.singleton_append]
  have hlength : l.raw.length = l.binary.toList.length + l.content.length + 2 := by
    rw [LiteralString.raw, List.length_append, List.length_cons, List.length_append,
      List.length_singleton]
    omega
  rw [hraw, h.token hmark, hlength]

/-- A string token is printed as a string token with the same value, which is printed as it is. -/
theorem printString_spec (preferSingleQuote : Bool) {text behind : List UInt8}
    (h : readStringToken interpolating varOffsetDepth (text ++ behind) =
      some (.literalString, text.length)) :
    (∀ behind', readStringToken interpolating varOffsetDepth
      (printString preferSingleQuote (literalStringKind text) text ++ behind') =
        some (.literalString,
          (printString preferSingleQuote (literalStringKind text) text).length)) ∧
      parseLiteralString (printString preferSingleQuote (literalStringKind text) text) none true =
        parseLiteralString text none true ∧
      printString preferSingleQuote
        (literalStringKind (printString preferSingleQuote (literalStringKind text) text))
        (printString preferSingleQuote (literalStringKind text) text) =
          printString preferSingleQuote (literalStringKind text) text := by
  obtain ⟨l, rfl, hreads, hmark⟩ := exists_raw h
  obtain ⟨l', hprinted, hbinary, hreads', hvalue, hagain⟩ :=
    exists_printed l preferSingleQuote hreads
  rw [hprinted]
  refine ⟨fun behind' => ?_, ?_, hagain⟩
  · rw [← hbinary] at hmark
    exact readStringToken_raw l' hreads' hmark behind'
  · rw [LiteralString.parseLiteralString_raw, LiteralString.parseLiteralString_raw, hvalue]

/-- The text of the string a in single quotes. -/
def singleQuotedText : List UInt8 := [singleQuote, byte 'a', singleQuote]

theorem printString_spec_single :
    (∀ behind', readStringToken false 0
      (printString false (literalStringKind singleQuotedText) singleQuotedText ++ behind') =
        some (.literalString,
          (printString false (literalStringKind singleQuotedText) singleQuotedText).length)) ∧
      parseLiteralString
        (printString false (literalStringKind singleQuotedText) singleQuotedText) none true =
          parseLiteralString singleQuotedText none true ∧
      printString false
        (literalStringKind (printString false (literalStringKind singleQuotedText)
          singleQuotedText))
        (printString false (literalStringKind singleQuotedText) singleQuotedText) =
          printString false (literalStringKind singleQuotedText) singleQuotedText := by
  have hreads : Reads singleQuote [byte 'a'] :=
    ⟨.inl rfl, .plain (by decide) (by decide) .nil, fun h => absurd h (by decide)⟩
  have htoken : readStringToken false 0 (singleQuotedText ++ []) = some (.literalString, 3) :=
    hreads.token (.inl rfl) []
  exact printString_spec false htoken

end Mago.Printing
