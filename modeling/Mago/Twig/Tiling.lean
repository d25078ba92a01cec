import Mago.Twig.Lexer

/-!
# Twig tokens tile the template

Every step that returns a token moves the cursor over it. The lengths the readers compute stay
within the input, so each token is what the cursor moved over.
-/
namespace Mago.Twig
open Mago.Library Mago.Syntax

section Lengths

variable {bytes : List UInt8} {n : ℕ}

theorem findNextIntroducer_le {k : UInt8} (h : findNextIntroducer bytes = some (n, k)) :
    n + 2 ≤ bytes.length := by
  induction bytes generalizing n with
  | nil => cases h
  | cons b rest ih =>
    unfold findNextIntroducer at h
    cases rest with
    | nil => cases h
    | cons c rest =>
      dsimp only [List.head?_cons] at h
      split_ifs at h with hb
      · cases h
        simp
      · obtain ⟨⟨m, k'⟩, hm, heq⟩ := Option.map_eq_some_iff.mp h
        cases heq
        have := ih hm
        simp only [List.length_cons] at this ⊢
        omega

theorem findText_le {text : List UInt8} (h : findText text bytes = some n) :
    n + text.length ≤ bytes.length := by
  induction bytes generalizing n with
  | nil =>
    unfold findText at h
    split_ifs at h with htext
    cases h
    simp [htext]
  | cons b rest ih =>
    unfold findText at h
    split_ifs at h with htext
    · cases h
      have hlength := congrArg List.length htext
      rw [List.length_take] at hlength
      omega
    · obtain ⟨m, hm, rfl⟩ := Option.map_eq_some_iff.mp h
      have := ih hm
      rw [List.length_cons]
      omega

theorem findVerbatimClose_le {keyword : List UInt8}
    (h : findVerbatimClose keyword bytes = some n) : n + 2 ≤ bytes.length := by
  induction bytes using findVerbatimClose.induct keyword generalizing n with
  | case1 => cases h
  | case2 => cases h
  | case3 b c rest hopen hclose =>
    rw [findVerbatimClose, if_pos hopen, if_pos hclose] at h
    cases h
    simp
  | case4 b c rest hopen hclose ih =>
    rw [findVerbatimClose, if_pos hopen, if_neg hclose] at h
    obtain ⟨m, hm, rfl⟩ := Option.map_eq_some_iff.mp h
    have := ih hm
    simp only [List.length_cons]
    omega
  | case5 b c rest hopen ih =>
    rw [findVerbatimClose, if_neg hopen] at h
    obtain ⟨m, hm, rfl⟩ := Option.map_eq_some_iff.mp h
    have := ih hm
    simp only [List.length_cons] at this ⊢
    omega

theorem digitRun_le (last : Bool) (bytes : List UInt8) : digitRun last bytes ≤ bytes.length := by
  induction bytes generalizing last with
  | nil => exact le_rfl
  | cons c rest ih =>
    unfold digitRun
    have htrue := ih true
    have hfalse := ih false
    rw [List.length_cons]
    split_ifs <;> omega

theorem singleQuotedEnd_le (h : singleQuotedEnd bytes = some n) : n ≤ bytes.length := by
  induction bytes using singleQuotedEnd.induct generalizing n with
  | case1 => cases h
  | case2 =>
    rw [singleQuotedEnd, if_pos rfl] at h
    cases h
    exact le_rfl
  | case3 b hquote =>
    rw [singleQuotedEnd, if_neg hquote] at h
    cases h
  | case4 c rest ih =>
    rw [singleQuotedEnd, if_pos rfl] at h
    obtain ⟨m, hm, rfl⟩ := Option.map_eq_some_iff.mp h
    have := ih hm
    simp only [List.length_cons]
    omega
  | case5 c rest hescape =>
    rw [singleQuotedEnd, if_neg hescape, if_pos rfl] at h
    cases h
    simp
  | case6 b c rest hescape hquote ih =>
    rw [singleQuotedEnd, if_neg hescape, if_neg hquote] at h
    obtain ⟨m, hm, rfl⟩ := Option.map_eq_some_iff.mp h
    have := ih hm
    simp only [List.length_cons] at this ⊢
    omega

theorem closed_of_shift {scan : DoubleQuotedScan} {count : ℕ}
    (h : scan.shift count = .closed n) : ∃ m, scan = .closed m ∧ n = m + count := by
  cases scan with
  | closed m =>
    cases h
    exact ⟨m, rfl, rfl⟩
  | interpolated => cases h
  | unclosed => cases h

theorem scanDoubleQuoted_le (h : scanDoubleQuoted bytes = .closed n) : n ≤ bytes.length := by
  induction bytes using scanDoubleQuoted.induct generalizing n with
  | case1 => cases h
  | case2 =>
    rw [scanDoubleQuoted, if_pos rfl] at h
    cases h
    exact le_rfl
  | case3 b hquote =>
    rw [scanDoubleQuoted, if_neg hquote] at h
    cases h
  | case4 c rest ih =>
    rw [scanDoubleQuoted, if_pos rfl] at h
    obtain ⟨m, hm, rfl⟩ := closed_of_shift h
    have := ih hm
    simp only [List.length_cons]
    omega
  | case5 c rest hescape =>
    rw [scanDoubleQuoted, if_neg hescape, if_pos rfl] at h
    cases h
    simp
  | case6 b c rest hescape hquote hopen =>
    rw [scanDoubleQuoted, if_neg hescape, if_neg hquote, if_pos hopen] at h
    cases h
  | case7 b c rest hescape hquote hopen ih =>
    rw [scanDoubleQuoted, if_neg hescape, if_neg hquote, if_neg hopen] at h
    obtain ⟨m, hm, rfl⟩ := closed_of_shift h
    have := ih hm
    simp only [List.length_cons] at this ⊢
    omega

theorem stringPartEnd_le (h : stringPartEnd bytes = some n) : n ≤ bytes.length := by
  fun_induction stringPartEnd bytes generalizing n with
  | case1 =>
    cases h
    exact Nat.zero_le _
  | case2 => cases h
  | case3 bytes hne rel hstop hescape hmore ih =>
    obtain ⟨m, hm, rfl⟩ := Option.map_eq_some_iff.mp h
    have := ih hm
    rw [List.length_drop] at this
    omega
  | case4 => cases h
  | case5 bytes hne rel hstop hescape hhash hbrace =>
    cases h
    exact Nat.le_of_lt (List.findIdx?_eq_some_iff_findIdx_eq.mp hstop).1
  | case6 bytes hne rel hstop hescape hhash hbrace ih =>
    obtain ⟨m, hm, rfl⟩ := Option.map_eq_some_iff.mp h
    have hlt := (List.findIdx?_eq_some_iff_findIdx_eq.mp hstop).1
    have := ih hm
    rw [List.length_drop] at this
    omega
  | case7 bytes hne rel hstop hescape hhash =>
    cases h
    exact Nat.le_of_lt (List.findIdx?_eq_some_iff_findIdx_eq.mp hstop).1

theorem lt_of_any {p : UInt8 → Bool} {i : ℕ} (h : (bytes[i]?).any p = true) :
    i < bytes.length := by
  obtain ⟨b, hb, -⟩ := (Option.any_eq_true _ _).mp h
  exact (List.getElem?_eq_some_iff.mp hb).1

/-- A number ends within the bytes. -/
theorem numberEnd_le (bytes : List UInt8) : numberEnd bytes ≤ bytes.length := by
  have hinteger := digitRun_le false bytes
  unfold numberEnd
  extract_lets integer fraction exponent
  have hfraction : fraction ≤ bytes.length := by
    show (if _ then _ else _) ≤ bytes.length
    split_ifs with hpoint
    · have hlt : integer + 1 < bytes.length := lt_of_any hpoint.2
      have hdigits := digitRun_le false (bytes.drop (integer + 1))
      rw [List.length_drop] at hdigits
      show integer + 1 + digitRun false (bytes.drop (integer + 1)) ≤ bytes.length
      omega
    · exact hinteger
  split_ifs with hletter hdigit
  · have hlt := lt_of_any hdigit
    have hdigits : ((bytes.drop (exponent + 1)).takeWhile isAsciiDigit).length ≤
        (bytes.drop (exponent + 1)).length := (List.takeWhile_sublist _).length_le
    rw [List.length_drop] at hdigits
    omega
  · exact hfraction
  · exact hfraction

/-- A number has its first digit. -/
theorem numberEnd_pos {b : UInt8} {rest : List UInt8} (hb : isAsciiDigit b = true) :
    0 < numberEnd (b :: rest) := by
  unfold numberEnd
  extract_lets integer fraction exponent
  have hinteger : 0 < integer := by
    show 0 < digitRun false (b :: rest)
    rw [digitRun, if_pos hb]
    exact Nat.succ_pos _
  have hfraction : 0 < fraction := by
    show 0 < if _ then _ else _
    split_ifs
    · exact Nat.add_pos_left (Nat.succ_pos _) _
    · exact hinteger
  split_ifs
  · exact Nat.add_pos_left (Nat.succ_pos _) _
  · exact hfraction
  · exact hfraction

end Lengths

namespace TwigLexer

variable {source : List UInt8} {lexer next : TwigLexer} {token : TwigToken} {kind : TwigTokenKind}
  {stop : ℕ} {b : UInt8}

/-- A token of the step covers what the cursor moves over. -/
def Covers (source : List UInt8) (lexer : TwigLexer) (result : Step) : Prop :=
  ∀ token, result.1 = .ok token → Reads source 0 result.2.input ∧ token.start = lexer.cursor ∧
    lexer.cursor < result.2.cursor ∧ token.value = slice source lexer.cursor result.2.cursor ∧
    result.2.eofEmitted = lexer.eofEmitted

theorem Covers.fail (source : List UInt8) (lexer next : TwigLexer) (error : SyntaxError) :
    Covers source lexer (next.fail error) := by
  intro token h
  cases h

/-- What a step changes but the input does not matter. -/
theorem Covers.with_input {result : Step} (h : Covers source lexer result)
    (hnext : next.input = result.2.input) (heof : next.eofEmitted = result.2.eofEmitted) :
    Covers source lexer (result.1, next) := by
  intro token htoken
  have := h token htoken
  simp only [cursor] at this ⊢
  rw [hnext, heof]
  exact this

theorem Covers.emit (h : Reads source 0 lexer.input) (hlt : lexer.cursor < stop)
    (hle : stop ≤ source.length) : Covers source lexer (lexer.emit kind stop) := by
  have hoffset : (lexer.input.skip (stop - lexer.input.offset)).offset = stop := by
    have hlt' : lexer.input.offset < stop := hlt
    have hlength : lexer.input.bytes.length = source.length := h.length_eq
    rw [Input.offset_skip (by omega)]
    omega
  intro token htoken
  cases htoken
  refine ⟨h.skip _, rfl, ?_, ?_, rfl⟩
  · show lexer.cursor < (lexer.input.skip (stop - lexer.input.offset)).offset
    rw [hoffset]
    exact hlt
  · show lexer.input.sliceInRange lexer.cursor stop =
      slice source lexer.cursor (lexer.input.skip (stop - lexer.input.offset)).offset
    rw [hoffset, h.sliceInRange_eq hlt.le hle]

theorem length_remaining (h : Reads source 0 lexer.input) :
    lexer.remaining.length = source.length - lexer.cursor := by
  rw [remaining, h.readRemaining_eq, List.length_drop]
  rfl

theorem length_tailFrom (h : Reads source 0 lexer.input) (offset : ℕ) :
    (lexer.tailFrom offset).length = source.length - offset := by
  rw [tailFrom, h.bytes_eq, List.length_drop]

theorem lt_of_byteOpt (h : Reads source 0 lexer.input) {offset : ℕ}
    (hb : (lexer.byteOpt offset).isSome) : offset < source.length := by
  rw [byteOpt, h.bytes_eq] at hb
  simpa using hb

theorem le_of_isAt (h : Reads source 0 lexer.input) {offset : ℕ} {text : List UInt8}
    (hat : lexer.isAt offset text = true) : offset + text.length ≤ source.length := by
  have hle := (of_decide_eq_true hat).1
  rw [totalLen, h.length_eq] at hle
  exact hle

/-- A stop is reached that lies a positive length behind the cursor. -/
theorem Covers.emit_length (h : Reads source 0 lexer.input) {length : ℕ} (hpos : 0 < length)
    (hle : lexer.cursor + length ≤ source.length) :
    Covers source lexer (lexer.emit kind (lexer.cursor + length)) :=
  .emit h (Nat.lt_add_of_pos_right hpos) hle

theorem whitespaceTable_eq (b : UInt8) : whitespaceTable b = isWhitespaceByte b := by
  simp only [whitespaceTable, isWhitespaceByte]
  congr 1
  simp only [List.mem_cons, List.not_mem_nil, eq_iff_iff]
  tauto

/-- The lexer reads the source and the byte is at its cursor. -/
structure AtByte (source : List UInt8) (lexer : TwigLexer) (b : UInt8) : Prop where
  reads : Reads source 0 lexer.input
  head : lexer.remaining.head? = some b

namespace AtByte

theorem byteOpt_eq (h : AtByte source lexer b) : lexer.byteOpt lexer.cursor = some b := by
  have hhead := h.head
  rw [remaining, Input.readRemaining, List.head?_drop] at hhead
  exact hhead

theorem lt (h : AtByte source lexer b) : lexer.cursor < source.length :=
  lt_of_byteOpt h.reads (by rw [h.byteOpt_eq]; rfl)

theorem remaining_eq (h : AtByte source lexer b) :
    lexer.remaining = b :: lexer.tailFrom (lexer.cursor + 1) := by
  have hhead := h.head
  rw [remaining, Input.readRemaining, List.head?_drop] at hhead
  exact List.drop_eq_getElem?_toList_append.trans (by rw [hhead]; rfl)

/-- One byte is there to emit. -/
theorem emit_one (h : AtByte source lexer b) :
    Covers source lexer (lexer.emit kind (lexer.cursor + 1)) :=
  .emit_length h.reads Nat.one_pos h.lt

theorem emitWhitespace (h : AtByte source lexer b) (hspace : isWhitespaceByte b = true) :
    Covers source lexer lexer.emitWhitespace := by
  have hpos : 0 < (lexer.input.readRemaining.takeWhile whitespaceTable).length := by
    have hremaining : lexer.input.readRemaining = _ := h.remaining_eq
    rw [hremaining, List.takeWhile_cons, whitespaceTable_eq, if_pos hspace]
    exact Nat.succ_pos _
  have heof : lexer.input.hasReachedEof = false := by
    rw [← Bool.not_eq_true, Input.hasReachedEof_iff]
    have hlt : lexer.input.offset < source.length := h.lt
    rw [h.reads.bytes_eq]
    exact hlt.ne
  intro token htoken
  cases htoken
  exact ⟨h.reads.skip _, rfl, Input.lt_offset_skip hpos heof,
    congrArg (fun bytes => slice bytes _ _) h.reads.bytes_eq, rfl⟩

end AtByte

section Data

/-- The trim marker of an introducer is within the source. -/
theorem introducerEnd_bounds (h : Reads source 0 lexer.input)
    (htwo : lexer.cursor + 2 ≤ source.length) :
    lexer.cursor < lexer.introducerEnd ∧ lexer.introducerEnd ≤ source.length := by
  unfold introducerEnd
  split_ifs with htrim
  · obtain ⟨t, ht, -⟩ := (Option.any_eq_true _ _).mp htrim
    have := lt_of_byteOpt h (by rw [ht]; rfl : (lexer.byteOpt (lexer.cursor + 2)).isSome)
    omega
  · omega

theorem covers_lexCommentBody (h : Reads source 0 lexer.input) {searchFrom : ℕ}
    (hfrom : lexer.cursor < searchFrom) (hle : searchFrom ≤ source.length) :
    Covers source lexer (lexer.lexCommentBody lexer.cursor searchFrom) := by
  unfold lexCommentBody
  split
  · exact .fail _ _ _ _
  case h_2 rel hfind =>
    have hrel := findText_le hfind
    rw [length_tailFrom h] at hrel
    have htext : (byteString "#\x7d").length = 2 := by decide
    rw [htext] at hrel
    dsimp only
    split_ifs with htrim
    · exact .emit h (by omega) (by omega)
    · exact .emit h (by omega) (by omega)

theorem covers_lexData (h : AtByte source lexer b) : Covers source lexer lexer.lexData := by
  have hlt := h.lt
  have hlength := length_remaining h.reads
  unfold lexData
  split
  case h_1 =>
    have htotal : lexer.totalLen = source.length := h.reads.length_eq
    rw [htotal]
    exact .emit h.reads hlt le_rfl
  case h_2 kindByte hfind =>
    have htwo := findNextIntroducer_le hfind
    rw [hlength] at htwo
    obtain ⟨hgt, hstop⟩ := introducerEnd_bounds h.reads (by omega)
    dsimp only
    split_ifs
    · split
      · exact (Covers.emit h.reads hgt hstop).with_input rfl rfl
      · exact (Covers.emit h.reads hgt hstop).with_input rfl rfl
    · exact (Covers.emit h.reads hgt hstop).with_input rfl rfl
    · exact covers_lexCommentBody h.reads hgt hstop
  case h_3 n kindByte hfind =>
    have htwo := findNextIntroducer_le hfind
    rw [hlength] at htwo
    exact .emit_length h.reads (Nat.succ_pos n) (by omega)

end Data

section Verbatim

theorem atWhitespace_eq (h : AtByte source lexer b) : lexer.atWhitespace = isWhitespaceByte b := by
  rw [atWhitespace, h.byteOpt_eq]
  rfl

theorem covers_lexVerbatimKeyword (h : AtByte source lexer b) (kind : VerbatimKind)
    {expected : List UInt8} (hexpected : expected ≠ []) (nextStage : VerbatimStage) :
    Covers source lexer (lexer.lexVerbatimKeyword kind expected nextStage) := by
  unfold lexVerbatimKeyword
  rw [atWhitespace_eq h]
  dsimp only
  split_ifs with hspace hat
  · exact h.emitWhitespace hspace
  · have hle := le_of_isAt h.reads (Bool.and_eq_true_iff.mp hat).1
    exact (Covers.emit_length h.reads (List.length_pos_iff.mpr hexpected) hle).with_input rfl rfl
  · exact .fail _ _ _ _

theorem closeMarker_le (h : Reads source 0 lexer.input) {closer : TwigTokenKind × ℕ}
    (hclose : lexer.closeMarker = some closer) :
    0 < closer.2 ∧ lexer.cursor + closer.2 ≤ source.length := by
  have htext : (byteString "%\x7d").length = 2 := by decide
  unfold closeMarker at hclose
  dsimp only at hclose
  split_ifs at hclose with hdash htilde hplain
  · cases hclose
    have := le_of_isAt h hdash.2
    exact ⟨by decide, by omega⟩
  · cases hclose
    have := le_of_isAt h htilde.2
    exact ⟨by decide, by omega⟩
  · cases hclose
    have := le_of_isAt h hplain
    exact ⟨by decide, by omega⟩

theorem covers_lexVerbatimClose (h : AtByte source lexer b) {after : TwigLexer → TwigLexer}
    (hafter : ∀ lexer, (after lexer).input = lexer.input ∧
      (after lexer).eofEmitted = lexer.eofEmitted) :
    Covers source lexer (lexer.lexVerbatimClose after) := by
  unfold lexVerbatimClose
  rw [atWhitespace_eq h]
  split_ifs with hspace
  · exact h.emitWhitespace hspace
  · split
    case h_1 kind length hclose =>
      obtain ⟨hpos, hle⟩ := closeMarker_le h.reads hclose
      exact (Covers.emit_length h.reads hpos hle).with_input (hafter _).1 (hafter _).2
    case h_2 => exact .fail _ _ _ _

theorem covers_lexVerbatimOpenMarker (h : Reads source 0 lexer.input) (kind : VerbatimKind)
    (nextStage : VerbatimStage) :
    Covers source lexer (lexer.lexVerbatimOpenMarker kind nextStage) := by
  have htext : (byteString "\x7b%").length = 2 := by decide
  unfold lexVerbatimOpenMarker
  dsimp only
  split_ifs with hat
  · have htwo := le_of_isAt h hat
    rw [htext] at htwo
    obtain ⟨hgt, hstop⟩ := introducerEnd_bounds h htwo
    exact (Covers.emit h hgt hstop).with_input rfl rfl
  · exact .fail _ _ _ _

theorem covers_lexVerbatimBody (h : AtByte source lexer b) (kind : VerbatimKind) :
    Covers source lexer (lexer.lexVerbatimBody kind) := by
  unfold lexVerbatimBody
  split
  case h_1 => exact .fail _ _ _ _
  case h_2 => exact covers_lexVerbatimOpenMarker h.reads kind .endOpened
  case h_3 rel hfind =>
    have hle := findVerbatimClose_le hfind
    rw [length_remaining h.reads] at hle
    exact (Covers.emit_length h.reads (Nat.succ_pos rel) (by omega)).with_input rfl rfl

theorem covers_lexVerbatim (h : AtByte source lexer b) (kind : VerbatimKind)
    (stage : VerbatimStage) : Covers source lexer (lexer.lexVerbatim kind stage) := by
  cases stage with
  | entering => exact covers_lexVerbatimKeyword h kind (by cases kind <;> decide) .emitted
  | emitted => exact covers_lexVerbatimClose h fun _ => ⟨rfl, rfl⟩
  | body => exact covers_lexVerbatimBody h kind
  | endingOpened => exact covers_lexVerbatimOpenMarker h.reads kind .endOpened
  | endOpened => exact covers_lexVerbatimKeyword h kind (by cases kind <;> decide) .ended
  | ended => exact covers_lexVerbatimClose h fun _ => ⟨rfl, rfl⟩

end Verbatim

section Expression

theorem tagCloser_le (h : Reads source 0 lexer.input) {closerByte : UInt8}
    {closer : TwigTokenKind × ℕ} (hcloser : lexer.tagCloser closerByte = some closer) :
    0 < closer.2 ∧ lexer.cursor + closer.2 ≤ source.length := by
  have hthree {c : UInt8} (hc : lexer.byteOpt (lexer.cursor + 2) = some c) :
      lexer.cursor + 3 ≤ source.length := lt_of_byteOpt h (by rw [hc]; rfl)
  unfold tagCloser at hcloser
  dsimp only at hcloser
  by_cases hplain : lexer.byteOpt lexer.cursor = some closerByte ∧
      lexer.byteOpt (lexer.cursor + 1) = some (byte '\x7d')
  · rw [if_pos hplain] at hcloser
    cases hcloser
    exact ⟨Nat.succ_pos _, lt_of_byteOpt h (by rw [hplain.2]; rfl)⟩
  rw [if_neg hplain] at hcloser
  by_cases hdash : lexer.byteOpt lexer.cursor = some (byte '-') ∧
      lexer.byteOpt (lexer.cursor + 1) = some closerByte ∧
      lexer.byteOpt (lexer.cursor + 2) = some (byte '\x7d')
  · rw [if_pos hdash] at hcloser
    cases hcloser
    exact ⟨Nat.succ_pos _, hthree hdash.2.2⟩
  rw [if_neg hdash] at hcloser
  by_cases htilde : lexer.byteOpt lexer.cursor = some (byte '~') ∧
      lexer.byteOpt (lexer.cursor + 1) = some closerByte ∧
      lexer.byteOpt (lexer.cursor + 2) = some (byte '\x7d')
  · rw [if_pos htilde] at hcloser
    cases hcloser
    exact ⟨Nat.succ_pos _, hthree htilde.2.2⟩
  rw [if_neg htilde] at hcloser
  cases hcloser

theorem covers_tryCloseTag (h : Reads source 0 lexer.input) {closerByte : UInt8} {closed : Step}
    (hclosed : lexer.tryCloseTag closerByte = some closed) : Covers source lexer closed := by
  obtain ⟨closer, hcloser, rfl⟩ := Option.map_eq_some_iff.mp hclosed
  obtain ⟨hpos, hle⟩ := tagCloser_le h hcloser
  exact (Covers.emit_length h hpos hle).with_input rfl rfl

theorem covers_readNumber (h : AtByte source lexer b) (hdigit : isAsciiDigit b = true) :
    Covers source lexer lexer.readNumber := by
  have hbounds : 0 < numberEnd lexer.remaining ∧
      numberEnd lexer.remaining ≤ lexer.remaining.length := by
    rw [h.remaining_eq]
    exact ⟨numberEnd_pos hdigit, numberEnd_le _⟩
  rw [length_remaining h.reads] at hbounds
  have := h.lt
  exact .emit_length h.reads hbounds.1 (by omega)

theorem covers_readSingleQuotedString (h : AtByte source lexer b) :
    Covers source lexer lexer.readSingleQuotedString := by
  unfold readSingleQuotedString
  split
  case h_1 length hend =>
    have hle := singleQuotedEnd_le hend
    rw [length_tailFrom h.reads] at hle
    have := h.lt
    exact .emit h.reads (by omega) (by omega)
  case h_2 => exact .fail _ _ _ _

theorem covers_readDoubleQuotedStringStart (h : AtByte source lexer b) :
    Covers source lexer lexer.readDoubleQuotedStringStart := by
  unfold readDoubleQuotedStringStart
  split
  case h_1 length hend =>
    have hle := scanDoubleQuoted_le hend
    rw [length_tailFrom h.reads] at hle
    have := h.lt
    exact .emit h.reads (by omega) (by omega)
  case h_2 => exact .fail _ _ _ _
  case h_3 => exact h.emit_one.with_input rfl rfl

theorem covers_lexInsideDqString (h : AtByte source lexer b) :
    Covers source lexer lexer.lexInsideDqString := by
  have htext : (byteString "#\x7b").length = 2 := by decide
  unfold lexInsideDqString
  dsimp only
  split_ifs with hopen hquote hlast
  · have hle := le_of_isAt h.reads hopen
    exact (Covers.emit_length h.reads (by decide) hle).with_input rfl rfl
  · exact h.emit_one.with_input rfl rfl
  · exact .fail _ _ _ _
  · split
    case h_1 => exact .fail _ _ _ _
    case h_2 => exact .fail _ _ _ _
    case h_3 length hend =>
      have hle := stringPartEnd_le hend
      rw [length_remaining h.reads] at hle
      have := h.lt
      exact .emit_length h.reads (Nat.succ_pos length) (by omega)

theorem tryExtendWord_bounds (h : Reads source 0 lexer.input) {afterFirst stop : ℕ}
    {word : List UInt8} (hword : lexer.tryExtendWord afterFirst word = some stop) :
    afterFirst < stop ∧ stop ≤ source.length := by
  unfold tryExtendWord at hword
  dsimp only at hword
  split_ifs at hword with hcondition
  obtain ⟨hspaces, htake, -⟩ := hcondition
  cases hword
  have hlength := congrArg List.length htake
  rw [List.length_take, List.length_drop, length_tailFrom h] at hlength
  have hspan : ((lexer.tailFrom afterFirst).takeWhile isWhitespaceByte).length ≤
      (lexer.tailFrom afterFirst).length := (List.takeWhile_sublist _).length_le
  rw [length_tailFrom h] at hspan
  omega

theorem tryExtendWordMulti_bounds (h : Reads source 0 lexer.input) {afterFirst : ℕ}
    {continuations : List (List UInt8 × TwigTokenKind)} {found : ℕ × TwigTokenKind}
    (hfound : lexer.tryExtendWordMulti afterFirst continuations = some found) :
    afterFirst < found.1 ∧ found.1 ≤ source.length := by
  induction continuations with
  | nil => cases hfound
  | cons continuation continuations ih =>
    unfold tryExtendWordMulti at hfound
    split at hfound
    case h_1 stop hword =>
      cases hfound
      exact tryExtendWord_bounds h hword
    case h_2 => exact ih hfound

theorem bitwiseWord_bounds (h : Reads source 0 lexer.input) {stop : ℕ}
    {found : ℕ × TwigTokenKind} (hfound : lexer.bitwiseWord stop = some found) :
    stop ≤ found.1 ∧ found.1 ≤ source.length := by
  obtain ⟨suffix, -, hsuffix⟩ := List.exists_of_findSome?_eq_some hfound
  dsimp only at hsuffix
  split_ifs at hsuffix with hcondition
  cases hsuffix
  exact ⟨Nat.le_add_right _ _, le_of_isAt h hcondition.1⟩

theorem covers_readNameOrWordOperator (h : AtByte source lexer b) :
    Covers source lexer lexer.readNameOrWordOperator := by
  have hlt := h.lt
  have hspan : ((lexer.tailFrom (lexer.cursor + 1)).takeWhile isWordByte).length ≤
      (lexer.tailFrom (lexer.cursor + 1)).length := (List.takeWhile_sublist _).length_le
  rw [length_tailFrom h.reads] at hspan
  unfold readNameOrWordOperator
  dsimp only
  split
  case h_1 after kind hbitwise =>
    split_ifs at hbitwise with hprefix
    have hbounds := bitwiseWord_bounds h.reads hbitwise
    exact .emit h.reads (by omega) hbounds.2
  case h_2 =>
    split
    case h_1 newEnd kind hmulti =>
      split_ifs at hmulti with hword
      obtain ⟨continuations, -, hmulti⟩ := Option.bind_eq_some_iff.mp hmulti
      have hbounds := tryExtendWordMulti_bounds h.reads hmulti
      exact .emit h.reads (by omega) hbounds.2
    case h_2 =>
      split
      · exact .emit h.reads (by omega) (by omega)
      · exact .emit h.reads (by omega) (by omega)

theorem covers_readOperatorOrPunctuation (h : AtByte source lexer b) :
    Covers source lexer (lexer.readOperatorOrPunctuation b) := by
  unfold readOperatorOrPunctuation
  dsimp only
  split
  case h_1 kind length hthree =>
    obtain ⟨rfl, -, hsome⟩ := threeByteOperator_length hthree
    exact .emit_length h.reads (by decide) (lt_of_byteOpt h.reads hsome)
  split
  case h_1 kind length htwo =>
    obtain ⟨rfl, hsome⟩ := twoByteOperator_length htwo
    exact .emit_length h.reads (by decide) (lt_of_byteOpt h.reads hsome)
  split
  case h_1 => exact h.emit_one.with_input rfl rfl
  split
  case h_1 =>
    split_ifs
    · exact h.emit_one.with_input rfl rfl
    · exact .fail _ _ _ _
  split
  · exact h.emit_one
  · exact .fail _ _ _ _

theorem byteClass_cases (b : UInt8) :
    (byteClass b = .whitespace → isWhitespaceByte b = true) ∧
      (byteClass b = .digit → isAsciiDigit b = true) ∧
      (byteClass b = .hash → b = byte '#') := by
  unfold byteClass
  split_ifs <;> simp_all

theorem covers_lexExpression (h : AtByte source lexer b) :
    Covers source lexer (lexer.lexExpression b) := by
  obtain ⟨hspace, hdigit, hhash⟩ := byteClass_cases b
  unfold lexExpression
  split
  case h_1 hclass => exact h.emitWhitespace (hspace hclass)
  case h_2 hclass =>
    have hspan : (lexer.remaining.takeWhile fun b => decide (b ≠ byte '\n')).length ≤
        lexer.remaining.length := (List.takeWhile_sublist _).length_le
    have hpos : 0 < (lexer.remaining.takeWhile fun b => decide (b ≠ byte '\n')).length := by
      rw [h.remaining_eq, hhash hclass, List.takeWhile_cons, if_pos (by decide)]
      exact Nat.succ_pos _
    rw [length_remaining h.reads] at hspan
    have := h.lt
    exact .emit_length h.reads hpos (by omega)
  case h_3 => exact covers_readSingleQuotedString h
  case h_4 => exact covers_readDoubleQuotedStringStart h
  case h_5 hclass => exact covers_readNumber h (hdigit hclass)
  case h_6 => exact covers_readNameOrWordOperator h
  case h_7 => exact covers_readOperatorOrPunctuation h

theorem covers_lexInsideTag (h : AtByte source lexer b) (closerByte : UInt8) :
    Covers source lexer (lexer.lexInsideTag closerByte b) := by
  unfold lexInsideTag
  split
  case h_1 closed hclosed =>
    split_ifs at hclosed
    exact covers_tryCloseTag h.reads hclosed
  case h_2 => exact covers_lexExpression h

theorem covers_lexInsideInterpolation (h : AtByte source lexer b) :
    Covers source lexer (lexer.lexInsideInterpolation b) := by
  unfold lexInsideInterpolation
  dsimp only
  split_ifs
  · exact h.emit_one.with_input rfl rfl
  · exact covers_lexExpression h

end Expression

section Run

/-- In every mode a token covers what the cursor moves over. -/
theorem covers_lexMode (h : AtByte source lexer b) : Covers source lexer (lexer.lexMode b) := by
  unfold lexMode
  split
  case h_1 => exact covers_lexData h
  case h_2 => exact covers_lexInsideTag h _
  case h_3 => exact covers_lexInsideTag h _
  case h_4 => exact covers_lexInsideDqString h
  case h_5 => exact covers_lexInsideInterpolation h
  case h_6 kind stage _ => exact covers_lexVerbatim h kind stage

theorem input_significant (lexer : TwigLexer) (token : TwigToken) :
    (lexer.significant token).input = lexer.input := by
  unfold significant
  split_ifs <;> rfl

theorem eofEmitted_significant (lexer : TwigLexer) (token : TwigToken) :
    (lexer.significant token).eofEmitted = lexer.eofEmitted := by
  unfold significant
  split_ifs <;> rfl

/-- The lexer reads the source, and has ended only at its end. -/
structure Running (source : List UInt8) (lexer : TwigLexer) : Prop where
  reads : Reads source 0 lexer.input
  ended : lexer.eofEmitted = true → lexer.cursor = source.length

theorem advance_ok (h : Reads source 0 lexer.input)
    (hadvance : lexer.advance = (some (.ok token), next)) :
    Running source next ∧ token.start = lexer.cursor ∧ lexer.cursor < next.cursor ∧
      token.value = slice source lexer.cursor next.cursor ∧ next.eofEmitted = false := by
  unfold advance at hadvance
  split_ifs at hadvance with heof
  · cases hadvance
  · split at hadvance
    case h_1 =>
      obtain ⟨herror, -⟩ := Prod.mk.inj hadvance
      obtain ⟨error, -, herror⟩ := Option.map_eq_some_iff.mp herror
      cases herror
    case h_2 b rest hremaining =>
      have hat : AtByte source lexer b := ⟨h, by rw [hremaining]; rfl⟩
      have hcovers := covers_lexMode hat
      split at hadvance
      case h_1 after hmode =>
        cases hadvance
        obtain ⟨hreads, hstart, hlt, hvalue, hsame⟩ := hcovers token (by rw [hmode])
        rw [hmode] at hreads hlt hvalue hsame
        have hcursor : (after.significant token).cursor = after.cursor :=
          congrArg Input.offset (input_significant after token)
        have hnext : (after.significant token).eofEmitted = false := by
          rw [eofEmitted_significant, hsame]
          simpa using heof
        refine ⟨⟨input_significant after token ▸ hreads, ?_⟩, hstart, ?_, ?_, hnext⟩
        · intro hended
          rw [hnext] at hended
          cases hended
        · rw [hcursor]
          exact hlt
        · rw [hcursor]
          exact hvalue
      case h_2 => cases hadvance

theorem advance_none (h : Running source lexer) (hadvance : lexer.advance = (none, next)) :
    lexer.cursor = source.length := by
  unfold advance at hadvance
  split_ifs at hadvance with heof
  · exact h.ended heof
  · split at hadvance
    case h_1 hremaining =>
      have hlength := length_remaining h.reads
      have hle : lexer.cursor ≤ source.length := h.reads.offset_le
      rw [hremaining, List.length_nil] at hlength
      omega
    case h_2 => split at hadvance <;> cases hadvance

theorem tilingStep (source : List UInt8) :
    TilingStep advance source 0 TwigToken.start TwigToken.value cursor (Running source) where
  cursor_le := fun h => h.reads.offset_le
  token := by
    intro lexer next token h hadvance
    obtain ⟨hnext, hstart, hlt, hvalue, -⟩ := advance_ok h.reads hadvance
    exact ⟨hnext, by rw [hstart, Nat.zero_add], hlt, hvalue⟩
  ended := advance_none

/-- Calling `advance` until it returns nothing or an error ends, and the tokens tile the prefix
that is consumed before the last call; without an error that is the whole template. -/
theorem tokens_tile_template (source : List UInt8) :
    ∃ result : TokenRun TwigLexer TwigToken SyntaxError,
      (∀ calls, source.length < calls →
        runTokens advance calls (new (.new source)) = some result) ∧
      (∀ token ∈ result.tokens, token.value ≠ []) ∧
      (∀ i token, result.tokens[i]? = some token →
        token.start = ((result.tokens.take i).map fun t => t.value.length).sum) ∧
      (result.tokens.map TwigToken.value).flatten = source.take result.stopped.cursor ∧
      (result.error = none → (result.tokens.map TwigToken.value).flatten = source) := by
  have hrunning : Running source (new (.new source)) := ⟨⟨rfl, rfl⟩, fun h => by cases h⟩
  obtain ⟨result, hrun, hinv, htiles, hend⟩ :=
    (tilingStep source).run hrunning (show source.length - 0 < source.length + 1 by omega)
  refine ⟨result, fun calls hcalls => runTokens_mono hrun hcalls, htiles.nonempty, ?_,
    htiles.flatten, ?_⟩
  · intro i token htoken
    have hstart := htiles.startOf_eq htoken
    have hzero : (new (.new source)).cursor = 0 := rfl
    rw [hzero, Nat.zero_add, Nat.zero_add] at hstart
    exact hstart
  · intro herror
    rw [htiles.flatten, hend herror]
    exact List.take_length

/-- The call that fails on a comment without an end has consumed its beginning. -/
theorem unclosed_comment_consumes_opener :
    ∃ source : List UInt8, ∃ result : TokenRun TwigLexer TwigToken SyntaxError,
      runTokens advance (source.length + 1) (new (.new source)) = some result ∧
      result.error = some (.unclosedComment 0) ∧
      (result.tokens.map TwigToken.value).flatten ≠
        source.take (advance result.stopped).2.cursor := by
  refine ⟨byteString "\x7b# abc", _, rfl, ?_, ?_⟩
  · decide
  · decide

end Run

end TwigLexer

end Mago.Twig
