import Mago.Suppression.Extract

/-!
# The spans of codes

Whatever is cut from a comment in many steps is a part of its text, so the spans that are built
from the starts of slices show what they are about. One of them is computed from addresses; it is
right where the sum of an offset and an address does not saturate.
-/
namespace Mago.Suppression
open Library Library.Slice Storage Syntax
open Reporting (Span)

/-! ## Texts -/

theorem utf8_append (t t' : Text) : utf8 (t ++ t') = utf8 t ++ utf8 t' := List.flatMap_append ..

theorem utf8_of_decodeUtf8 {bytes : List UInt8} {t : Text} (h : decodeUtf8 bytes = some t) :
    utf8 t = bytes := by
  unfold decodeUtf8 at h
  split at h
  · next hbytes =>
    rw [← Option.some.inj h]
    exact hbytes
  · cases h

theorem append_of_splitOnce {c : Char} {t before after : Text}
    (h : splitOnce c t = some (before, after)) : t = before ++ c :: after := by
  induction t generalizing before with
  | nil => cases h
  | cons x xs ih =>
    rw [splitOnce] at h
    split at h
    · next hx =>
      obtain ⟨rfl, rfl⟩ := Prod.mk.inj (Option.some.inj h)
      rw [hx, List.nil_append]
    · obtain ⟨parts, hparts, hsame⟩ := Option.map_eq_some_iff.mp h
      obtain ⟨rfl, rfl⟩ := Prod.mk.inj hsame
      rw [ih hparts, List.cons_append]

theorem append_of_rsplitOnce {c : Char} {t before after : Text}
    (h : rsplitOnce c t = some (before, after)) : t = before ++ c :: after := by
  induction t generalizing before after with
  | nil => cases h
  | cons x xs ih =>
    rw [rsplitOnce] at h
    cases hparts : rsplitOnce c xs with
    | some parts =>
      rw [hparts] at h
      obtain ⟨rfl, rfl⟩ := Prod.mk.inj (Option.some.inj h)
      rw [List.cons_append, ← ih hparts]
    | none =>
      rw [hparts] at h
      dsimp only at h
      split at h
      · next hx =>
        obtain ⟨rfl, rfl⟩ := Prod.mk.inj (Option.some.inj h)
        rw [hx, List.nil_append]
      · cases h

/-- The category that is taken off stands in front. -/
theorem exists_withoutCategory (categories : List Text) (code : Text) :
    ∃ category, code = category ++ withoutCategory categories code := by
  unfold withoutCategory
  cases hsplit : splitOnce ':' code with
  | none => exact ⟨[], rfl⟩
  | some parts =>
    dsimp only
    split
    · refine ⟨parts.1 ++ ':' :: parts.2.takeWhile isAsciiWhitespaceChar, ?_⟩
      rw [List.append_assoc, List.cons_append, List.takeWhile_append_dropWhile]
      exact append_of_splitOnce hsplit
    · exact ⟨[], rfl⟩

theorem exists_of_getLast {c d : Char} {t before after : Text} (h : t = before ++ c :: after)
    (hlast : t.getLast? = some d) (hne : c ≠ d) : ∃ digits, after = digits ++ [d] := by
  rcases List.eq_nil_or_concat' after with rfl | ⟨digits, last, rfl⟩
  · rw [h, List.getLast?_concat] at hlast
    exact absurd (Option.some.inj hlast) hne
  · rw [h, ← List.cons_append, ← List.append_assoc, List.getLast?_concat] at hlast
    exact ⟨digits, by rw [Option.some.inj hlast]⟩

/-- A code with a count is followed by whitespace at most and the count in parentheses. -/
theorem exists_parseCountSuffix {code base : Text} {count : UInt16} {n : ℕ}
    (h : parseCountSuffix code = some (base, count, n)) :
    ∃ blank digits, code = base ++ blank ++ '(' :: (digits ++ [')']) ∧
      (∀ c ∈ blank, isWhitespace c = true) ∧ n = (utf8 (base ++ blank)).length ∧
      parseU16 (trimText digits) = some count := by
  unfold parseCountSuffix at h
  split at h
  · cases h
  · next hlast =>
    cases hsplit : rsplitOnce '(' code with
    | none =>
      rw [hsplit] at h
      cases h
    | some parts =>
      obtain ⟨before, after⟩ := parts
      rw [hsplit] at h
      dsimp only at h
      split at h
      · cases h
      · split at h
        · cases h
        · cases hcount : parseU16 (trimText after.dropLast) with
          | none =>
            rw [hcount] at h
            cases h
          | some count' =>
            rw [hcount] at h
            dsimp only at h
            split at h
            · cases h
            · obtain ⟨rfl, hrest⟩ := Prod.mk.inj (Option.some.inj h)
              obtain ⟨rfl, rfl⟩ := Prod.mk.inj hrest
              have hbefore := List.rdropWhile_append_rtakeWhile (p := isWhitespace) (l := before)
              obtain ⟨digits, rfl⟩ := exists_of_getLast (append_of_rsplitOnce hsplit)
                (not_not.mp hlast) (by decide)
              refine ⟨before.rtakeWhile isWhitespace, digits, ?_, fun c hc => ?_, ?_, ?_⟩
              · rw [hbefore]
                exact append_of_rsplitOnce hsplit
              · exact List.mem_rtakeWhile_imp hc
              · rw [hbefore]
              · rw [List.dropLast_concat] at hcount
                exact hcount

/-! ## Lines of a comment -/

theorem part_withoutCarriageReturn (line : Slice UInt8) :
    Part (withoutCarriageReturn line) line := by
  unfold withoutCarriageReturn
  split
  · exact part_take _ line
  · exact Part.refl line

theorem exists_piece {pieces : List (Slice UInt8)} {line : Slice UInt8}
    (h : line ∈ linesOfPieces pieces) : ∃ piece ∈ pieces, Part line piece := by
  induction pieces with
  | nil => exact absurd h List.not_mem_nil
  | cons first rest ih =>
    cases rest with
    | nil =>
      rw [linesOfPieces] at h
      split at h
      · exact absurd h List.not_mem_nil
      · exact ⟨first, List.mem_cons_self, List.mem_singleton.mp h ▸ Part.refl line⟩
    | cons second rest =>
      rcases List.mem_cons.mp h with hfirst | hrest
      · exact ⟨first, List.mem_cons_self, hfirst ▸ part_withoutCarriageReturn first⟩
      · obtain ⟨piece, hpiece, hpart⟩ := ih hrest
        exact ⟨piece, List.mem_cons_of_mem first hpiece, hpart⟩

theorem pairwise_linesOfPieces {pieces : List (Slice UInt8)}
    (h : pieces.Pairwise fun a b => a.stop < b.start) :
    (linesOfPieces pieces).Pairwise fun a b => a.stop < b.start := by
  induction pieces with
  | nil => exact .nil
  | cons first rest ih =>
    obtain ⟨hfirst, hrest⟩ := List.pairwise_cons.mp h
    cases rest with
    | nil =>
      rw [linesOfPieces]
      split
      · exact .nil
      · exact List.pairwise_singleton _ _
    | cons second rest =>
      refine List.pairwise_cons.mpr ⟨fun line hline => ?_, ih hrest⟩
      obtain ⟨piece, hpiece, hpart⟩ := exists_piece hline
      have hstop := (part_withoutCarriageReturn first).stop_le
      have hstart := hpart.start_le
      have hlt := hfirst piece hpiece
      omega

theorem successive_byteLines (content : Slice UInt8) : Successive content (byteLines content) := by
  obtain ⟨hparts, hpairwise⟩ := successive_pieces (fun b => b == byte '\n') content
  refine ⟨fun line hline => ?_, pairwise_linesOfPieces hpairwise⟩
  obtain ⟨piece, hpiece, hpart⟩ := exists_piece hline
  exact hpart.trans (hparts piece hpiece)

theorem part_cleanLine (kind : TriviaKind) (line : Slice UInt8) :
    Part (cleanLine kind line) line := by
  unfold cleanLine
  dsimp only
  split_ifs
  · exact (part_dropWhile _ _).trans ((part_drop 1 _).trans (part_dropWhile _ line))
  · exact Part.refl line
  · exact Part.refl line

theorem contentOffsets_le {kind : TriviaKind} {length start stop : ℕ}
    (h : kind.contentOffsets length = some (start, stop)) : stop ≤ length := by
  unfold TriviaKind.contentOffsets at h
  split at h
  · obtain ⟨-, rfl⟩ := Prod.mk.inj (Option.some.inj h)
    exact Nat.sub_le length 2
  · obtain ⟨-, rfl⟩ := Prod.mk.inj (Option.some.inj h)
    exact Nat.sub_le length 2
  · exact (Prod.mk.inj (Option.some.inj h)).2.ge
  · exact (Prod.mk.inj (Option.some.inj h)).2.ge
  · cases h

theorem successive_nil (s : Slice UInt8) : Successive s [] :=
  ⟨fun _ h => absurd h List.not_mem_nil, List.Pairwise.nil⟩

/-- The lines are parts of the comment, one behind the other, each with its offset. -/
theorem commentLines_spec (trivia : Trivia) :
    (∀ entry ∈ commentLines trivia, entry.1 = entry.2.start) ∧
      Successive (Slice.whole trivia.value) ((commentLines trivia).map Prod.snd) := by
  unfold commentLines
  cases hoffsets : trivia.kind.contentOffsets trivia.value.length with
  | none => exact ⟨fun entry h => absurd h List.not_mem_nil, successive_nil _⟩
  | some offsets =>
    obtain ⟨start, stop⟩ := offsets
    have hstop := contentOffsets_le hoffsets
    dsimp only
    split
    · exact ⟨fun entry h => absurd h List.not_mem_nil, successive_nil _⟩
    · next hlt =>
      have hcontent : Part (((Slice.whole trivia.value).take stop).drop start)
          (Slice.whole trivia.value) := (part_drop start _).trans (part_take stop _)
      have hstart : (((Slice.whole trivia.value).take stop).drop start).start = start := by
        simp only [Slice.drop, Slice.take, Slice.whole, Slice.length, List.length_take]
        omega
      obtain ⟨hparts, hpairwise⟩ := successive_byteLines
        (((Slice.whole trivia.value).take stop).drop start)
      constructor
      · intro entry hentry
        obtain ⟨line, hline, rfl⟩ := List.mem_map.mp hentry
        have hle := (hparts line hline).start_le
        have hle' := (part_cleanLine trivia.kind line).start_le
        dsimp only
        omega
      · rw [List.map_map]
        refine Successive.map (f := cleanLine trivia.kind) ?_ (part_cleanLine trivia.kind)
        exact ⟨fun part hpart => (hparts part hpart).trans hcontent, hpairwise⟩

/-! ## Spans of the source -/

/-- The text of a comment at a span of its file. -/
def sourceText (trivia : Trivia) (span : Span) : List UInt8 :=
  Slice.between trivia.value (span.start - trivia.span.start) (span.stop - trivia.span.start)

/-- The code span of a pragma ends with its code, and with its count behind whitespace at most. -/
structure PointsAt (trivia : Trivia) (p : Pragma) : Prop where
  start_le : trivia.span.start ≤ p.codeSpan.start
  le_stop : p.codeSpan.start ≤ p.codeSpan.stop
  stop_le : p.codeSpan.stop ≤ trivia.span.start + trivia.value.length
  code : p.countSpan = none → ∃ before, sourceText trivia p.codeSpan = before ++ utf8 p.code
  count : ∀ span ∈ p.countSpan, ∃ before blank digits,
    sourceText trivia p.codeSpan =
      before ++ utf8 p.code ++ utf8 blank ++ sourceText trivia span ∧
    (∀ c ∈ blank, isWhitespace c = true) ∧
    sourceText trivia span = utf8 ('(' :: (digits ++ [')'])) ∧
    parseU16 (trimText digits) = some p.expectedMatches

theorem between_append {xs : List UInt8} {start middle stop : ℕ} (hstart : start ≤ middle)
    (hstop : middle ≤ stop) (hlength : middle ≤ xs.length) :
    Slice.between xs start stop = Slice.between xs start middle ++ Slice.between xs middle stop := by
  have htake : (xs.take stop).take middle = xs.take middle := by
    rw [List.take_take, min_eq_left hstop]
  have hmiddle : start ≤ (xs.take middle).length := by
    rw [List.length_take]
    omega
  have hsplit := List.take_append_drop middle (xs.take stop)
  rw [htake] at hsplit
  rw [Slice.between, ← hsplit, List.drop_append_of_le_length hmiddle]
  rfl

variable {trivia : Trivia}

theorem sourceText_part {s : Slice UInt8} (h : Part s (Slice.whole trivia.value)) (fileId : FileId) :
    sourceText trivia ⟨fileId, trivia.span.start + s.start, trivia.span.start + s.stop⟩ =
      s.elems := by
  rw [sourceText, Nat.add_sub_cancel_left, Nat.add_sub_cancel_left, h.between_eq]

/-- A span that starts before a part of the comment ends with the part. -/
theorem sourceText_append {s : Slice UInt8} (h : Part s (Slice.whole trivia.value))
    {start : ℕ} (hstart : start ≤ trivia.span.start + s.start) (fileId : FileId) :
    ∃ before, sourceText trivia ⟨fileId, start, trivia.span.start + s.stop⟩ =
      before ++ s.elems := by
  have hlength := h.stop_le
  have hle : s.start ≤ s.stop := Nat.le_add_right _ _
  refine ⟨Slice.between trivia.value (start - trivia.span.start) s.start, ?_⟩
  rw [sourceText, Nat.add_sub_cancel_left, ← h.between_eq]
  refine between_append (Nat.sub_le_iff_le_add'.mpr hstart) hle ?_
  simp only [Slice.whole, Slice.stop_eq] at hlength hle
  omega

variable {π : Type*} {hash : Storage.Bytes → FileId} {file : File π} {categories : List Text}
  {address : ℕ}

/-- The pragma of a code that is a part of the comment points at it. -/
theorem pointsAt_codeSpan {codeBytes : Slice UInt8}
    (hpart : Part codeBytes (Slice.whole trivia.value)) {text category code : Text}
    (htext : utf8 text = codeBytes.elems) (hcode : text = category ++ code) {start : ℕ}
    (hstart : trivia.span.start ≤ start) (hle : start ≤ trivia.span.start + codeBytes.start)
    {p : Pragma} {fileId : FileId}
    (hspan : p.codeSpan = ⟨fileId, start, trivia.span.start + codeBytes.stop⟩)
    (hp : p.countSpan = none ∧ p.code = code ∨ ∃ n, parseCountSuffix code =
      some (p.code, p.expectedMatches, n) ∧ p.countSpan = some ⟨fileId,
        trivia.span.start + codeBytes.stop - ((utf8 code).length - n),
        trivia.span.start + codeBytes.stop⟩) : PointsAt trivia p := by
  obtain ⟨before, hbefore⟩ := sourceText_append hpart hle fileId
  have hstop := hpart.stop_le
  have hsize : codeBytes.start ≤ codeBytes.stop := Nat.le_add_right _ _
  have helems : codeBytes.elems = utf8 category ++ utf8 code := by
    rw [← htext, hcode, utf8_append]
  constructor
  · rw [hspan]
    exact hstart
  · rw [hspan]
    exact hle.trans (Nat.add_le_add_left hsize _)
  · rw [hspan]
    simp only [Slice.whole, Slice.stop_eq] at hstop ⊢
    omega
  · intro hnone
    rcases hp with ⟨-, hsame⟩ | ⟨n, -, hsome⟩
    · refine ⟨before ++ utf8 category, ?_⟩
      rw [hspan, hbefore, hsame, helems, List.append_assoc]
    · rw [hsome] at hnone
      cases hnone
  · intro span hcounted
    rcases hp with ⟨hnone, -⟩ | ⟨n, hsuffix, hsome⟩
    · rw [hnone] at hcounted
      cases hcounted
    · obtain ⟨blank, digits, hparts, hblank, hn, hcount⟩ := exists_parseCountSuffix hsuffix
      have hsplit : utf8 code = utf8 (p.code ++ blank) ++ utf8 ('(' :: (digits ++ [')'])) := by
        rw [hparts, utf8_append]
      -- The count is what is left of the code behind the category, the code and the whitespace.
      have hrest : codeBytes.elems = utf8 (category ++ (p.code ++ blank)) ++
          utf8 ('(' :: (digits ++ [')'])) := by
        rw [helems, hsplit, utf8_append category, List.append_assoc]
      have hcut := part_drop (utf8 (category ++ (p.code ++ blank))).length codeBytes
      have hcutElems : (codeBytes.drop (utf8 (category ++ (p.code ++ blank))).length).elems =
          utf8 ('(' :: (digits ++ [')'])) := by
        rw [Slice.drop, hrest, List.drop_left]
      have hcutStop := stop_drop (utf8 (category ++ (p.code ++ blank))).length codeBytes
      have hcutStart : trivia.span.start + codeBytes.stop - ((utf8 code).length - n) =
          trivia.span.start +
            (codeBytes.drop (utf8 (category ++ (p.code ++ blank))).length).start := by
        rw [← hcutStop, Slice.stop_eq, hcutElems, hsplit, List.length_append, ← hn]
        omega
      rw [hsome] at hcounted
      have htext' : sourceText trivia span = utf8 ('(' :: (digits ++ [')'])) := by
        rw [← Option.some.inj hcounted, hcutStart, ← hcutStop, ← hcutElems]
        exact sourceText_part (hcut.trans hpart) fileId
      refine ⟨before ++ utf8 category, blank, digits, ?_, hblank, htext', hcount⟩
      rw [htext', hspan, hbefore, hrest, utf8_append, utf8_append]
      simp only [List.append_assoc]

/-! ## Lines -/

theorem start_trim (chunk : Slice UInt8) : (chunk.trim isAsciiWhitespace).start =
    chunk.start + (chunk.length - (trimStart chunk).length) := by
  have hstop := stop_dropWhile isAsciiWhitespace chunk
  have hstart : (chunk.trim isAsciiWhitespace).start = (trimStart chunk).start := rfl
  have hle := (part_dropWhile isAsciiWhitespace chunk).start_le
  rw [hstart]
  simp only [trimStart, Slice.length, Slice.stop_eq] at hstop hle ⊢
  omega

/-- The beginning of a line shows where its rest is. -/
theorem parseHead_spec {offset : ℕ} {line : Slice UInt8} {head : LineHead}
    (h : parseHead trivia offset line = some head) :
    head.line = line ∧ head.lineStart = trivia.span.start + offset ∧ Part head.content line := by
  unfold parseHead at h
  dsimp only at h
  split at h
  · cases h
  · rw [← Option.some.inj h]
    refine ⟨rfl, rfl, ?_⟩
    exact (part_dropWhile _ _).trans ((part_drop _ _).trans (part_dropWhile _ line))

section Head

variable {head : LineHead} (hline : Part head.line (Slice.whole trivia.value))
  (hstart : head.lineStart = trivia.span.start + head.line.start)
  (hcontent : Part head.content head.line)
include hline hstart hcontent

theorem parseAll_spec {p : Pragma}
    (h : parseAll hash file trivia categories head = some p) :
    PointsAt trivia p ∧ trivia.span.start + head.line.start ≤ p.codeSpan.start ∧
      p.codeSpan.stop ≤ trivia.span.start + head.line.stop := by
  unfold parseAll at h
  have hfirst : Part (splitnWhitespace2 head.content).1 head.content ∧
      (splitnWhitespace2 head.content).1.start = head.content.start := by
    unfold splitnWhitespace2
    split
    · exact ⟨part_take _ _, rfl⟩
    · exact ⟨Part.refl _, rfl⟩
  obtain ⟨hword, hwordStart⟩ := hfirst
  dsimp only at h
  split at h
  · cases h
  · next hall =>
    have helems := not_not.mp hall
    split at h
    · next description category _ _ =>
      have hinside := hword.trans (hcontent.trans hline)
      have hle := hcontent.start_le
      have hlength : (text "all").length = (splitnWhitespace2 head.content).1.elems.length := by
        rw [helems]
        rfl
      have hstop := (hword.trans hcontent).stop_le
      have hcodeStart : head.lineStart + (head.content.start - head.line.start) =
          trivia.span.start + (splitnWhitespace2 head.content).1.start := by
        omega
      have hcodeStop : trivia.span.start + (splitnWhitespace2 head.content).1.start +
          (text "all").length =
            trivia.span.start + (splitnWhitespace2 head.content).1.stop := by
        rw [Slice.stop_eq, ← hlength, Nat.add_assoc]
      rw [hcodeStart, hcodeStop] at h
      rw [← Option.some.inj h]
      have htext : utf8 (text "all") = (splitnWhitespace2 head.content).1.elems := by
        rw [helems]
        rfl
      have hcode : text "all" = [] ++ text "all" := rfl
      have hpoints := pointsAt_codeSpan (p := head.pragma hash file trivia category (text "all")
        description ⟨file.id hash, _, _⟩ none 1) hinside htext hcode (Nat.le_add_right _ _) le_rfl
        rfl (.inl ⟨rfl, rfl⟩)
      refine ⟨hpoints, ?_, ?_⟩
      · exact Nat.add_le_add_left (hle.trans hword.start_le) _
      · exact Nat.add_le_add_left hstop _
    · cases h

variable {categoryBytes codesPart : Slice UInt8} (hcategory : Part categoryBytes head.content)
  (hcodes : Part codesPart head.content) (hbefore : categoryBytes.stop ≤ codesPart.start)
  {codesStartOffset : ℕ} (hoffset : codesStartOffset = trivia.span.start + codesPart.start)
  {category description : Text}
include hcategory hcodes hbefore hoffset

theorem parseChunk_spec {chunk : Slice UInt8} (hchunk : Part chunk codesPart) {p : Pragma}
    (h : parseChunk hash file trivia categories head category description categoryBytes codesPart
      codesStartOffset chunk = some p) :
    PointsAt trivia p ∧ p.codeSpan.stop ≤ trivia.span.start + chunk.stop ∧
      trivia.span.start + categoryBytes.start ≤ p.codeSpan.start ∧
      (codesPart.start < chunk.start → trivia.span.start + chunk.start ≤ p.codeSpan.start) := by
  have hpart := part_trim isAsciiWhitespace chunk
  have htrim := start_trim chunk
  have hchunkStart := hchunk.start_le
  have hcategoryStart := hcategory.start_le.trans' hcontent.start_le
  have htrimStart := hpart.start_le
  have htrimStop := hpart.stop_le
  unfold parseChunk at h
  dsimp only at h
  split at h
  · cases h
  · cases htext : decodeUtf8 (chunk.trim isAsciiWhitespace).elems with
    | none =>
      rw [htext] at h
      cases h
    | some chunkText =>
      rw [htext] at h
      dsimp only at h
      have helems := utf8_of_decodeUtf8 htext
      obtain ⟨before, hcode⟩ := exists_withoutCategory categories chunkText
      have hcodeStart : codesStartOffset + (chunk.start - codesPart.start +
          (chunk.length - (trimStart chunk).length)) =
            trivia.span.start + (chunk.trim isAsciiWhitespace).start := by
        omega
      have hcodeEnd : trivia.span.start + (chunk.trim isAsciiWhitespace).start +
          (utf8 chunkText).length = trivia.span.start + (chunk.trim isAsciiWhitespace).stop := by
        rw [helems, Slice.stop_eq, Nat.add_assoc]
      rw [hcodeStart, hcodeEnd] at h
      generalize hentry : (if chunk.start - codesPart.start = 0 then
        head.lineStart + (categoryBytes.start - head.line.start)
        else trivia.span.start + (chunk.trim isAsciiWhitespace).start) = entry at h
      have hcodesLe : categoryBytes.start ≤ codesPart.start :=
        (Nat.le_add_right _ _).trans hbefore
      obtain ⟨hfirst, hle, hlater⟩ : trivia.span.start + categoryBytes.start ≤ entry ∧
          entry ≤ trivia.span.start + (chunk.trim isAsciiWhitespace).start ∧
          (codesPart.start < chunk.start → trivia.span.start + chunk.start ≤ entry) := by
        rw [← hentry, hstart]
        split <;> omega
      have hinside := hpart.trans (hchunk.trans (hcodes.trans (hcontent.trans hline)))
      have hcomment : trivia.span.start ≤ entry := (Nat.le_add_right _ _).trans hfirst
      cases hcount : parseCountSuffix (withoutCategory categories chunkText) with
      | none =>
        rw [hcount] at h
        rw [← Option.some.inj h]
        have hpoints := pointsAt_codeSpan (p := head.pragma hash file trivia category
          (withoutCategory categories chunkText) description ⟨file.id hash, entry, _⟩ none 1)
          hinside helems hcode hcomment hle rfl (.inl ⟨rfl, rfl⟩)
        refine ⟨hpoints, ?_, hfirst, hlater⟩
        exact Nat.add_le_add_left htrimStop _
      | some counted =>
        obtain ⟨base, count, n⟩ := counted
        rw [hcount] at h
        rw [← Option.some.inj h]
        have hpoints := pointsAt_codeSpan (p := head.pragma hash file trivia category base
          description ⟨file.id hash, entry, _⟩ (some ⟨file.id hash, _, _⟩) count)
          hinside helems hcode hcomment hle rfl (.inr ⟨n, hcount, rfl⟩)
        refine ⟨hpoints, ?_, hfirst, hlater⟩
        exact Nat.add_le_add_left htrimStop _

end Head

theorem part_splitOnceByte {s before after : Slice UInt8} {b : UInt8}
    (h : splitOnceByte s b = some (before, after)) :
    Part before s ∧ Part after s ∧ before.stop ≤ after.start := by
  obtain ⟨i, hi, hparts⟩ := Option.map_eq_some_iff.mp h
  obtain ⟨rfl, rfl⟩ := Prod.mk.inj hparts
  obtain ⟨hlt, -⟩ := List.findIdx?_eq_some_iff_getElem.mp hi
  refine ⟨part_take i s, part_drop (i + 1) s, ?_⟩
  simp only [Slice.take, Slice.drop, Slice.stop_eq, Slice.length, List.length_take]
  omega

theorem part_splitCodesAndDescription (s : Slice UInt8) :
    Part (splitCodesAndDescription s).1 s := by
  unfold splitCodesAndDescription
  split
  · exact part_take _ s
  · exact Part.refl s

/-- The sum of the offset of the line and the address of the codes does not saturate. -/
def Unsaturated (trivia : Trivia) (address : ℕ) (line : Slice UInt8) : Prop :=
  trivia.span.start + line.start + low32 (address + line.start) + line.length < 2 ^ 32

theorem codesOffset_eq {head : LineHead} {codesPart : Slice UInt8}
    (hstart : head.lineStart = trivia.span.start + head.line.start)
    (hcodes : Part codesPart head.line) (hsum : Unsaturated trivia address head.line) :
    codesOffset address head codesPart = trivia.span.start + codesPart.start := by
  have hle := hcodes.start_le
  have hstop := hcodes.stop_le
  unfold Unsaturated at hsum
  unfold codesOffset saturatingAdd
  rw [hstart]
  simp only [low32, Slice.stop_eq, Slice.length] at hsum hstop ⊢
  omega

/-- The pragmas of a line are pragmas of its text, one behind the other. -/
structure LineSpec (trivia : Trivia) (line : Slice UInt8) (pragmas : List Pragma) : Prop where
  pointsAt : ∀ p ∈ pragmas, PointsAt trivia p
  start_le : ∀ p ∈ pragmas, trivia.span.start + line.start ≤ p.codeSpan.start
  stop_le : ∀ p ∈ pragmas, p.codeSpan.stop ≤ trivia.span.start + line.stop
  pairwise : pragmas.Pairwise fun p q => p.codeSpan.stop < q.codeSpan.start

theorem LineSpec.nil (line : Slice UInt8) : LineSpec trivia line [] :=
  ⟨fun _ h => absurd h List.not_mem_nil, fun _ h => absurd h List.not_mem_nil,
    fun _ h => absurd h List.not_mem_nil, List.Pairwise.nil⟩

theorem parseCodes_spec {head : LineHead} (hline : Part head.line (Slice.whole trivia.value))
    (hstart : head.lineStart = trivia.span.start + head.line.start)
    (hcontent : Part head.content head.line) (hsum : Unsaturated trivia address head.line)
    {categoryBytes rest : Slice UInt8}
    (hsplit : splitOnceByte head.content (byte ':') = some (categoryBytes, rest)) :
    LineSpec trivia head.line
      (parseCodes hash file trivia categories address head categoryBytes rest) := by
  obtain ⟨hcategory, hrest, hbefore⟩ := part_splitOnceByte hsplit
  have htrimmed := part_dropWhile isAsciiWhitespace rest
  have hpart := (part_splitCodesAndDescription (trimStart rest)).trans htrimmed
  have hcodes := hpart.trans hrest
  have hlater := hbefore.trans hpart.start_le
  unfold parseCodes
  split
  · exact .nil _
  split
  · exact .nil _
  next category _ =>
  split
  · exact .nil _
  dsimp only
  split
  · exact .nil _
  split
  · exact .nil _
  next description _ =>
  have hoffset := codesOffset_eq hstart (hcodes.trans hcontent) hsum
  obtain ⟨hparts, hpairwise⟩ := successive_pieces (fun b => b == byte ',')
    (splitCodesAndDescription (trimStart rest)).1
  have hchunk {chunk : Slice UInt8} (hmem : chunk ∈ Slice.pieces (fun b => b == byte ',')
      (splitCodesAndDescription (trimStart rest)).1) {p : Pragma}
      (h : parseChunk hash file trivia categories head category description categoryBytes
        (splitCodesAndDescription (trimStart rest)).1 (codesOffset address head
          (splitCodesAndDescription (trimStart rest)).1) chunk = some p) :=
    parseChunk_spec hline hstart hcontent hcategory hcodes hlater hoffset (hparts chunk hmem) h
  have hcategoryStart := (hcategory.trans hcontent).start_le
  have hcodesStop := (hcodes.trans hcontent).stop_le
  constructor
  · intro p hp
    obtain ⟨chunk, hmem, h⟩ := List.mem_filterMap.mp hp
    exact (hchunk hmem h).1
  · intro p hp
    obtain ⟨chunk, hmem, h⟩ := List.mem_filterMap.mp hp
    have hle := (hchunk hmem h).2.2.1
    omega
  · intro p hp
    obtain ⟨chunk, hmem, h⟩ := List.mem_filterMap.mp hp
    have hle := (hchunk hmem h).2.1
    have hstop := (hparts chunk hmem).stop_le
    omega
  · refine List.pairwise_filterMap.mpr (hpairwise.imp_of_mem ?_)
    intro a b ha hb hab p hp q hq
    have hstop := (hchunk ha hp).2.1
    have hle := (hparts a ha).start_le
    have hsize : a.start ≤ a.stop := Nat.le_add_right _ _
    -- A piece that is not the first one starts at its own code.
    have hnext := (hchunk hb hq).2.2.2 (by omega)
    omega

theorem parseLine_spec {line : Slice UInt8} (hline : Part line (Slice.whole trivia.value))
    (hsum : Unsaturated trivia address line) : LineSpec trivia line
      (parseLine hash file trivia categories address line.start line) := by
  unfold parseLine
  cases hhead : parseHead trivia line.start line with
  | none => exact .nil line
  | some head =>
    obtain ⟨rfl, hstart, hcontent⟩ := parseHead_spec hhead
    dsimp only
    cases hsplit : splitOnceByte head.content (byte ':') with
    | some parts => exact parseCodes_spec hline hstart hcontent hsum hsplit
    | none =>
      cases hall : parseAll hash file trivia categories head with
      | none => exact .nil _
      | some p =>
        obtain ⟨hpoints, hle, hstop⟩ := parseAll_spec hline hstart hcontent hall
        constructor
        · intro q hq
          rwa [List.mem_singleton.mp hq]
        · intro q hq
          rwa [List.mem_singleton.mp hq]
        · intro q hq
          rwa [List.mem_singleton.mp hq]
        · exact List.pairwise_singleton _ _

/-! ## Comments -/

theorem parsePragmasInTrivia_pointsAt (trivia : Trivia) (categories : List Text) (address : ℕ)
    (hsum : ∀ entry ∈ commentLines trivia, Unsaturated trivia address entry.2) :
    (∀ p ∈ parsePragmasInTrivia hash file trivia categories address, PointsAt trivia p) ∧
      (parsePragmasInTrivia hash file trivia categories address).Pairwise
        fun p q => p.codeSpan.stop < q.codeSpan.start := by
  obtain ⟨hoffsets, hparts, hpairwise⟩ := commentLines_spec trivia
  have hspec {entry : ℕ × Slice UInt8} (hentry : entry ∈ commentLines trivia) :
      LineSpec trivia entry.2
        (parseLine hash file trivia categories address entry.1 entry.2) := by
    rw [hoffsets entry hentry]
    exact parseLine_spec (hparts _ (List.mem_map_of_mem hentry)) (hsum entry hentry)
  constructor
  · intro p hp
    obtain ⟨entry, hentry, hmem⟩ := List.mem_flatMap.mp hp
    exact (hspec hentry).pointsAt p hmem
  · refine List.pairwise_flatMap.mpr ⟨fun entry hentry => (hspec hentry).pairwise, ?_⟩
    refine (List.pairwise_map.mp hpairwise).imp_of_mem ?_
    intro a b ha hb hab p hp q hq
    have hstop := (hspec ha).stop_le p hp
    have hstart := (hspec hb).start_le q hq
    omega

/-- A comment with two codes. A no-break space stands in front of the count of the second one. -/
def countedComment : Trivia where
  kind := .singleLineComment
  span := ⟨1, 6, 38⟩
  value := utf8 (text "// @mago-ignore lint:a,foo\u00a0(3)")

def countedFile : File ℕ := ⟨[], .host, none, byteString "<?php " ++ countedComment.value⟩

theorem parsePragmasInTrivia_pointsAt_counted :
    let pragmas := parsePragmasInTrivia (fun _ => 1) countedFile countedComment [text "lint"] 0
    pragmas.map (fun p => (p.code, p.expectedMatches)) = [(text "a", 1), (text "foo", 3)] ∧
      (∀ p ∈ pragmas, PointsAt countedComment p) ∧
      pragmas.Pairwise fun p q => p.codeSpan.stop < q.codeSpan.start :=
  ⟨by decide +kernel, parsePragmasInTrivia_pointsAt countedComment [text "lint"] 0
    (by unfold Unsaturated; decide +kernel)⟩

/-- The space before the count is neither part of the code nor of the count. -/
theorem parsePragmasInTrivia_space :
    ¬ ∀ p ∈ parsePragmasInTrivia (fun _ => 1) countedFile countedComment [text "lint"] 0,
      ∀ span ∈ p.countSpan, utf8 p.code ++ sourceText countedComment span <:+
        sourceText countedComment p.codeSpan := by
  decide +kernel

end Mago.Suppression
