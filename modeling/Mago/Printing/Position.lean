import Mago.Printing.Trace

/-!
# The position counter

The printer counts the width of the current line. Here the output carries a mark on every tab
of an indentation, so that the width of the line can be read from it, and the two are compared
along a run.
-/
namespace Mago.Printing
open Library

/-- A byte of the output. -/
structure MarkedByte where
  byte : UInt8
  indents : Bool
  deriving DecidableEq, Repr

namespace MarkedByte

def plain (s : Bytes) : List MarkedByte := s.map fun c => ⟨c, false⟩

def bytes (cells : List MarkedByte) : Bytes := cells.map byte

/-- What stands behind the last line terminator. -/
def currentLine (cells : List MarkedByte) : List MarkedByte :=
  (cells.reverse.takeWhile fun c => !isLineTerminator c.byte).reverse

/-- The text of a line, its indentation tabs left out. -/
def text (line : List MarkedByte) : Bytes := bytes (line.filter fun c => !c.indents)

/-- The width of the current line: the tabs of the indentation by the setting, other text by
`stringWidth`. -/
def currentWidth (unicodeWidth : Text → ℕ) (settings : FormatSettings)
    (cells : List MarkedByte) : ℕ :=
  (currentLine cells).countP indents * settings.tabWidth +
    stringWidth unicodeWidth (text (currentLine cells))

@[simp]
theorem bytes_plain (s : Bytes) : bytes (plain s) = s := by
  induction s with
  | nil => rfl
  | cons c s ih => simpa [bytes, plain] using ih

@[simp]
theorem bytes_append (xs ys : List MarkedByte) : bytes (xs ++ ys) = bytes xs ++ bytes ys :=
  List.map_append

@[simp]
theorem text_append (xs ys : List MarkedByte) : text (xs ++ ys) = text xs ++ text ys := by
  simp [text]

@[simp]
theorem text_plain (s : Bytes) : text (plain s) = s := by
  induction s with
  | nil => rfl
  | cons c s ih => simpa [text, bytes, plain] using ih

@[simp]
theorem countP_plain (s : Bytes) : (plain s).countP indents = 0 := by
  induction s with
  | nil => rfl
  | cons c s ih => simp [plain]

/-- Bytes without a line terminator continue the line. -/
theorem currentLine_append_of_none (xs ys : List MarkedByte)
    (h : ∀ c ∈ ys, isLineTerminator c.byte = false) :
    currentLine (xs ++ ys) = currentLine xs ++ ys := by
  have hall : ∀ c ∈ ys.reverse, (!isLineTerminator c.byte) = true := by
    intro c hc
    simp [h c (List.mem_reverse.mp hc)]
  unfold currentLine
  rw [List.reverse_append, List.takeWhile_append_of_pos hall, List.reverse_append,
    List.reverse_reverse]

/-- Bytes with a line terminator start the line anew. -/
theorem currentLine_append_of_any (xs ys : List MarkedByte)
    (h : ∃ c ∈ ys, isLineTerminator c.byte = true) :
    currentLine (xs ++ ys) = currentLine ys := by
  obtain ⟨c, hc, hterm⟩ := h
  have hstop : ys.reverse.takeWhile (fun c => !isLineTerminator c.byte) ≠ ys.reverse := by
    intro hall
    have := List.takeWhile_eq_self_iff.mp hall c (List.mem_reverse.mpr hc)
    simp [hterm] at this
  have hlen : (ys.reverse.takeWhile fun c => !isLineTerminator c.byte).length ≠
      ys.reverse.length := by
    intro hlen
    exact hstop ((List.takeWhile_prefix _).eq_of_length hlen)
  unfold currentLine
  rw [List.reverse_append, List.takeWhile_append, if_neg hlen]

end MarkedByte

/-! ## Widths of texts -/

section Widths

variable (unicodeWidth : Text → ℕ)

def lastLine (s : Bytes) : Bytes := (s.reverse.takeWhile fun c => !isLineTerminator c).reverse

theorem isLineTerminator_of_isPrintable {c : UInt8} (h : isPrintable c = true) :
    isLineTerminator c = false := by
  simp only [isPrintable, Bool.and_eq_true, decide_eq_true_eq] at h
  have hten : c ≠ 10 := by
    intro hc
    rw [hc] at h
    exact absurd h.1 (by decide)
  have hthirteen : c ≠ 13 := by
    intro hc
    rw [hc] at h
    exact absurd h.1 (by decide)
  simp [isLineTerminator, hten, hthirteen]

theorem lastLine_of_none {s : Bytes} (h : ∀ c ∈ s, isLineTerminator c = false) :
    lastLine s = s := by
  have hall : ∀ c ∈ s.reverse, (!isLineTerminator c) = true := by
    intro c hc
    simp [h c (List.mem_reverse.mp hc)]
  unfold lastLine
  rw [List.takeWhile_eq_self_iff.mpr hall, List.reverse_reverse]

theorem mem_lastLine {s : Bytes} {c : UInt8} (h : c ∈ lastLine s) :
    isLineTerminator c = false := by
  have := List.mem_takeWhile_imp (List.mem_reverse.mp h)
  simpa using this

/-- A text is as wide as its last line. -/
theorem stringWidth_lastLine (s : Bytes) :
    stringWidth unicodeWidth (lastLine s) = stringWidth unicodeWidth s := by
  have hself : lastLine (lastLine s) = lastLine s := lastLine_of_none fun c hc => mem_lastLine hc
  by_cases hall : s.all isPrintable
  · have hnone : ∀ c ∈ s, isLineTerminator c = false := by
      intro c hc
      exact isLineTerminator_of_isPrintable (List.all_eq_true.mp hall c hc)
    rw [lastLine_of_none hnone]
  · unfold stringWidth
    rw [if_neg hall]
    change (if (lastLine s).all isPrintable then (lastLine s).length
      else if (lastLine (lastLine s)).all isPrintable then (lastLine (lastLine s)).length
        else unicodeWidth (replaceGlyph (fromUtf8Lossy (lastLine (lastLine s))))) =
      if (lastLine s).all isPrintable then (lastLine s).length
        else unicodeWidth (replaceGlyph (fromUtf8Lossy (lastLine s)))
    rw [hself]
    split <;> rfl

/-- The width of two texts side by side is the sum of theirs. -/
def addsUp (s t : Bytes) : Bool :=
  decide (stringWidth unicodeWidth (s ++ t) =
    stringWidth unicodeWidth s + stringWidth unicodeWidth t)

theorem stringWidth_spaces (n : ℕ) : stringWidth unicodeWidth (List.replicate n 32) = n := by
  have hall : (List.replicate n (32 : UInt8)).all isPrintable := by
    induction n with
    | zero => rfl
    | succ n ih => simp [isPrintable]
  simp [stringWidth, hall]

end Widths

namespace MarkedByte

variable {unicodeWidth : Text → ℕ} {settings : FormatSettings}

theorem currentLine_plain (s : Bytes) : currentLine (plain s) = plain (lastLine s) := by
  unfold currentLine lastLine plain
  rw [← List.map_reverse, List.takeWhile_map, List.map_reverse]
  rfl

/-- Text without a line terminator widens the line by what the widths add up to. -/
theorem currentWidth_append_plain_of_none (cells : List MarkedByte) {s : Bytes}
    (h : s.any isLineTerminator = false) :
    currentWidth unicodeWidth settings (cells ++ plain s) =
      (currentLine cells).countP indents * settings.tabWidth +
        stringWidth unicodeWidth (text (currentLine cells) ++ s) := by
  have hnone : ∀ c ∈ plain s, isLineTerminator c.byte = false := by
    intro c hc
    obtain ⟨b, hb, rfl⟩ := List.mem_map.mp hc
    simpa using List.any_eq_false.mp h b hb
  unfold currentWidth
  rw [currentLine_append_of_none _ _ hnone]
  simp

/-- Behind text with a line terminator the line is the last line of the text. -/
theorem currentWidth_append_plain_of_any (cells : List MarkedByte) {s : Bytes}
    (h : s.any isLineTerminator = true) :
    currentWidth unicodeWidth settings (cells ++ plain s) = stringWidth unicodeWidth s := by
  obtain ⟨b, hb, hterm⟩ := List.any_eq_true.mp h
  have hany : ∃ c ∈ plain s, isLineTerminator c.byte = true :=
    ⟨⟨b, false⟩, List.mem_map.mpr ⟨b, hb, rfl⟩, hterm⟩
  unfold currentWidth
  rw [currentLine_append_of_any _ _ hany, currentLine_plain]
  simp [stringWidth_lastLine]

theorem currentWidth_nil : currentWidth unicodeWidth settings [] = 0 := by
  simp [currentWidth, currentLine, text, bytes, stringWidth]

theorem endOfLine_any (e : EndOfLine) : e.asStr.any isLineTerminator = true := by
  cases e <;> decide

/-- Behind a newline the width is that of what follows it. -/
theorem currentWidth_endOfLine (cells xs : List MarkedByte) (e : EndOfLine) :
    currentWidth unicodeWidth settings (cells ++ plain e.asStr ++ xs) =
      currentWidth unicodeWidth settings xs := by
  have hline : currentLine (cells ++ plain e.asStr ++ xs) = currentLine xs := by
    by_cases hxs : ∃ c ∈ xs, isLineTerminator c.byte = true
    · exact currentLine_append_of_any _ _ hxs
    · have hnone : ∀ c ∈ xs, isLineTerminator c.byte = false := by
        intro c hc
        by_contra hterm
        exact hxs ⟨c, hc, by simpa using hterm⟩
      have hstart : currentLine (cells ++ plain e.asStr) = [] := by
        obtain ⟨b, hb, hterm⟩ := List.any_eq_true.mp (endOfLine_any e)
        have hany : ∃ c ∈ plain e.asStr, isLineTerminator c.byte = true :=
          ⟨⟨b, false⟩, List.mem_map.mpr ⟨b, hb, rfl⟩, hterm⟩
        rw [currentLine_append_of_any _ _ hany]
        cases e <;> decide
      have hself : currentLine xs = xs := by
        simpa [currentLine] using currentLine_append_of_none [] xs hnone
      rw [currentLine_append_of_none _ _ hnone, hstart, hself, List.nil_append]
  unfold currentWidth
  rw [hline]

end MarkedByte

/-! ## The marked output of a run -/

namespace Indentation

variable (unicodeWidth : Text → ℕ) (settings : FormatSettings)

/-- What `addIndentation` prints. -/
def cells (i : Indentation) : List MarkedByte :=
  (if settings.useTabs then List.replicate i.depth ⟨9, true⟩
    else MarkedByte.plain (List.replicate (i.depth * settings.tabWidth) 32)) ++
    MarkedByte.plain (i.alignment.getD [])

/-- The width of the indentation and that of the alignment add up to the width of the line. -/
def addsUp (i : Indentation) : Bool :=
  if (i.alignment.getD []).any isLineTerminator then i.depth * settings.tabWidth == 0
  else settings.useTabs ||
    Printing.addsUp unicodeWidth (List.replicate (i.depth * settings.tabWidth) 32)
      (i.alignment.getD [])

variable {unicodeWidth settings}

theorem countP_replicate_tab (n : ℕ) :
    (List.replicate n (⟨9, true⟩ : MarkedByte)).countP MarkedByte.indents = n := by
  induction n with
  | zero => rfl
  | succ n ih => simp [List.replicate_succ, ih]

theorem bytes_replicate_tab (n : ℕ) :
    MarkedByte.bytes (List.replicate n ⟨9, true⟩) = List.replicate n 9 := by
  simp [MarkedByte.bytes]

theorem text_replicate_tab (n : ℕ) :
    MarkedByte.text (List.replicate n ⟨9, true⟩) = [] := by
  induction n with
  | zero => rfl
  | succ n ih => simp [MarkedByte.text, MarkedByte.bytes]

theorem bytes_cells (i : Indentation) :
    MarkedByte.bytes (i.cells settings) =
      List.replicate (if settings.useTabs then i.depth else i.depth * settings.tabWidth)
        (if settings.useTabs then 9 else 32) ++ i.alignment.getD [] := by
  unfold cells
  rw [MarkedByte.bytes_append, MarkedByte.bytes_plain]
  split
  · rw [bytes_replicate_tab]
  · rw [MarkedByte.bytes_plain]

/-- The width that `addIndentation` counts is the width of the line iff the parts add up. -/
theorem width_cells_iff (i : Indentation) :
    i.depth * settings.tabWidth + stringWidth unicodeWidth (i.alignment.getD []) =
        MarkedByte.currentWidth unicodeWidth settings (i.cells settings) ↔
      i.addsUp unicodeWidth settings = true := by
  by_cases hterm : (i.alignment.getD []).any isLineTerminator = true
  · unfold cells addsUp
    rw [MarkedByte.currentWidth_append_plain_of_any _ hterm, if_pos hterm, beq_iff_eq]
    omega
  · have hnone : (i.alignment.getD []).any isLineTerminator = false := by simpa using hterm
    unfold cells addsUp
    rw [MarkedByte.currentWidth_append_plain_of_none _ hnone, if_neg hterm]
    by_cases htabs : settings.useTabs = true
    · have hline : MarkedByte.currentLine (List.replicate i.depth (⟨9, true⟩ : MarkedByte)) =
          List.replicate i.depth ⟨9, true⟩ := by
        have htab : ∀ c ∈ List.replicate i.depth (⟨9, true⟩ : MarkedByte),
            isLineTerminator c.byte = false := by
          intro c hc
          rw [List.eq_of_mem_replicate hc]
          rfl
        simpa [MarkedByte.currentLine] using MarkedByte.currentLine_append_of_none [] _ htab
      simp [htabs, hline, countP_replicate_tab, text_replicate_tab]
    · have hspaces : lastLine (List.replicate (i.depth * settings.tabWidth) 32) =
          List.replicate (i.depth * settings.tabWidth) 32 := by
        apply lastLine_of_none
        intro c hc
        rw [List.eq_of_mem_replicate hc]
        rfl
      rw [if_neg htabs, MarkedByte.currentLine_plain, hspaces, MarkedByte.countP_plain,
        MarkedByte.text_plain]
      simp only [Bool.not_eq_true] at htabs
      simp only [Printing.addsUp, stringWidth_spaces, htabs, Bool.false_or, decide_eq_true_eq]
      omega

end Indentation

namespace Printer

variable (unicodeWidth : Text → ℕ) (settings : FormatSettings)

def markedTrim (p : Printer) (cells : List MarkedByte) (t : Trim) : List MarkedByte :=
  if !p.canTrim then cells
  else (cells.reverse.dropWhile fun c => shouldPop t c.byte).reverse

def markedLine (p : Printer) (cells : List MarkedByte) (l : Line) (indentation : Indentation)
    (mode : Mode) : List MarkedByte :=
  if mode = .flat ∧ l.hard = false then
    if l.soft then cells else cells ++ MarkedByte.plain [32]
  else if !p.lineSuffix.isEmpty then cells
  else if l.literal then
    cells ++ MarkedByte.plain settings.endOfLine.asStr ++
      (if indentation.isRoot then indentation.cells settings else [])
  else p.markedTrim cells .whitespace ++ MarkedByte.plain settings.endOfLine.asStr ++
    indentation.cells settings

/-- The marked output behind a document. -/
def marked (p : Printer) (cells : List MarkedByte) (indentation : Indentation) (mode : Mode) :
    Document → List MarkedByte
  | .string s => cells ++ MarkedByte.plain s
  | .space s =>
    if s.soft && p.out.getLast?.any isLineTerminatorOrSpace then cells
    else cells ++ MarkedByte.plain [32]
  | .line l => p.markedLine settings cells l indentation mode
  | .trim t => p.markedTrim cells t
  | _ => cells

/-- Whether the position is counted anew. -/
def startsLine (p : Printer) (mode : Mode) : Document → Bool
  | .line l => !decide (mode = .flat ∧ l.hard = false) && p.lineSuffix.isEmpty
  | _ => false

/-- Whether the position grows by as much as the width of the line. A text with a newline has
to stand on an empty line. -/
def keepsCount (p : Printer) (cells : List MarkedByte) (indentation : Indentation) (mode : Mode) :
    Document → Bool
  | .string s =>
    if s.any isLineTerminator then MarkedByte.currentWidth unicodeWidth settings cells == 0
    else addsUp unicodeWidth (MarkedByte.text (MarkedByte.currentLine cells)) s
  | .space s =>
    s.soft && p.out.getLast?.any isLineTerminatorOrSpace ||
      addsUp unicodeWidth (MarkedByte.text (MarkedByte.currentLine cells)) [32]
  | .line l =>
    if mode = .flat ∧ l.hard = false then
      l.soft || addsUp unicodeWidth (MarkedByte.text (MarkedByte.currentLine cells)) [32]
    else !p.lineSuffix.isEmpty || (l.literal && !indentation.isRoot) ||
      indentation.addsUp unicodeWidth settings
  | .trim t =>
    decide (MarkedByte.currentWidth unicodeWidth settings (p.markedTrim cells t) =
      MarkedByte.currentWidth unicodeWidth settings cells)
  | _ => true

variable {unicodeWidth settings} {p : Printer} {cells : List MarkedByte}

theorem bytes_markedTrim (h : MarkedByte.bytes cells = p.out) (t : Trim) :
    MarkedByte.bytes (p.markedTrim cells t) = (p.handleTrim t).out := by
  unfold markedTrim handleTrim
  split
  · exact h
  · have hdrop : MarkedByte.bytes (cells.reverse.dropWhile fun c => shouldPop t c.byte) =
        (MarkedByte.bytes cells).reverse.dropWhile (shouldPop t) := by
      unfold MarkedByte.bytes
      rw [← List.map_reverse, List.dropWhile_map]
      rfl
    rw [← h, ← hdrop]
    exact List.map_reverse

theorem bytes_markedLine (h : MarkedByte.bytes cells = p.out) (l : Line)
    (indentation : Indentation) (mode : Mode) :
    MarkedByte.bytes (p.markedLine settings cells l indentation mode) =
      (p.handleLine unicodeWidth settings l indentation mode).out := by
  unfold markedLine handleLine
  split
  · split
    · exact h
    · simp [h]
  · dsimp only
    split
    · exact h
    split
    · split <;> simp [h, Indentation.bytes_cells, addIndentation]
    · have htrim := bytes_markedTrim
        (p := { p with shouldRemeasure := p.shouldRemeasure || decide (mode = .flat) }) h .whitespace
      simp only [MarkedByte.bytes_append, MarkedByte.bytes_plain, Indentation.bytes_cells,
        addIndentation]
      rw [← htrim]
      simp [markedTrim]

/-- Only texts, spaces, lines and trims print or move the position. -/
theorem handleDocument_frame (indentation : Indentation) (mode : Mode) (doc : Document)
    (hs : ∀ s, doc ≠ .string s) (hspace : ∀ s, doc ≠ .space s) (hline : ∀ l, doc ≠ .line l)
    (htrim : ∀ t, doc ≠ .trim t) :
    (p.handleDocument unicodeWidth settings indentation mode doc).out = p.out ∧
      (p.handleDocument unicodeWidth settings indentation mode doc).position = p.position := by
  cases doc with
  | string s => exact absurd rfl (hs s)
  | space s => exact absurd rfl (hspace s)
  | line l => exact absurd rfl (hline l)
  | trim t => exact absurd rfl (htrim t)
  | group contents breakMode id propagated =>
    exact ⟨handleGroup_out _ _ _ _ _ _, handleGroup_position _ _ _ _ _ _⟩
  | conditional contents states mostExpanded breakMode id propagated =>
    exact ⟨handleConditional_out _ _ _ _ _ _ _ _, handleConditional_position _ _ _ _ _ _ _ _⟩
  | rangeEnd =>
    unfold handleDocument
    dsimp only
    split <;> exact ⟨rfl, rfl⟩
  | indentIfBreak groupId contents =>
    simp only [handleDocument, handleIndentIfBreak]
    split <;> exact ⟨rfl, rfl⟩
  | lineSuffixBoundary =>
    simp only [handleDocument, handleLineSuffixBoundary]
    split <;> exact ⟨rfl, rfl⟩
  | ifBreak breakContents flatContent groupId =>
    simp only [handleDocument, handleIfBreak]
    split <;> exact ⟨rfl, rfl⟩
  | _ => exact ⟨rfl, rfl⟩

/-- The marks are of the output. -/
theorem bytes_marked (h : MarkedByte.bytes cells = p.out) (indentation : Indentation)
    (mode : Mode) (doc : Document) :
    MarkedByte.bytes (p.marked settings cells indentation mode doc) =
      (p.handleDocument unicodeWidth settings indentation mode doc).out := by
  cases doc with
  | string s => simp [marked, handleDocument, handleBytes, h]
  | space s =>
    simp only [marked, handleDocument, handleSpace]
    split
    · exact h
    · simp [h]
  | line l => exact bytes_markedLine h l indentation mode
  | trim t => exact bytes_markedTrim h t
  | _ =>
    exact h.trans
      (handleDocument_frame indentation mode _ (by simp) (by simp) (by simp) (by simp)).1.symm

/-! ## One document -/

variable (unicodeWidth settings) in
/-- The position is the width of the current line. -/
def Agrees (p : Printer) (cells : List MarkedByte) : Prop :=
  p.position = MarkedByte.currentWidth unicodeWidth settings cells

/-- Text without a newline moves the position by its width. -/
theorem agrees_append_iff (h : p.Agrees unicodeWidth settings cells) {s : Bytes}
    (hs : s.any isLineTerminator = false) :
    p.position + stringWidth unicodeWidth s =
        MarkedByte.currentWidth unicodeWidth settings (cells ++ MarkedByte.plain s) ↔
      addsUp unicodeWidth (MarkedByte.text (MarkedByte.currentLine cells)) s = true := by
  unfold Agrees MarkedByte.currentWidth at h
  rw [MarkedByte.currentWidth_append_plain_of_none _ hs, h, addsUp, decide_eq_true_eq]
  omega

theorem agrees_append_space_iff (h : p.Agrees unicodeWidth settings cells) :
    p.position + 1 =
        MarkedByte.currentWidth unicodeWidth settings (cells ++ MarkedByte.plain [32]) ↔
      addsUp unicodeWidth (MarkedByte.text (MarkedByte.currentLine cells)) [32] = true :=
  agrees_append_iff h (s := [32]) rfl

theorem agrees_handleBytes_iff (h : p.Agrees unicodeWidth settings cells)
    (indentation : Indentation) (mode : Mode) (s : Bytes) :
    (p.handleBytes unicodeWidth s).Agrees unicodeWidth settings (cells ++ MarkedByte.plain s) ↔
      p.keepsCount unicodeWidth settings cells indentation mode (.string s) = true := by
  by_cases hs : s.any isLineTerminator = true
  · simp only [Agrees, handleBytes, keepsCount, if_pos hs,
      MarkedByte.currentWidth_append_plain_of_any _ hs, beq_iff_eq]
    rw [Agrees] at h
    omega
  · have hnone : s.any isLineTerminator = false := by simpa using hs
    simp only [Agrees, handleBytes, keepsCount, if_neg hs]
    exact agrees_append_iff h hnone

theorem agrees_handleSpace_iff (h : p.Agrees unicodeWidth settings cells)
    (indentation : Indentation) (mode : Mode) (s : Space) :
    (p.handleSpace s).Agrees unicodeWidth settings
        (p.marked settings cells indentation mode (.space s)) ↔
      p.keepsCount unicodeWidth settings cells indentation mode (.space s) = true := by
  simp only [handleSpace, marked, keepsCount]
  by_cases hskip : (s.soft && p.out.getLast?.any isLineTerminatorOrSpace) = true
  · simp only [hskip, if_true, Bool.true_or, iff_true]
    exact h
  · simp only [Bool.not_eq_true] at hskip
    simp only [hskip, Bool.false_eq_true, if_false, Bool.false_or]
    exact agrees_append_space_iff h

/-- A newline counts from the indentation on. -/
theorem agrees_addIndentation_iff (before : List MarkedByte) (e : EndOfLine)
    (indentation : Indentation) :
    (p.addIndentation unicodeWidth settings indentation).Agrees unicodeWidth settings
        (before ++ MarkedByte.plain e.asStr ++ indentation.cells settings) ↔
      indentation.addsUp unicodeWidth settings = true := by
  unfold Agrees
  rw [MarkedByte.currentWidth_endOfLine, ← Indentation.width_cells_iff]
  cases indentation with
  | mk depth alignment =>
    cases alignment with
    | none => rfl
    | some alignment => rfl

/-- The bytes of a line are counted anew or, in flat mode, moved on by a space. -/
theorem agrees_handleLine_iff {l : Line} {indentation : Indentation} {mode : Mode}
    (h : p.Agrees unicodeWidth settings cells ∨ p.startsLine mode (.line l) = true) :
    (p.handleLine unicodeWidth settings l indentation mode).Agrees unicodeWidth settings
        (p.markedLine settings cells l indentation mode) ↔
      p.keepsCount unicodeWidth settings cells indentation mode (.line l) = true := by
  simp only [handleLine, markedLine, keepsCount]
  by_cases hflat : mode = .flat ∧ l.hard = false
  · have hagrees : p.Agrees unicodeWidth settings cells := by
      simpa [startsLine, hflat] using h
    rw [if_pos hflat, if_pos hflat, if_pos hflat]
    by_cases hsoft : l.soft = true
    · simpa [hsoft] using hagrees
    · simp only [hsoft, Bool.false_eq_true, if_false, Bool.false_or]
      exact agrees_append_space_iff hagrees
  · rw [if_neg hflat, if_neg hflat, if_neg hflat]
    by_cases hsuffix : p.lineSuffix.isEmpty = true
    · simp only [hsuffix, Bool.not_true, Bool.false_eq_true, if_false, Bool.false_or]
      by_cases hliteral : l.literal = true
      · simp only [hliteral, if_true, Bool.true_and]
        by_cases hroot : indentation.isRoot = true
        · simp only [hroot, if_true, Bool.not_true, Bool.false_or]
          exact agrees_addIndentation_iff cells settings.endOfLine indentation
        · simp only [hroot, Bool.false_eq_true, if_false, Bool.not_false, Bool.true_or, iff_true]
          unfold Agrees
          rw [MarkedByte.currentWidth_endOfLine, MarkedByte.currentWidth_nil]
      · simp only [hliteral, Bool.false_eq_true, if_false, Bool.false_and, Bool.false_or]
        exact agrees_addIndentation_iff _ settings.endOfLine indentation
    · have hagrees : p.Agrees unicodeWidth settings cells := by
        simpa [startsLine, hsuffix] using h
      simpa [hsuffix, Agrees, push, flushLineSuffix] using hagrees

theorem handleTrim_position (t : Trim) : (p.handleTrim t).position = p.position := by
  unfold handleTrim
  split <;> rfl

/-- A document keeps the position at the width of the line iff it keeps the count. -/
theorem agrees_handleDocument_iff {indentation : Indentation} {mode : Mode} {doc : Document}
    (h : p.Agrees unicodeWidth settings cells ∨ p.startsLine mode doc = true) :
    (p.handleDocument unicodeWidth settings indentation mode doc).Agrees unicodeWidth settings
        (p.marked settings cells indentation mode doc) ↔
      p.keepsCount unicodeWidth settings cells indentation mode doc = true := by
  by_cases hline : ∃ l, doc = .line l
  · obtain ⟨l, rfl⟩ := hline
    exact agrees_handleLine_iff h
  · have hagrees : p.Agrees unicodeWidth settings cells := by
      cases doc with
      | line l => exact absurd ⟨l, rfl⟩ hline
      | _ => exact h.resolve_right (by simp [startsLine])
    cases doc with
    | string s => exact agrees_handleBytes_iff hagrees indentation mode s
    | space s => exact agrees_handleSpace_iff hagrees indentation mode s
    | line l => exact absurd ⟨l, rfl⟩ hline
    | trim t =>
      simp only [Agrees, handleDocument, handleTrim_position, marked, keepsCount,
        decide_eq_true_eq]
      rw [Agrees] at hagrees
      omega
    | _ =>
      refine iff_of_true ?_ rfl
      exact (handleDocument_frame indentation mode _ (by simp) (by simp) (by simp)
        (by simp)).2.trans hagrees

/-- The next turn handles a group and asks for the remaining width. -/
def asksRemainingWidth (p : Printer) : Bool :=
  match p.commands with
  | ⟨_, mode, .document (.group _ _ _ _)⟩ :: _
  | ⟨_, mode, .document (.conditional _ _ _ _ _ _)⟩ :: _ =>
    !decide (mode = .flat ∧ p.shouldRemeasure = false)
  | _ => false

end Printer

/-! ## Runs -/

/-- A state with its output marked. It is in step while every document since the position was
last counted anew has kept the count. -/
structure MarkedPrinter where
  printer : Printer
  cells : List MarkedByte
  inStep : Bool

namespace MarkedPrinter

variable (unicodeWidth : Text → ℕ) (settings : FormatSettings)

def new (doc : Document) : MarkedPrinter := ⟨.new doc, [], true⟩

def handleCommand (m : MarkedPrinter) (c : Command) : MarkedPrinter :=
  let printer := m.printer.handleCommand unicodeWidth settings c
  match c.document with
  | .array _ => { m with printer := printer }
  | .document doc =>
    let doc := doc.propagateBreaks.2
    { printer := printer
      cells := m.printer.marked settings m.cells c.indentation c.mode doc
      inStep := (m.inStep || m.printer.startsLine c.mode doc) &&
        m.printer.keepsCount unicodeWidth settings m.cells c.indentation c.mode doc }

def step (m : MarkedPrinter) : Option MarkedPrinter :=
  match m.printer.commands with
  | [] => none
  | c :: commands =>
    let m := { m with printer := { m.printer with commands := commands } }
    let m := m.handleCommand unicodeWidth settings c
    some { m with printer := m.printer.flushAtEnd }

def Reaches : MarkedPrinter → MarkedPrinter → Prop :=
  Relation.ReflTransGen fun m n => m.step unicodeWidth settings = some n

/-- The state after a number of turns, when there are that many. -/
def after (turns : ℕ) (m : MarkedPrinter) : Option MarkedPrinter :=
  match turns with
  | 0 => some m
  | turns + 1 => (m.step unicodeWidth settings).bind (after turns)

/-- The marks are of the output, and a state in step has the position of the current line. -/
structure Sound (m : MarkedPrinter) : Prop where
  bytes : MarkedByte.bytes m.cells = m.printer.out
  agrees : m.inStep = true → m.printer.Agrees unicodeWidth settings m.cells

variable {unicodeWidth settings} {m n : MarkedPrinter}

theorem handleCommand_printer (c : Command) :
    (m.handleCommand unicodeWidth settings c).printer =
      m.printer.handleCommand unicodeWidth settings c := by
  unfold handleCommand
  split <;> rfl

/-- The marked states run as the states do. -/
theorem step_printer :
    (m.step unicodeWidth settings).map printer = m.printer.step unicodeWidth settings := by
  unfold step Printer.step
  cases m.printer.commands with
  | nil => rfl
  | cons c commands => simp [handleCommand_printer]

theorem exists_reaches {p q : Printer} (h : p.Reaches unicodeWidth settings q) :
    ∀ m : MarkedPrinter, m.printer = p →
      ∃ n, m.Reaches unicodeWidth settings n ∧ n.printer = q := by
  induction h with
  | refl =>
    intro m hm
    exact ⟨m, .refl, hm⟩
  | @tail q r _ hstep ih =>
    intro m hm
    obtain ⟨n, hreach, hn⟩ := ih m hm
    have hnext : (n.step unicodeWidth settings).map printer = some r := by
      rw [step_printer, hn, hstep]
    obtain ⟨k, hk, hkr⟩ := Option.map_eq_some_iff.mp hnext
    exact ⟨k, hreach.tail hk, hkr⟩

theorem sound_new (doc : Document) : (new doc).Sound unicodeWidth settings where
  bytes := rfl
  agrees _ := MarkedByte.currentWidth_nil.symm

theorem sound_handleCommand (h : m.Sound unicodeWidth settings) (c : Command) :
    (m.handleCommand unicodeWidth settings c).Sound unicodeWidth settings := by
  cases c with
  | mk indentation mode document =>
    cases document with
    | array docs => exact ⟨h.bytes, h.agrees⟩
    | document doc =>
      refine ⟨Printer.bytes_marked h.bytes indentation mode doc.propagateBreaks.2, ?_⟩
      intro hin
      obtain ⟨hbefore, hkeeps⟩ := Bool.and_eq_true_iff.mp hin
      apply (Printer.agrees_handleDocument_iff _).mpr hkeeps
      exact (Bool.or_eq_true_iff.mp hbefore).imp_left h.agrees

/-- From a state in step, the position leaves the width of the line when the count is not
kept. -/
theorem inStep_handleCommand (h : m.Sound unicodeWidth settings) (hin : m.inStep = true)
    (c : Command)
    (hagrees : (m.handleCommand unicodeWidth settings c).printer.Agrees unicodeWidth settings
      (m.handleCommand unicodeWidth settings c).cells) :
    (m.handleCommand unicodeWidth settings c).inStep = true := by
  cases c with
  | mk indentation mode document =>
    cases document with
    | array docs => exact hin
    | document doc =>
      have hkeeps := (Printer.agrees_handleDocument_iff (.inl (h.agrees hin))).mp hagrees
      simp [handleCommand, hin, hkeeps]

/-- A turn handles the top command. -/
theorem step_cases (h : m.step unicodeWidth settings = some n) :
    ∃ c commands, m.printer.commands = c :: commands ∧
      n = { { m with printer := { m.printer with commands := commands } }.handleCommand
              unicodeWidth settings c with
            printer := ({ m with printer := { m.printer with commands := commands } }.handleCommand
              unicodeWidth settings c).printer.flushAtEnd } := by
  unfold step at h
  split at h
  · cases h
  · rename_i c commands hcommands
    exact ⟨c, commands, hcommands, (Option.some.inj h).symm⟩

theorem sound_step (h : m.Sound unicodeWidth settings)
    (hstep : m.step unicodeWidth settings = some n) : n.Sound unicodeWidth settings := by
  obtain ⟨c, commands, -, rfl⟩ := step_cases hstep
  have hrest : { m with printer := { m.printer with commands := commands } }.Sound
      unicodeWidth settings := ⟨h.bytes, h.agrees⟩
  have hsound := sound_handleCommand hrest c
  constructor
  · simpa using hsound.bytes
  · intro hin
    simpa [Printer.Agrees] using hsound.agrees hin

theorem sound_of_reaches (h : m.Sound unicodeWidth settings)
    (hreach : m.Reaches unicodeWidth settings n) : n.Sound unicodeWidth settings := by
  induction hreach with
  | refl => exact h
  | tail _ hstep ih => exact sound_step ih hstep

theorem inStep_step (h : m.Sound unicodeWidth settings) (hin : m.inStep = true)
    (hstep : m.step unicodeWidth settings = some n)
    (hagrees : n.printer.Agrees unicodeWidth settings n.cells) : n.inStep = true := by
  obtain ⟨c, commands, -, rfl⟩ := step_cases hstep
  have hrest : { m with printer := { m.printer with commands := commands } }.Sound
      unicodeWidth settings := ⟨h.bytes, h.agrees⟩
  apply inStep_handleCommand hrest hin c
  simpa [Printer.Agrees] using hagrees

/-- A run has the position of the current line throughout iff it is in step throughout. -/
theorem agrees_throughout_iff (doc : Document) :
    (∀ n, (new doc).Reaches unicodeWidth settings n →
        n.printer.Agrees unicodeWidth settings n.cells) ↔
      ∀ n, (new doc).Reaches unicodeWidth settings n → n.inStep = true := by
  constructor
  · intro h n hreach
    induction hreach with
    | refl => rfl
    | tail hreach hstep ih =>
      exact inStep_step (sound_of_reaches (sound_new doc) hreach) ih hstep
        (h _ (hreach.tail hstep))
  · intro h n hreach
    exact (sound_of_reaches (sound_new doc) hreach).agrees (h n hreach)

/-- While a run is in step, the remaining width is what the current line leaves of the print
width. -/
theorem position_eq_currentWidth {doc : Document}
    (hreach : (new doc).Reaches unicodeWidth settings n) (hin : n.inStep = true) :
    MarkedByte.bytes n.cells = n.printer.out ∧
      n.printer.position = MarkedByte.currentWidth unicodeWidth settings n.cells ∧
      n.printer.remainingWidth settings =
        (settings.printWidth : ℤ) - MarkedByte.currentWidth unicodeWidth settings n.cells := by
  have hsound := sound_of_reaches (sound_new doc) hreach
  have hagrees := hsound.agrees hin
  refine ⟨hsound.bytes, hagrees, ?_⟩
  unfold Printer.remainingWidth
  rw [hagrees]

theorem reaches_of_after {turns : ℕ} (h : m.after unicodeWidth settings turns = some n) :
    m.Reaches unicodeWidth settings n := by
  induction turns generalizing m with
  | zero =>
    rw [← Option.some.inj h]
    exact .refl
  | succ turns ih =>
    obtain ⟨k, hk, hrest⟩ := Option.bind_eq_some_iff.mp h
    exact .head hk (ih hrest)

/-- A text with a newline behind other text, then a group. -/
def newlineBehindText : Document :=
  .array [.string [97, 98], .string [99, 10, 100], .group [] .auto none false]

def lfSettings : FormatSettings := ⟨120, 4, false, .lf⟩

/-- At the group the line is `d` and the position is three. -/
theorem position_beyond_line :
    ¬ ∀ (doc : Document) (settings : FormatSettings) (n : MarkedPrinter),
      (new doc).Reaches List.length settings n → n.printer.asksRemainingWidth = true →
        n.printer.position = MarkedByte.currentWidth List.length settings n.cells := by
  intro h
  have hafter : ∃ n, (new newlineBehindText).after List.length lfSettings 3 = some n ∧
      n.printer.asksRemainingWidth = true ∧ n.printer.position = 3 ∧
      MarkedByte.currentWidth List.length lfSettings n.cells = 1 :=
    ⟨_, rfl, rfl, rfl, rfl⟩
  obtain ⟨n, hn, hasks, hposition, hwidth⟩ := hafter
  have := h newlineBehindText lfSettings n (reaches_of_after hn) hasks
  omega

/-- A text, then a group. -/
theorem position_eq_currentWidth_text :
    ∃ n, (new (.array [.string [97, 98], .group [] .auto none false])).Reaches List.length
        lfSettings n ∧ n.printer.asksRemainingWidth = true ∧ n.printer.position = 2 ∧
      n.printer.position = MarkedByte.currentWidth List.length lfSettings n.cells := by
  have hafter : ∃ n, (new (.array [.string [97, 98], .group [] .auto none false])).after
      List.length lfSettings 2 = some n ∧ n.printer.asksRemainingWidth = true ∧
      n.inStep = true ∧ n.printer.position = 2 := ⟨_, rfl, rfl, rfl, rfl⟩
  obtain ⟨n, hn, hasks, hin, hposition⟩ := hafter
  have hreach := reaches_of_after hn
  exact ⟨n, hreach, hasks, hposition, (position_eq_currentWidth hreach hin).2.1⟩

end MarkedPrinter

end Mago.Printing
