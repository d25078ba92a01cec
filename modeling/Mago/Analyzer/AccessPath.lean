import Mago.Syntax.IntegerLiteral

/-!
# Access paths

The name of a variable, a class or a property, followed by indices and properties, as one text.
The scanner that splits it up gives back the pieces it was built from: indices stay whole, however
deep they nest, and so do the quoted strings in them. A path is shorter than 2^32 bytes, so that
the counter of brackets is zero only where none is open.
-/
namespace Mago.Analyzer
open Mago.Syntax (byte byteString)
open Mago.Syntax.Literal (Base IntegerLiteral hexDigit separator)

abbrev Bytes := List UInt8

/-! ## The scanner -/

def visitPart (part : Bytes) : List Bytes := if part.isEmpty then [] else [part]

def isQuote (b : UInt8) : Bool := b == byte '\'' || b == byte '"'

def arrow : Bytes := byteString "->"

def staticArrow : Bytes := byteString "::$"

/-- The open quote after a byte of a quoted string. -/
def quoteAfter (quoteChar : UInt8) (escaped : Bool) (b : UInt8) : Option UInt8 :=
  if b = quoteChar ∧ escaped = false then none else some quoteChar

def escapedAfter (escaped : Bool) (b : UInt8) : Bool := b == byte '\\' && !escaped

/-- The parts from here on, `part` being the bytes since the last token. -/
def scanParts (quote : Option UInt8) (escaped : Bool) (brackets : ℤ) (part : Bytes) :
    Bytes → List Bytes
  | [] => visitPart part
  | b :: rest =>
    match quote with
    | some quoteChar =>
      scanParts (quoteAfter quoteChar escaped b) (escapedAfter escaped b) brackets (part ++ [b])
        rest
    | none =>
      if b = byte '[' then
        if brackets = 0 then
          visitPart part ++ [b] :: scanParts none escaped (brackets + 1) [] rest
        else scanParts none escaped (brackets + 1) (part ++ [b]) rest
      else if b = byte ']' then
        if brackets - 1 = 0 then
          visitPart part ++ [b] :: scanParts none escaped (brackets - 1) [] rest
        else scanParts none escaped (brackets - 1) (part ++ [b]) rest
      else if isQuote b then scanParts (some b) escaped brackets (part ++ [b]) rest
      else if b = byte ':' ∧ brackets = 0 ∧ rest.take 2 = [byte ':', byte '$'] then
        visitPart part ++ staticArrow :: scanParts none escaped brackets [] (rest.drop 2)
      else if b = byte '-' ∧ brackets = 0 ∧ rest.head? = some (byte '>') then
        visitPart part ++ arrow :: scanParts none escaped brackets [] rest.tail
      else scanParts none escaped brackets (part ++ [b]) rest
termination_by bytes => bytes.length
decreasing_by
  all_goals
    simp only [List.length_cons, List.length_drop, List.length_tail]
    omega

/-- The parts that are visited. -/
def forEachPathPart (path : Bytes) : List Bytes :=
  if path.isEmpty then [path] else scanParts none false 0 [] path

def borrowPathParts (path : Bytes) : List Bytes := forEachPathPart path

def pathPartCount (path : Bytes) : ℕ := (forEachPathPart path).length

/-! ## The parts of any text -/

theorem flatten_visitPart (part : Bytes) : (visitPart part).flatten = part := by
  cases part with
  | nil => rfl
  | cons b part => exact List.append_nil _

/-- A token after a part. -/
theorem flatten_visitPart_append (part token : Bytes) (parts : List Bytes) :
    (visitPart part ++ token :: parts).flatten = part ++ (token ++ parts.flatten) := by
  rw [List.flatten_append, List.flatten_cons, flatten_visitPart]

theorem ne_nil_of_mem_visitPart {part p : Bytes} (h : p ∈ visitPart part) : p ≠ [] := by
  cases part with
  | nil => cases h
  | cons b part =>
    rw [List.mem_singleton.mp h]
    exact List.cons_ne_nil _ _

theorem scanParts_flatten (quote : Option UInt8) (escaped : Bool) (brackets : ℤ)
    (part bytes : Bytes) :
    (scanParts quote escaped brackets part bytes).flatten = part ++ bytes := by
  fun_induction scanParts quote escaped brackets part bytes with
  | case1 escaped brackets part => rw [flatten_visitPart, List.append_nil]
  | case2 escaped brackets part b rest quoteChar ih => rw [ih, List.append_assoc]; rfl
  | case3 escaped part rest ih => rw [flatten_visitPart_append, ih]; rfl
  | case4 escaped brackets part rest hopen ih => rw [ih, List.append_assoc]; rfl
  | case5 escaped brackets part rest hzero hne ih => rw [flatten_visitPart_append, ih]; rfl
  | case6 escaped brackets part rest hopen hne ih => rw [ih, List.append_assoc]; rfl
  | case7 escaped brackets part b rest hleft hright hquote ih => rw [ih, List.append_assoc]; rfl
  | case8 escaped brackets part b rest hleft hright hquote hstatic ih =>
    have hrest := List.take_append_drop 2 rest
    rw [hstatic.2.2] at hrest
    rw [flatten_visitPart_append, ih, List.nil_append, hstatic.1, ← hrest]
    rfl
  | case9 escaped brackets part b rest hleft hright hquote hstatic harrow ih =>
    have hrest := List.cons_head?_tail harrow.2.2
    rw [flatten_visitPart_append, ih, List.nil_append, harrow.1, ← hrest]
    rfl
  | case10 escaped brackets part b rest hleft hright hquote hstatic harrow ih =>
    rw [ih, List.append_assoc]
    rfl

theorem scanParts_ne_nil (quote : Option UInt8) (escaped : Bool) (brackets : ℤ)
    (part bytes : Bytes) : ∀ p ∈ scanParts quote escaped brackets part bytes, p ≠ [] := by
  have htoken : ∀ {part token : Bytes} {parts : List Bytes}, token ≠ [] →
      (∀ p ∈ parts, p ≠ []) → ∀ p ∈ visitPart part ++ token :: parts, p ≠ [] := by
    intro part token parts htoken hparts p hp
    rcases List.mem_append.mp hp with hp | hp
    · exact ne_nil_of_mem_visitPart hp
    · rcases List.mem_cons.mp hp with rfl | hp
      · exact htoken
      · exact hparts p hp
  fun_induction scanParts quote escaped brackets part bytes with
  | case1 escaped brackets part => exact fun p hp => ne_nil_of_mem_visitPart hp
  | case2 escaped brackets part b rest quoteChar ih => exact ih
  | case3 escaped part rest ih => exact htoken (List.cons_ne_nil _ _) ih
  | case4 escaped brackets part rest hopen ih => exact ih
  | case5 escaped brackets part rest hzero hne ih => exact htoken (List.cons_ne_nil _ _) ih
  | case6 escaped brackets part rest hopen hne ih => exact ih
  | case7 escaped brackets part b rest hleft hright hquote ih => exact ih
  | case8 escaped brackets part b rest hleft hright hquote hstatic ih =>
    exact htoken (List.cons_ne_nil _ _) ih
  | case9 escaped brackets part b rest hleft hright hquote hstatic harrow ih =>
    exact htoken (List.cons_ne_nil _ _) ih
  | case10 escaped brackets part b rest hleft hright hquote hstatic harrow ih => exact ih

theorem forEachPathPart_flatten (path : Bytes) : (forEachPathPart path).flatten = path := by
  rw [forEachPathPart]
  split
  · exact List.append_nil path
  · exact scanParts_flatten none false 0 [] path

theorem forEachPathPart_ne_nil {path : Bytes} (h : path ≠ []) :
    ∀ p ∈ forEachPathPart path, p ≠ [] := by
  rw [forEachPathPart, if_neg (by simpa using h)]
  exact scanParts_ne_nil none false 0 [] path

/-! ## Paths -/

def isBracket (b : UInt8) : Bool := b == byte '[' || b == byte ']'

/-- Without brackets and quotes. -/
def Quiet (text : Bytes) : Prop := ∀ b ∈ text, isBracket b = false ∧ isQuote b = false

/-- Without any of the tokens and quotes. -/
structure IsPlain (text : Bytes) : Prop where
  quiet : Quiet text
  no_arrow : ¬arrow <:+: text
  no_static : ¬staticArrow <:+: text

/-- One byte of a quoted string, or two that start with a backslash. -/
inductive StringUnit (quoteChar : UInt8)
  | escape (b : UInt8)
  | plain (b : UInt8) (h : b ≠ quoteChar ∧ b ≠ byte '\\')

def StringUnit.render {quoteChar : UInt8} : StringUnit quoteChar → Bytes
  | .escape b => [byte '\\', b]
  | .plain b _ => [b]

/-- What may stand in front of a quoted string. -/
def binaryPrefixes : List Bytes := [[], byteString "b", byteString "B"]

mutual

inductive Segment
  | index (key : Index)
  | property (name : Bytes) (h : IsPlain name) (hne : name ≠ [])
  | static (name : Bytes) (h : IsPlain name) (hne : name ≠ [])

inductive Index
  | integer (l : IntegerLiteral)
  | string (lead : Bytes) (hlead : lead ∈ binaryPrefixes) (quoteChar : UInt8)
      (hquote : isQuote quoteChar = true) (units : List (StringUnit quoteChar))
  /-- The path of a variable. -/
  | variable (base : Bytes) (h : IsPlain base) (hne : base ≠ []) (segments : List Segment)

end

mutual

def renderSegments : List Segment → Bytes
  | [] => []
  | segment :: segments => segment.render ++ renderSegments segments

def Segment.render : Segment → Bytes
  | .index key => byte '[' :: (key.render ++ [byte ']'])
  | .property name _ _ => arrow ++ name
  | .static name _ _ => staticArrow ++ name

def Index.render : Index → Bytes
  | .integer l => l.raw
  | .string lead _ quoteChar _ units =>
    lead ++ quoteChar :: (units.flatMap StringUnit.render ++ [quoteChar])
  | .variable base _ _ segments => base ++ renderSegments segments

end

/-- A base with segments behind it. -/
structure Path where
  base : Bytes
  plain : IsPlain base
  segments : List Segment

def Path.render (p : Path) : Bytes := p.base ++ renderSegments p.segments

/-- The delimiters of a segment and what is between or behind them. -/
def Segment.parts : Segment → List Bytes
  | .index key => [[byte '['], key.render, [byte ']']]
  | .property name _ _ => [arrow, name]
  | .static name _ _ => [staticArrow, name]

/-- The base and the parts of the segments. No base in front of segments is no part. -/
def Path.parts (p : Path) : List Bytes :=
  (if p.base = [] ∧ p.segments ≠ [] then [] else [p.base]) ++ p.segments.flatMap Segment.parts

/-! ## Splitting a path -/

section Scan

variable {part rest : Bytes} {brackets : ℤ}

theorem scan_nil : scanParts none false brackets part [] = visitPart part := by
  rw [scanParts]

theorem scan_leftBracket : scanParts none false brackets part (byte '[' :: rest) =
    if brackets = 0 then visitPart part ++ [byte '['] :: scanParts none false (brackets + 1) [] rest
    else scanParts none false (brackets + 1) (part ++ [byte '[']) rest := by
  rw [scanParts, if_pos rfl]

theorem scan_rightBracket : scanParts none false brackets part (byte ']' :: rest) =
    if brackets - 1 = 0 then
      visitPart part ++ [byte ']'] :: scanParts none false (brackets - 1) [] rest
    else scanParts none false (brackets - 1) (part ++ [byte ']']) rest := by
  have hne : byte ']' ≠ byte '[' := by decide
  rw [scanParts, if_neg hne, if_pos rfl]

theorem ne_bracket {b : UInt8} (h : isBracket b = false) : b ≠ byte '[' ∧ b ≠ byte ']' := by
  simpa [isBracket] using h

/-- Inside brackets only brackets and quotes count. -/
theorem scan_quiet {text : Bytes} (hopen : brackets ≠ 0) (h : Quiet text) :
    scanParts none false brackets part (text ++ rest) =
      scanParts none false brackets (part ++ text) rest := by
  induction text generalizing part with
  | nil => rw [List.nil_append, List.append_nil]
  | cons b text ih =>
    rw [Quiet, List.forall_mem_cons] at h
    obtain ⟨⟨hbracket, hquote⟩, hrest⟩ := h
    obtain ⟨hleft, hright⟩ := ne_bracket hbracket
    have hfalse : ¬isQuote b = true := by simpa using hquote
    rw [List.cons_append, scanParts, if_neg hleft, if_neg hright, if_neg hfalse,
      if_neg fun h => hopen h.2.1, if_neg fun h => hopen h.2.1, ih hrest, List.append_assoc]
    rfl

/-- A quoted string is read over up to its own quote. -/
theorem scan_units {quoteChar : UInt8} (hquote : isQuote quoteChar = true)
    (units : List (StringUnit quoteChar)) :
    scanParts (some quoteChar) false brackets part
        (units.flatMap StringUnit.render ++ quoteChar :: rest) =
      scanParts none false brackets (part ++ (units.flatMap StringUnit.render ++ [quoteChar]))
        rest := by
  have hne : byte '\\' ≠ quoteChar := by
    rintro rfl
    exact absurd hquote (by decide)
  induction units generalizing part with
  | nil =>
    have hescaped : escapedAfter false quoteChar = false := by
      simp [escapedAfter, hne.symm]
    rw [List.flatMap_nil, List.nil_append, scanParts, quoteAfter, if_pos ⟨rfl, rfl⟩, hescaped]
    rfl
  | cons unit units ih =>
    rw [List.flatMap_cons, List.append_assoc]
    cases unit with
    | escape b =>
      have hafter : quoteAfter quoteChar true b = some quoteChar := if_neg fun h => by cases h.2
      have hescaped : escapedAfter true b = false := by simp [escapedAfter]
      rw [StringUnit.render, List.cons_append, List.cons_append, List.nil_append, scanParts,
        quoteAfter, if_neg fun h => hne h.1, scanParts]
      have htrue : escapedAfter false (byte '\\') = true := rfl
      rw [htrue, hafter, hescaped, ih]
      simp
    | plain b hb =>
      have hescaped : escapedAfter false b = false := by simp [escapedAfter, hb.2]
      rw [StringUnit.render, List.cons_append, List.nil_append, scanParts, quoteAfter,
        if_neg fun h => hb.1 h.1, hescaped, ih]
      simp

def isQuiet (b : UInt8) : Bool := !isBracket b && !isQuote b

theorem quiet_of_all {text : Bytes} (h : text.all isQuiet = true) : Quiet text := by
  intro b hb
  simpa [isQuiet] using List.all_eq_true.mp h b hb

theorem quiet_arrow : Quiet arrow := quiet_of_all rfl

theorem quiet_staticArrow : Quiet staticArrow := quiet_of_all rfl

theorem quiet_of_mem {texts : List Bytes} (h : texts.all (List.all · isQuiet) = true)
    {text : Bytes} (hmem : text ∈ texts) : Quiet text :=
  quiet_of_all (List.all_eq_true.mp h text hmem)

theorem quiet_binaryPrefix {lead : Bytes} (h : lead ∈ binaryPrefixes) : Quiet lead :=
  quiet_of_mem rfl h

theorem quiet_lead {base : Base} {lead : Bytes} (h : lead ∈ base.leads) : Quiet lead := by
  cases base <;> exact quiet_of_mem rfl h

theorem Quiet.append {text other : Bytes} (h : Quiet text) (hother : Quiet other) :
    Quiet (text ++ other) :=
  fun b hb => (List.mem_append.mp hb).elim (h b) (hother b)

/-- A separator or a digit is no bracket and no quote. -/
theorem quiet_raw (l : IntegerLiteral) : Quiet l.raw := by
  have hnone : ∀ b, b = byte '[' ∨ b = byte ']' ∨ b = byte '\'' ∨ b = byte '"' →
      b ≠ separator ∧ hexDigit b = none := by
    intro b h
    rcases h with rfl | rfl | rfl | rfl <;> decide
  refine (quiet_lead l.lead_mem).append fun b hb => ?_
  by_contra hloud
  have hfour : b = byte '[' ∨ b = byte ']' ∨ b = byte '\'' ∨ b = byte '"' := by
    by_contra hfour
    simp only [not_or] at hfour
    exact hloud (by simp [isBracket, isQuote, hfour])
  obtain ⟨hseparator, hdigit⟩ := hnone b hfour
  rcases l.isBody.digits b hb with heq | ⟨d, -, hd⟩
  · exact hseparator heq
  · rw [hdigit] at hd
    cases hd

theorem raw_ne_nil (l : IntegerLiteral) : l.raw ≠ [] := by
  obtain ⟨b, hb, -⟩ := l.isBody.digit
  exact List.append_ne_nil_of_right_ne_nil _ (List.ne_nil_of_mem hb)

theorem Index.render_ne_nil (key : Index) : key.render ≠ [] := by
  match key with
  | .integer l => exact raw_ne_nil l
  | .string lead _ quoteChar _ units =>
    exact List.append_ne_nil_of_right_ne_nil _ (List.cons_ne_nil _ _)
  | .variable base _ hne segments => exact List.append_ne_nil_of_left_ne_nil hne _

mutual

theorem scan_segments (segments : List Segment) {brackets : ℤ} (hopen : 0 < brackets)
    (part rest : Bytes) :
    scanParts none false brackets part (renderSegments segments ++ rest) =
      scanParts none false brackets (part ++ renderSegments segments) rest :=
  match segments with
  | [] => by rw [renderSegments, List.nil_append, List.append_nil]
  | segment :: segments => by
    rw [renderSegments, List.append_assoc, scan_segment segment hopen,
      scan_segments segments hopen, List.append_assoc]

theorem scan_segment (segment : Segment) {brackets : ℤ} (hopen : 0 < brackets)
    (part rest : Bytes) :
    scanParts none false brackets part (segment.render ++ rest) =
      scanParts none false brackets (part ++ segment.render) rest :=
  match segment with
  | .index key => by
    have hnot : ¬brackets + 1 - 1 = 0 := by omega
    rw [Segment.render, List.cons_append, scan_leftBracket, if_neg hopen.ne', List.append_assoc,
      scan_index key (by omega), List.singleton_append, scan_rightBracket, if_neg hnot,
      add_sub_cancel_right]
    simp
  | .property name h _ => by
    rw [Segment.render, List.append_assoc, scan_quiet hopen.ne' quiet_arrow,
      scan_quiet hopen.ne' h.quiet, List.append_assoc]
  | .static name h _ => by
    rw [Segment.render, List.append_assoc, scan_quiet hopen.ne' quiet_staticArrow,
      scan_quiet hopen.ne' h.quiet, List.append_assoc]

/-- An index is read over, strings and nested brackets included. -/
theorem scan_index (key : Index) {brackets : ℤ} (hopen : 0 < brackets) (part rest : Bytes) :
    scanParts none false brackets part (key.render ++ rest) =
      scanParts none false brackets (part ++ key.render) rest :=
  match key with
  | .integer l => by
    rw [Index.render, scan_quiet hopen.ne' (quiet_raw l)]
  | .string lead hlead quoteChar hquote units => by
    have hleft : quoteChar ≠ byte '[' := by
      rintro rfl
      exact absurd hquote (by decide)
    have hright : quoteChar ≠ byte ']' := by
      rintro rfl
      exact absurd hquote (by decide)
    rw [Index.render, List.append_assoc, scan_quiet hopen.ne' (quiet_binaryPrefix hlead),
      List.cons_append, List.append_assoc, List.singleton_append, scanParts, if_neg hleft,
      if_neg hright, if_pos hquote, scan_units hquote]
    simp
  | .variable base h hne segments => by
    rw [Index.render, List.append_assoc, scan_quiet hopen.ne' h.quiet,
      scan_segments segments hopen, List.append_assoc]

end

/-- No token that starts in front of it ends in it. -/
structure IsBreak (rest : Bytes) : Prop where
  not_greater : rest.head? ≠ some (byte '>')
  not_dollar : rest.head? ≠ some (byte '$')
  not_colon_dollar : rest.take 2 ≠ [byte ':', byte '$']

theorem isBreak_renderSegments (segments : List Segment) : IsBreak (renderSegments segments) := by
  cases segments with
  | nil => exact ⟨nofun, nofun, nofun⟩
  | cons segment segments =>
    rw [renderSegments]
    cases segment with
    | index key =>
      refine ⟨fun h => ?_, fun h => ?_, fun h => ?_⟩
      · exact absurd (Option.some.inj h) (by decide)
      · exact absurd (Option.some.inj h) (by decide)
      · exact absurd (List.cons.inj h).1 (by decide)
    | property name h hne =>
      refine ⟨fun h => ?_, fun h => ?_, fun h => ?_⟩
      · exact absurd (Option.some.inj h) (by decide)
      · exact absurd (Option.some.inj h) (by decide)
      · exact absurd (List.cons.inj h).1 (by decide)
    | static name h hne =>
      refine ⟨fun h => ?_, fun h => ?_, fun h => ?_⟩
      · exact absurd (Option.some.inj h) (by decide)
      · exact absurd (Option.some.inj h) (by decide)
      · exact absurd (List.cons.inj (List.cons.inj h).2).1 (by decide)

theorem IsPlain.of_cons {b : UInt8} {text : Bytes} (h : IsPlain (b :: text)) : IsPlain text where
  quiet c hc := h.quiet c (List.mem_cons_of_mem b hc)
  no_arrow hin := h.no_arrow (hin.trans (List.suffix_cons b text).isInfix)
  no_static hin := h.no_static (hin.trans (List.suffix_cons b text).isInfix)

/-- No token starts in a text without one, also not one that goes on behind it. -/
theorem IsPlain.not_static {b : UInt8} {text : Bytes} (h : IsPlain (b :: text))
    (hrest : IsBreak rest) (hb : b = byte ':') :
    (text ++ rest).take 2 ≠ [byte ':', byte '$'] := by
  intro htake
  match text with
  | [] => exact hrest.not_colon_dollar htake
  | [c] =>
    cases rest with
    | nil => cases htake
    | cons d rest =>
      injection htake with hc htake
      injection htake with hd htake
      exact hrest.not_dollar (congrArg some hd)
  | c :: d :: text =>
    injection htake with hc htake
    injection htake with hd htake
    rw [hb, hc, hd] at h
    exact h.no_static (List.prefix_append staticArrow text).isInfix

theorem IsPlain.not_arrow {b : UInt8} {text : Bytes} (h : IsPlain (b :: text))
    (hrest : IsBreak rest) (hb : b = byte '-') :
    (text ++ rest).head? ≠ some (byte '>') := by
  intro hhead
  cases text with
  | nil => exact hrest.not_greater hhead
  | cons c text =>
    injection hhead with hc
    rw [hb, hc] at h
    exact h.no_arrow (List.prefix_append arrow text).isInfix

/-- A text without tokens is one part. -/
theorem scan_plain {text : Bytes} (h : IsPlain text) (hrest : IsBreak rest) :
    scanParts none false 0 part (text ++ rest) = scanParts none false 0 (part ++ text) rest := by
  induction text generalizing part with
  | nil => rw [List.nil_append, List.append_nil]
  | cons b text ih =>
    obtain ⟨hbracket, hquote⟩ := h.quiet b List.mem_cons_self
    obtain ⟨hleft, hright⟩ := ne_bracket hbracket
    have hfalse : ¬isQuote b = true := by simpa using hquote
    rw [List.cons_append, scanParts, if_neg hleft, if_neg hright, if_neg hfalse,
      if_neg fun hb => h.not_static hrest hb.1 hb.2.2,
      if_neg fun hb => h.not_arrow hrest hb.1 hb.2.2, ih h.of_cons, List.append_assoc]
    rfl

theorem visitPart_eq {part : Bytes} (h : part ≠ []) : visitPart part = [part] := by
  rw [visitPart, if_neg (by simpa using h)]

theorem scan_arrow : scanParts none false 0 part (arrow ++ rest) =
    visitPart part ++ arrow :: scanParts none false 0 [] rest := by
  have hleft : byte '-' ≠ byte '[' := by decide
  have hright : byte '-' ≠ byte ']' := by decide
  have hquote : ¬isQuote (byte '-') = true := by decide
  have hcolon : byte '-' ≠ byte ':' := by decide
  have harrow : arrow = [byte '-', byte '>'] := rfl
  rw [harrow, List.cons_append, scanParts, if_neg hleft, if_neg hright, if_neg hquote,
    if_neg fun h => hcolon h.1, if_pos ⟨rfl, rfl, rfl⟩]
  rfl

theorem scan_staticArrow : scanParts none false 0 part (staticArrow ++ rest) =
    visitPart part ++ staticArrow :: scanParts none false 0 [] rest := by
  have hleft : byte ':' ≠ byte '[' := by decide
  have hright : byte ':' ≠ byte ']' := by decide
  have hquote : ¬isQuote (byte ':') = true := by decide
  have hstatic : staticArrow = [byte ':', byte ':', byte '$'] := rfl
  rw [hstatic, List.cons_append, scanParts, if_neg hleft, if_neg hright, if_neg hquote,
    if_pos ⟨rfl, rfl, rfl⟩]
  rfl

/-- Segment by segment. -/
theorem scan_renderSegments (segments : List Segment) :
    scanParts none false 0 part (renderSegments segments) =
      visitPart part ++ segments.flatMap Segment.parts := by
  induction segments generalizing part with
  | nil => rw [renderSegments, scan_nil, List.flatMap_nil, List.append_nil]
  | cons segment segments ih =>
    have hbreak := isBreak_renderSegments segments
    rw [renderSegments, List.flatMap_cons]
    cases segment with
    | index key =>
      rw [Segment.render, List.cons_append, scan_leftBracket, if_pos rfl, List.append_assoc,
        scan_index key (by omega), List.singleton_append, scan_rightBracket, if_pos (by omega)]
      have hzero : (0 : ℤ) + 1 - 1 = 0 := by omega
      rw [hzero, ih, List.nil_append, visitPart_eq key.render_ne_nil]
      rfl
    | property name h hne =>
      rw [Segment.render, List.append_assoc, scan_arrow, scan_plain h hbreak, ih, List.nil_append,
        visitPart_eq hne]
      rfl
    | static name h hne =>
      rw [Segment.render, List.append_assoc, scan_staticArrow, scan_plain h hbreak, ih,
        List.nil_append, visitPart_eq hne]
      rfl

end Scan

theorem renderSegments_ne_nil {segments : List Segment} (h : segments ≠ []) :
    renderSegments segments ≠ [] := by
  cases segments with
  | nil => exact absurd rfl h
  | cons segment segments =>
    rw [renderSegments]
    cases segment with
    | index key => exact List.cons_ne_nil _ _
    | property name h hne => exact List.cons_ne_nil _ _
    | static name h hne => exact List.cons_ne_nil _ _

theorem forEachPathPart_render (p : Path) : forEachPathPart p.render = p.parts := by
  rw [forEachPathPart, Path.parts]
  split
  · rename_i hempty
    obtain ⟨hbase, hsegments⟩ := List.append_eq_nil_iff.mp (List.isEmpty_iff.mp hempty)
    have hnil : p.segments = [] := by
      by_contra hne
      exact renderSegments_ne_nil hne hsegments
    rw [if_neg fun h => h.2 hnil, hnil, Path.render, hbase, hnil]
    rfl
  · rename_i hempty
    rw [Path.render, scan_plain p.plain (isBreak_renderSegments p.segments), scan_renderSegments,
      List.nil_append]
    congr 1
    by_cases hbase : p.base = []
    · have hne : p.segments ≠ [] := by
        intro hnil
        rw [Path.render, hbase, hnil] at hempty
        exact hempty rfl
      rw [if_pos ⟨hbase, hne⟩, hbase]
      rfl
    · rw [if_neg fun h => hbase h.1, visitPart_eq hbase]

/-! ## Building paths -/

def getArrayAccessId (array index : Bytes) : Bytes :=
  array ++ byteString "[" ++ index ++ byteString "]"

def getPropertyAccessExpressionId (object property : Bytes) : Bytes :=
  object ++ byteString "->" ++ property

/-- The name of the variable starts with its dollar sign. -/
def getStaticPropertyAccessExpressionId (class_ property : Bytes) : Bytes :=
  class_ ++ byteString "::" ++ property

namespace Path

variable (p : Path)

def extend (segment : Segment) : Path := { p with segments := p.segments ++ [segment] }

theorem renderSegments_append (segments others : List Segment) :
    renderSegments (segments ++ others) = renderSegments segments ++ renderSegments others := by
  induction segments with
  | nil => rfl
  | cons segment segments ih =>
    rw [List.cons_append, renderSegments, renderSegments, ih, List.append_assoc]

theorem render_extend (segment : Segment) :
    (p.extend segment).render = p.render ++ segment.render := by
  rw [render, render, extend, renderSegments_append, renderSegments, renderSegments,
    List.append_nil, List.append_assoc]

theorem getArrayAccessId_render (key : Index) :
    getArrayAccessId p.render key.render = (p.extend (.index key)).render := by
  have hleft : byteString "[" = [byte '['] := rfl
  have hright : byteString "]" = [byte ']'] := rfl
  rw [render_extend, getArrayAccessId, Segment.render, hleft, hright]
  simp

theorem getPropertyAccessExpressionId_render {name : Bytes} (h : IsPlain name) (hne : name ≠ []) :
    getPropertyAccessExpressionId p.render name = (p.extend (.property name h hne)).render := by
  rw [render_extend, getPropertyAccessExpressionId, Segment.render, List.append_assoc]
  rfl

theorem getStaticPropertyAccessExpressionId_render {name : Bytes} (h : IsPlain name)
    (hne : name ≠ []) :
    getStaticPropertyAccessExpressionId p.render (byte '$' :: name) =
      (p.extend (.static name h hne)).render := by
  rw [render_extend, getStaticPropertyAccessExpressionId, Segment.render, List.append_assoc]
  rfl

end Path

/-! ## Splitting and building -/

/-- Every text is its parts, a path splits back into what it was built from, and the ids of
accesses build paths. -/
theorem pathParts_spec :
    (∀ path : Bytes, (forEachPathPart path).flatten = path ∧
      (path ≠ [] → ∀ part ∈ forEachPathPart path, part ≠ []) ∧
      borrowPathParts path = forEachPathPart path ∧
      pathPartCount path = (forEachPathPart path).length) ∧
    (∀ p : Path, forEachPathPart p.render = p.parts) ∧
    ∀ p : Path,
      (∀ key : Index, getArrayAccessId p.render key.render = (p.extend (.index key)).render) ∧
      ∀ (name : Bytes) (h : IsPlain name) (hne : name ≠ []),
        getPropertyAccessExpressionId p.render name =
          (p.extend (.property name h hne)).render ∧
        getStaticPropertyAccessExpressionId p.render (byte '$' :: name) =
          (p.extend (.static name h hne)).render :=
  ⟨fun path => ⟨forEachPathPart_flatten path, forEachPathPart_ne_nil, rfl, rfl⟩,
    forEachPathPart_render, fun p => ⟨p.getArrayAccessId_render, fun _ h hne =>
      ⟨p.getPropertyAccessExpressionId_render h hne,
        p.getStaticPropertyAccessExpressionId_render h hne⟩⟩⟩

end Mago.Analyzer
