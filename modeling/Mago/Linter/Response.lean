import Mago.Library.Fallible
import Mago.Linter.Registration

/-!
# Issues of external linter rules

A worker answers a lint request with the issues its rules have found in the file. The answer is
accepted exactly when it is what a worker writes for issues of active rules that lie within the
file and have a primary annotation.
-/
namespace Mago.Linter
open Library Extension
open Storage (File FileId)
open Extension.PayloadReader Extension.PayloadWriter
open Suppression (Level Annotation Issue text)
open Reporting (AnnotationKind Span)
open Editing (Safety TextEdit TextRange)

def lintFileResponse : UInt16 := 0x8002

def maximumIssuesPerFile : ℕ := 1000000

def maximumAnnotationsPerIssue : ℕ := 0x10000

def maximumEditsPerIssue : ℕ := 0x10000

def maximumNotesPerIssue : ℕ := 0x10000

/-! ## Tags -/

def annotationKindValue : AnnotationKind → UInt8
  | .primary => 1
  | .secondary => 2

def annotationKindOf (value : UInt8) : Option AnnotationKind :=
  if value = 1 then some .primary else if value = 2 then some .secondary else none

def readAnnotationKind : Read AnnotationKind :=
  readTag "annotation kind" annotationKindOf (text "invalid annotation kind ")

def safetyValue : Safety → UInt8
  | .safe => 1
  | .potentiallyUnsafe => 2
  | .Unsafe => 3

def safetyOf (value : UInt8) : Option Safety :=
  if value = 1 then some .safe
  else if value = 2 then some .potentiallyUnsafe
  else if value = 3 then some .Unsafe
  else none

def readSafety (description : String) : Read Safety :=
  readTag description safetyOf (text "invalid text edit safety ")

theorem annotationKindOf_eq_some_iff (value : UInt8) (kind : AnnotationKind) :
    annotationKindOf value = some kind ↔ value = annotationKindValue kind := by
  constructor
  · intro h
    rw [annotationKindOf] at h
    split_ifs at h <;> cases h <;> assumption
  · intro h
    subst h
    cases kind <;> rfl

theorem safetyOf_eq_some_iff (value : UInt8) (safety : Safety) :
    safetyOf value = some safety ↔ value = safetyValue safety := by
  constructor
  · intro h
    rw [safetyOf] at h
    split_ifs at h <;> cases h <;> assumption
  · intro h
    subst h
    cases safety <;> rfl

/-! ## Decoding -/

section Decode

variable {π κ : Type} (hash : Bytes → FileId) (file : File π)

def invalidRange (code : Text) (what : String) (start stop : ℕ) : ExternalLintError :=
  .protocol (text "rule `" ++ code ++ text "` reported invalid " ++ text what ++
    text (toString start) ++ text ".." ++ text (toString stop) ++ text " for a " ++
      text (toString file.size) ++ text "-byte file")

/-- One more annotation, and whether there is a primary one. -/
def readAnnotationOf (code : Text) (acc : List Annotation × Bool) :
    Read (List Annotation × Bool) := do
  let kind ← readAnnotationKind
  let start ← payload (readU32 "annotation start")
  let stop ← payload (readU32 "annotation end")
  reject (start > stop ∨ stop > file.size)
    (invalidRange file code "annotation span " start stop)
  let message ← payload (readOptionalString "annotation message")
  let mark : Annotation := ⟨message, kind, ⟨file.id hash, start, stop⟩⟩
  return (acc.1 ++ [mark], acc.2 || kind == .primary)

def readEdit (code : Text) : Read TextEdit := do
  let start ← payload (readU32 "edit start")
  let stop ← payload (readU32 "edit end")
  reject (start > stop ∨ stop > file.size) (invalidRange file code "edit range " start stop)
  let safety ← readSafety "edit safety"
  let newText ← payload (readBytes "edit replacement")
  return { TextEdit.replace ⟨start, stop⟩ newText with safety := safety }

/-- The edits of one file, if there are any. -/
def fileEdits (fileId : FileId) (edits : List TextEdit) : FileId → Option (List TextEdit) :=
  if edits = [] then fun _ => none else Function.update (fun _ => none) fileId (some edits)

/-- What follows the rule of an issue. -/
def readIssueOf (code : Text) (level : Level) : Read Issue := do
  let message ← payload (readStr "issue message")
  reject (message = [])
    (.protocol (text "rule `" ++ code ++ text "` reported an empty issue message"))
  let noteCount ← payload (readCount "issue notes" maximumNotesPerIssue)
  let notes ← collect (payload (readStr "issue note")) noteCount
  let help ← payload (readOptionalString "issue help")
  let link ← payload (readOptionalString "issue link")
  let annotationCount ← payload (readCount "issue annotations" maximumAnnotationsPerIssue)
  let annotations ← rounds (readAnnotationOf hash file code) annotationCount ([], false)
  reject (annotations.2 = false) (.protocol (text "rule `" ++ code ++
    text "` reported an issue without a primary annotation"))
  let editCount ← payload (readCount "issue edits" maximumEditsPerIssue)
  let edits ← collect (readEdit file code) editCount
  return ⟨level, some code, message, notes, help, link, annotations.1,
    fileEdits (file.id hash) edits⟩

def readIssue (rules : List (ExternalRule κ)) (levels : List Level) (activeRules : List UInt16) :
    Read Issue := do
  let ruleIndex ← payload (readU16 "issue rule index")
  reject (ruleIndex ∉ activeRules) (.protocol (text "worker reported inactive rule index `" ++
    text (toString ruleIndex) ++ text "`"))
  let rule ← require rules[ruleIndex.toNat]? (.protocol
    (text "worker reported unregistered rule index `" ++ text (toString ruleIndex) ++ text "`"))
  let level ← require levels[ruleIndex.toNat]? .panicked
  readIssueOf hash file rule.code level

def readIssues (rules : List (ExternalRule κ)) (levels : List Level)
    (activeRules : List UInt16) : Read (List Issue) := do
  messageReader lintFileResponse
  let issueCount ← payload (readCount "issues" maximumIssuesPerFile)
  collect (readIssue hash file rules levels activeRules) issueCount

def decodeLintResponse (message : Buffer) (rules : List (ExternalRule κ)) (levels : List Level)
    (activeRules : List UInt16) : Except ExternalLintError (List Issue) :=
  decodeMessage (readIssues hash file rules levels activeRules) message

end Decode

/-! ## Encoding -/

structure ReportedAnnotation where
  kind : AnnotationKind
  start : ℕ
  stop : ℕ
  message : Option Text
  deriving DecidableEq

/-- What a worker reports of an issue. -/
structure ReportedIssue where
  ruleIndex : UInt16
  message : Text
  notes : List Text
  help : Option Text
  link : Option Text
  annotations : List ReportedAnnotation
  edits : List TextEdit
  deriving DecidableEq

def writeAnnotationOf (mark : ReportedAnnotation) (writer : Bytes) :
    Except PayloadError Bytes := do
  let writer := writeU8 (annotationKindValue mark.kind) writer
  let writer := writeU32 mark.start writer
  let writer := writeU32 mark.stop writer
  writeOptionalString mark.message writer

def writeEdit (edit : TextEdit) (writer : Bytes) : Except PayloadError Bytes := do
  let writer := writeU32 edit.range.start writer
  let writer := writeU32 edit.range.stop writer
  let writer := writeU8 (safetyValue edit.safety) writer
  writeBytes edit.newText writer

def writeIssue (issue : ReportedIssue) (writer : Bytes) : Except PayloadError Bytes := do
  let writer := writeU16 issue.ruleIndex writer
  let writer ← writeString issue.message writer
  let writer ← writeLength issue.notes.length writer
  let writer ← issue.notes.foldlM (fun writer note => writeString note writer) writer
  let writer ← writeOptionalString issue.help writer
  let writer ← writeOptionalString issue.link writer
  let writer ← writeLength issue.annotations.length writer
  let writer ← issue.annotations.foldlM (fun writer mark => writeAnnotationOf mark writer)
    writer
  let writer ← writeLength issue.edits.length writer
  issue.edits.foldlM (fun writer edit => writeEdit edit writer) writer

/-- The answer of a worker of any minor version. -/
def writeIssues (minor : UInt16) (issues : List ReportedIssue) : Except PayloadError Bytes := do
  let writer ← writeLength issues.length (messageHeader minor lintFileResponse)
  issues.foldlM (fun writer issue => writeIssue issue writer) writer

/-! ## Formats -/

def IsAnnotationOf (mark : ReportedAnnotation) : Bytes → Prop :=
  Followed (IsU8 (annotationKindValue mark.kind)) (Followed (IsU32 mark.start)
    (Followed (IsU32 mark.stop) (IsOptionalString mark.message)))

def IsEdit (edit : TextEdit) : Bytes → Prop :=
  Followed (IsU32 edit.range.start) (Followed (IsU32 edit.range.stop)
    (Followed (IsU8 (safetyValue edit.safety)) (IsBytes edit.newText)))

/-- What follows the rule of an issue. -/
def IsIssueOf (issue : ReportedIssue) : Bytes → Prop :=
  Followed (IsString issue.message)
    (Followed (IsU32 issue.notes.length) (Followed (Each IsString issue.notes)
      (Followed (IsOptionalString issue.help) (Followed (IsOptionalString issue.link)
        (Followed (IsU32 issue.annotations.length) (Followed (Each IsAnnotationOf issue.annotations)
          (Followed (IsU32 issue.edits.length) (Each IsEdit issue.edits))))))))

def IsIssue (issue : ReportedIssue) : Bytes → Prop :=
  Followed (IsU16 issue.ruleIndex) (IsIssueOf issue)

/-! ## What a worker may report -/

section Admissible

variable {π : Type} (hash : Bytes → FileId) (file : File π)

structure ReportedIssue.Admissible (issue : ReportedIssue) : Prop where
  message : issue.message ≠ []
  primary : ∃ mark ∈ issue.annotations, mark.kind = .primary
  annotations : ∀ mark ∈ issue.annotations,
    mark.start ≤ mark.stop ∧ mark.stop ≤ file.size
  edits : ∀ edit ∈ issue.edits, edit.range.start ≤ edit.range.stop ∧ edit.range.stop ≤ file.size
  fewNotes : issue.notes.length ≤ maximumNotesPerIssue
  fewAnnotations : issue.annotations.length ≤ maximumAnnotationsPerIssue
  fewEdits : issue.edits.length ≤ maximumEditsPerIssue

def ReportedAnnotation.inFile (mark : ReportedAnnotation) : Annotation :=
  ⟨mark.message, mark.kind, ⟨file.id hash, mark.start, mark.stop⟩⟩

/-- The issue of a rule with its level. -/
def ReportedIssue.toIssue (issue : ReportedIssue) (code : Text) (level : Level) : Issue :=
  ⟨level, some code, issue.message, issue.notes, issue.help, issue.link,
    issue.annotations.map (fun mark => mark.inFile hash file),
    fileEdits (file.id hash) issue.edits⟩

end Admissible

/-! ## What is read is what was written -/

section Read

variable {π κ : Type} (hash : Bytes → FileId) (file : File π)

/-- One more annotation. -/
def addAnnotationOf (acc : List Annotation × Bool) (mark : ReportedAnnotation) :
    List Annotation × Bool :=
  (acc.1 ++ [mark.inFile hash file], acc.2 || mark.kind == .primary)

theorem accepts_readAnnotationOf (code : Text) (acc : List Annotation × Bool) :
    Accepts (readAnnotationOf hash file code acc) fun acc' symbols =>
      ∃ mark : ReportedAnnotation,
        (mark.start ≤ mark.stop ∧ mark.stop ≤ file.size) ∧
          acc' = addAnnotationOf hash file acc mark ∧ IsAnnotationOf mark symbols := by
  refine ((accepts_readTag annotationKindOf_eq_some_iff).bind fun kind =>
    (accepts_payload (accepts_readU32 _)).bind fun start =>
    (accepts_payload (accepts_readU32 _)).bind fun stop => (accepts_reject _ _).bind fun _ =>
    (accepts_payload (accepts_readOptionalString _)).bind fun message => accepts_pure _).congr
    fun acc' symbols => ?_
  simp only [and_followed, followed_nil_left, followed_nil_right, exists_const, followed_and,
    followed_exists, not_or, not_lt]
  constructor
  · intro h
    obtain ⟨kind, start, stop, message, rfl, hrange, hmark⟩ := h
    exact ⟨⟨kind, start, stop, message⟩, hrange, rfl, hmark⟩
  · intro h
    obtain ⟨⟨kind, start, stop, message⟩, hrange, rfl, hmark⟩ := h
    exact ⟨kind, start, stop, message, rfl, hrange, hmark⟩

theorem accepts_readEdit (code : Text) :
    Accepts (readEdit file code) fun edit symbols =>
      (edit.range.start ≤ edit.range.stop ∧ edit.range.stop ≤ file.size) ∧ IsEdit edit symbols := by
  refine ((accepts_payload (accepts_readU32 _)).bind fun start =>
    (accepts_payload (accepts_readU32 _)).bind fun stop => (accepts_reject _ _).bind fun _ =>
    (accepts_readTag safetyOf_eq_some_iff).bind fun safety =>
    (accepts_payload (accepts_readBytes _)).bind fun newText => accepts_pure _).congr
    fun edit symbols => ?_
  simp only [and_followed, followed_nil_left, followed_nil_right, exists_const, followed_and,
    followed_exists, not_or, not_lt]
  constructor
  · intro h
    obtain ⟨start, stop, safety, newText, rfl, hrange, hedit⟩ := h
    exact ⟨hrange, hedit⟩
  · intro h
    obtain ⟨⟨start, stop⟩, newText, safety⟩ := edit
    exact ⟨start, stop, safety, newText, rfl, h.1, h.2⟩

theorem addAnnotation_foldl (annotations : List ReportedAnnotation)
    (acc : List Annotation × Bool) : annotations.foldl (addAnnotationOf hash file) acc =
      (acc.1 ++ annotations.map (fun mark => mark.inFile hash file),
        acc.2 || annotations.any fun mark => mark.kind == .primary) := by
  induction annotations generalizing acc with
  | nil => rw [List.foldl_nil, List.map_nil, List.append_nil, List.any_nil, Bool.or_false]
  | cons mark annotations ih =>
    rw [List.foldl_cons, ih, List.map_cons, List.any_cons]
    simp only [addAnnotationOf, List.append_assoc, List.singleton_append, Bool.or_assoc]

theorem accepts_readAnnotations (code : Text) (n : ℕ) :
    Accepts (rounds (readAnnotationOf hash file code) n ([], false)) fun acc symbols =>
      ∃ annotations : List ReportedAnnotation, annotations.length = n ∧
        (∀ mark ∈ annotations,
          mark.start ≤ mark.stop ∧ mark.stop ≤ file.size) ∧
        acc = (annotations.map (fun mark => mark.inFile hash file),
          annotations.any fun mark => mark.kind == .primary) ∧
        Each IsAnnotationOf annotations symbols := by
  refine (Accepts.rounds (accepts_readAnnotationOf hash file code) n _).congr fun acc symbols => ?_
  simp only [admits_forall, addAnnotation_foldl, List.nil_append, Bool.false_or]

theorem accepts_readIssueOf (ruleIndex : UInt16) (code : Text) (level : Level) :
    Accepts (readIssueOf hash file code level) fun issue symbols =>
      ∃ reported : ReportedIssue, reported.ruleIndex = ruleIndex ∧
        reported.Admissible file ∧ issue = reported.toIssue hash file code level ∧
        IsIssueOf reported symbols := by
  refine ((accepts_payload (accepts_readStr _)).bind fun message =>
    (accepts_reject _ _).bind fun _ =>
    (accepts_payload (accepts_readCount _ _)).bind fun noteCount =>
    ((accepts_payload (accepts_readStr _)).collect noteCount).bind fun notes =>
    (accepts_payload (accepts_readOptionalString _)).bind fun help =>
    (accepts_payload (accepts_readOptionalString _)).bind fun link =>
    (accepts_payload (accepts_readCount _ _)).bind fun annotationCount =>
    (accepts_readAnnotations hash file code annotationCount).bind fun annotations =>
    (accepts_reject _ _).bind fun _ =>
    (accepts_payload (accepts_readCount _ _)).bind fun editCount =>
    ((accepts_readEdit file code).collect editCount).bind fun edits => accepts_pure _).congr
    fun issue symbols => ?_
  simp only [and_followed, followed_nil_left, followed_nil_right, exists_const, followed_and,
    followed_exists, exists_followed, each_and]
  constructor
  · intro h
    obtain ⟨message, _, notes, help, link, _, _, _, edits, rfl, rfl, hedits, hfewEdits, hprimary,
      annotations, rfl, hannotations, rfl, hfewAnnotations, rfl, hfewNotes, hmessage, hissue⟩ := h
    refine ⟨⟨ruleIndex, message, notes, help, link, annotations, edits⟩, rfl,
      ⟨hmessage, ?_, hannotations, hedits, hfewNotes, hfewAnnotations, hfewEdits⟩, rfl, hissue⟩
    simpa using hprimary
  · intro h
    obtain ⟨⟨_, message, notes, help, link, annotations, edits⟩, _, hadmissible, rfl, hissue⟩ := h
    refine ⟨message, _, notes, help, link, _, _, _, edits, rfl, rfl, hadmissible.edits,
      hadmissible.fewEdits, ?_, annotations, rfl, hadmissible.annotations, rfl,
      hadmissible.fewAnnotations, rfl, hadmissible.fewNotes, hadmissible.message, hissue⟩
    simpa using hadmissible.primary

/-- What was reported of an issue: by an active rule, which has a level. -/
def Explains (rules : List (ExternalRule κ)) (levels : List Level) (activeRules : List UInt16)
    (issue : Issue) (reported : ReportedIssue) : Prop :=
  reported.ruleIndex ∈ activeRules ∧ reported.Admissible file ∧ ∃ rule level,
    rules[reported.ruleIndex.toNat]? = some rule ∧ levels[reported.ruleIndex.toNat]? = some level ∧
      issue = reported.toIssue hash file rule.code level

theorem accepts_readIssue (rules : List (ExternalRule κ)) (levels : List Level)
    (activeRules : List UInt16) :
    Accepts (readIssue hash file rules levels activeRules) fun issue symbols =>
      ∃ reported, Explains hash file rules levels activeRules issue reported ∧
        IsIssue reported symbols := by
  refine ((accepts_payload (accepts_readU16 _)).bind fun ruleIndex =>
    (accepts_reject _ _).bind fun _ => (accepts_require rules[ruleIndex.toNat]? _).bind fun rule =>
    (accepts_require levels[ruleIndex.toNat]? _).bind fun level =>
    accepts_readIssueOf hash file ruleIndex rule.code level).congr
    fun issue symbols => ?_
  simp only [and_followed, followed_nil_left, exists_const, followed_and, followed_exists, not_not]
  constructor
  · intro h
    obtain ⟨ruleIndex, rule, level, reported, rfl, hadmissible, rfl, hlevel, hrule, hactive,
      hissue⟩ := h
    exact ⟨reported, ⟨hactive, hadmissible, rule, level, hrule, hlevel, rfl⟩, hissue⟩
  · intro h
    obtain ⟨reported, ⟨hactive, hadmissible, rule, level, hrule, hlevel, rfl⟩, hissue⟩ := h
    exact ⟨_, rule, level, reported, rfl, hadmissible, rfl, hlevel, hrule, hactive, hissue⟩

theorem accepts_readIssues (rules : List (ExternalRule κ)) (levels : List Level)
    (activeRules : List UInt16) :
    Accepts (readIssues hash file rules levels activeRules) fun issues symbols =>
      ∃ minor, ∃ reported : List ReportedIssue,
        List.Forall₂ (Explains hash file rules levels activeRules) issues reported ∧
        reported.length ≤ maximumIssuesPerFile ∧
        Followed (· = messageHeader minor lintFileResponse) (Followed (IsU32 reported.length)
          (Each IsIssue reported)) symbols := by
  refine ((accepts_messageReader _).bind fun _ => (accepts_payload (accepts_readCount _ _)).bind
    fun count => (accepts_readIssue hash file rules levels activeRules).collect count).congr
    fun issues symbols => ?_
  simp only [and_followed, followed_and, followed_exists, exists_followed, exists_const,
    each_exists]
  constructor
  · intro h
    obtain ⟨_, rfl, reported, hreported, hfew, minor, hissues⟩ := h
    rw [hreported.length_eq] at hfew hissues
    exact ⟨minor, reported, hreported, hfew, hissues⟩
  · intro h
    obtain ⟨minor, reported, hreported, hfew, hissues⟩ := h
    rw [← hreported.length_eq] at hfew hissues
    exact ⟨_, rfl, reported, hreported, hfew, minor, hissues⟩

/-! ## Writers -/

theorem emits_writeU32 {value : ℕ} (h : value ≤ u32Max) :
    Emits (fun writer => (.ok (writeU32 value writer) : Except PayloadError Bytes))
      (IsU32 value) :=
  (emits_ok (toBeBytes value)).congr fun _ => (and_iff_right h).symm

theorem size_le (file : File π) : file.size ≤ u32Max := by
  have hlt := Nat.mod_lt file.contents.length (show 0 < 2 ^ 32 by decide)
  rw [File.size, u32Max]
  omega

theorem emits_writeAnnotationOf {mark : ReportedAnnotation}
    (h : mark.start ≤ mark.stop ∧ mark.stop ≤ file.size) :
    Emits (writeAnnotationOf mark) (IsAnnotationOf mark) := by
  have hsize := size_le file
  exact (emits_writeU8 _).bind <| (emits_writeU32 (by omega)).bind <|
    (emits_writeU32 (by omega)).bind <| emits_writeOptionalString _

theorem emits_writeEdit {edit : TextEdit}
    (h : edit.range.start ≤ edit.range.stop ∧ edit.range.stop ≤ file.size) :
    Emits (writeEdit edit) (IsEdit edit) := by
  have hsize := size_le file
  exact (emits_writeU32 (by omega)).bind <| (emits_writeU32 (by omega)).bind <|
    (emits_writeU8 _).bind <| emits_writeBytes _

theorem emits_writeIssue {issue : ReportedIssue} (h : issue.Admissible file) :
    Emits (writeIssue issue) (IsIssue issue) :=
  (emits_writeU16 _).bind <| (emits_writeString _).bind <| (emits_writeLength _).bind <|
    (emits_foldlM fun _ _ => emits_writeString _).bind <| (emits_writeOptionalString _).bind <|
    (emits_writeOptionalString _).bind <| (emits_writeLength _).bind <|
    (emits_foldlM fun mark hmark =>
      emits_writeAnnotationOf file (h.annotations mark hmark)).bind <|
    (emits_writeLength _).bind <|
    emits_foldlM fun edit hedit => emits_writeEdit file (h.edits edit hedit)

/-- The issues of a response are accepted exactly where it is what a worker, of any minor version
of the protocol, writes for reports of active rules that may be made of the file. -/
theorem decodeLintResponse_eq_ok_iff {message : Buffer} {rules : List (ExternalRule κ)}
    {levels : List Level} {activeRules : List UInt16} {issues : List Issue} :
    decodeLintResponse hash file message rules levels activeRules = .ok issues ↔
      ∃ minor reported, List.Forall₂ (Explains hash file rules levels activeRules) issues reported ∧
        reported.length ≤ maximumIssuesPerFile ∧ writeIssues minor reported = .ok message.1 := by
  rw [decodeLintResponse,
    decodeMessage_eq_ok_iff (accepts_readIssues hash file rules levels activeRules)]
  apply exists_congr
  intro minor
  apply exists_congr
  intro reported
  apply and_congr_right
  intro hexplains
  have hadmissible : ∀ report ∈ reported, report.Admissible file := by
    intro report hreport
    obtain ⟨issue, _, hissue⟩ := exists_of_forall₂ hexplains hreport
    exact hissue.2.1
  have hwrite : writeIssues minor reported = .ok message.1 ↔ _ :=
    ((emits_writeLength reported.length).bind (emits_foldlM fun report hreport =>
      emits_writeIssue file (hadmissible report hreport))) (messageHeader minor lintFileResponse)
        message.1
  rw [hwrite, followed_eq_left]

/-- Every issue of a response is one that a report of an active rule explains. -/
theorem explained_of_decode {message : Buffer} {rules : List (ExternalRule κ)}
    {levels : List Level} {activeRules : List UInt16} {issues : List Issue}
    (h : decodeLintResponse hash file message rules levels activeRules = .ok issues) :
    ∀ issue ∈ issues, ∃ reported, Explains hash file rules levels activeRules issue reported := by
  rw [decodeLintResponse,
    decodeMessage_eq_ok_iff (accepts_readIssues hash file rules levels activeRules)] at h
  obtain ⟨_, reported, hexplains, _⟩ := h
  intro issue hissue
  obtain ⟨report, _, hreport⟩ := exists_of_forall₂ hexplains.flip hissue
  exact ⟨report, hreport⟩

/-! ## What never happens -/

theorem protocol_ne_panicked (message : Text) : ExternalLintError.protocol message ≠ .panicked :=
  nofun

theorem avoids_payload {α : Type} (read : PayloadReader.Read α) :
    Avoids ExternalLintError.panicked (payload read) :=
  Avoids.adapt fun _ => protocol_ne_panicked _

theorem avoids_readTag {α : Type} {field : String} {ofByte : UInt8 → Option α} {what : Text} :
    Avoids .panicked (readTag field ofByte what) :=
  (avoids_payload _).bind fun _ _ => avoids_require fun _ => protocol_ne_panicked _

theorem avoids_messageReader (kind : UInt16) : Avoids .panicked (messageReader kind) :=
  (avoids_payload _).bind fun _ _ => (avoids_reject _ (protocol_ne_panicked _)).bind fun _ _ =>
    (avoids_payload _).bind fun _ _ => (avoids_payload _).bind fun _ _ =>
    (avoids_reject _ (protocol_ne_panicked _)).bind fun _ _ => (avoids_payload _).bind fun _ _ =>
    (avoids_reject _ (protocol_ne_panicked _)).bind fun _ _ => (avoids_payload _).bind fun _ _ =>
    avoids_reject _ (protocol_ne_panicked _)

theorem avoids_readAnnotationOf (code : Text) (acc : List Annotation × Bool) :
    Avoids .panicked (readAnnotationOf hash file code acc) :=
  avoids_readTag.bind fun _ _ => (avoids_payload _).bind fun _ _ =>
    (avoids_payload _).bind fun _ _ => (avoids_reject _ (protocol_ne_panicked _)).bind fun _ _ =>
    (avoids_payload _).bind fun _ _ => avoids_pure _

theorem avoids_readEdit (code : Text) : Avoids .panicked (readEdit file code) :=
  (avoids_payload _).bind fun _ _ => (avoids_payload _).bind fun _ _ =>
    (avoids_reject _ (protocol_ne_panicked _)).bind fun _ _ => avoids_readTag.bind fun _ _ =>
    (avoids_payload _).bind fun _ _ => avoids_pure _

theorem avoids_readIssueOf (code : Text) (level : Level) :
    Avoids .panicked (readIssueOf hash file code level) :=
  (avoids_payload _).bind fun _ _ => (avoids_reject _ (protocol_ne_panicked _)).bind fun _ _ =>
    (avoids_payload _).bind fun _ _ => ((avoids_payload _).collect _).bind fun _ _ =>
    (avoids_payload _).bind fun _ _ => (avoids_payload _).bind fun _ _ =>
    (avoids_payload _).bind fun _ _ =>
    (Avoids.rounds (avoids_readAnnotationOf hash file code) _ _).bind fun _ _ =>
    (avoids_reject _ (protocol_ne_panicked _)).bind fun _ _ => (avoids_payload _).bind fun _ _ =>
    ((avoids_readEdit file code).collect _).bind fun _ _ => avoids_pure _

/-- A level for every rule is enough for no index to be out of bounds. -/
theorem avoids_readIssue {rules : List (ExternalRule κ)} {levels : List Level}
    (hlevels : levels.length = rules.length) (activeRules : List UInt16) :
    Avoids .panicked (readIssue hash file rules levels activeRules) := by
  refine (avoids_payload _).bind fun index _ =>
    (avoids_reject _ (protocol_ne_panicked _)).bind fun _ _ =>
    (avoids_require fun _ => protocol_ne_panicked _).bind fun (rule : ExternalRule κ) hrule =>
    (avoids_require fun hnone => ?_).bind fun level _ =>
    avoids_readIssueOf hash file rule.code level
  obtain ⟨_, _, hrule⟩ := hrule
  have hlt := (List.getElem?_eq_some_iff.mp (require_eq_ok hrule)).1
  rw [List.getElem?_eq_none_iff] at hnone
  omega

theorem decodeLintResponse_ne_panicked {message : Buffer} {rules : List (ExternalRule κ)}
    {levels : List Level} (hlevels : levels.length = rules.length) (activeRules : List UInt16) :
    decodeLintResponse hash file message rules levels activeRules ≠ .error .panicked := by
  have havoids : Avoids .panicked (readIssues hash file rules levels activeRules) :=
    (avoids_messageReader _).bind fun _ _ => (avoids_payload _).bind fun _ _ =>
      (avoids_readIssue hash file hlevels activeRules).collect _
  rw [decodeLintResponse, decodeMessage]
  refine bind_ne_error (havoids _) fun result _ => ?_
  obtain ⟨issues, reader⟩ := result
  dsimp only
  cases reader.finish with
  | error error =>
    intro h
    cases h
  | ok _ =>
    intro h
    cases h

end Read

end Mago.Linter
