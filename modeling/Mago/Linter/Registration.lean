import Mago.Extension.PayloadReader
import Mago.Extension.Pool

/-!
# Registrations of external linter rules

A worker answers a describe request with its extensions and their rules. The answer is accepted
exactly when it is what a worker writes for extensions that may be registered together.
-/
namespace Mago.Linter
open Library Extension
open Extension.PayloadReader Extension.PayloadWriter
open Suppression (Level text)

def linterProtocolMagic : Bytes := [0x4D, 0x4C, 0x4E, 0x54]

def linterProtocolMajor : UInt16 := 1

def linterProtocolMinor : UInt16 := 0

def describeResponse : UInt16 := 0x8001

def maximumExtensions : ℕ := 0x4000

def maximumExtensionsRules : ℕ := 0x4000

def maximumTargetsPerRule : ℕ := 512

/-- The errors of external rules; an index out of bounds is no error of the source, it panics. -/
inductive ExternalLintError
  | worker (error : WorkerError)
  | protocol (message : Text)
  | inconsistentRegistration
  | duplicateExtension (identifier : Text)
  | duplicateRule (code : Text)
  | fileTooLarge (size : ℕ)
  | panicked

abbrev Read := StateT PayloadReader (Except ExternalLintError)

/-- A field of a message; an error of the payload is one of the protocol. -/
def payload {α : Type} (read : PayloadReader.Read α) : Read α :=
  adaptReader (fun error => .protocol (text error.display)) read

/-- The kinds of nodes by their names, and their places in the enumeration. -/
structure NodeKinds (κ : Type) where
  name : κ → Text
  parse : Text → Option κ
  parse_eq_some_iff : ∀ {t kind}, parse t = some kind ↔ t = name kind
  index : κ → UInt8

structure ExternalRule (κ : Type) where
  code : Text
  name : Text
  description : Text
  defaultLevel : Level
  defaultEnabled : Bool
  targets : List κ
  deriving DecidableEq

structure ExternalExtension (κ : Type) where
  identifier : Text
  name : Text
  version : Text
  rules : List (ExternalRule κ)
  deriving DecidableEq

structure Registration (κ : Type) where
  extensions : List (ExternalExtension κ)
  rules : List (ExternalRule κ)
  hasWorkerReducer : Bool
  deriving DecidableEq

/-! ## Tags -/

/-- A byte that stands for one of a few values. -/
def readTag {α : Type} (field : String) (ofByte : UInt8 → Option α) (what : Text) : Read α := do
  let value ← payload (readU8 field)
  require (ofByte value) (.protocol (what ++ text (toString value)))

def levelValue : Level → UInt8
  | .note => 1
  | .help => 2
  | .warning => 3
  | .error => 4

def levelOf (value : UInt8) : Option Level :=
  if value = 1 then some .note
  else if value = 2 then some .help
  else if value = 3 then some .warning
  else if value = 4 then some .error
  else none

def readLevel : Read Level := readTag "severity level" levelOf (text "invalid severity level ")

/-! ## Headers -/

def hexDigit (value : UInt16) (place : ℕ) : Char := Nat.digitChar (value.toNat / 16 ^ place % 16)

def hexadecimal (value : UInt16) : Text :=
  ['0', 'x', hexDigit value 3, hexDigit value 2, hexDigit value 1, hexDigit value 0]

example : hexadecimal 0x1A = text "0x001a" := by decide

/-- The header of a message of a minor version. -/
def messageHeader (minor kind : UInt16) : Bytes :=
  writeU16 0 (writeU16 kind (writeU16 minor (writeU16 linterProtocolMajor
    (writeRaw linterProtocolMagic []))))

def messageWriter (kind : UInt16) : Bytes := messageHeader linterProtocolMinor kind

def messageReader (expectedKind : UInt16) : Read PUnit := do
  let magic ← payload (readRaw 4 "message magic")
  reject (magic ≠ linterProtocolMagic) (.protocol (text "invalid linter message magic"))
  let major ← payload (readU16 "protocol major version")
  let minor ← payload (readU16 "protocol minor version")
  reject (major ≠ linterProtocolMajor)
    (.protocol (text s!"unsupported linter protocol version {major}.{minor}"))
  let kind ← payload (readU16 "message kind")
  reject (kind ≠ expectedKind)
    (.protocol (text s!"expected linter message kind {expectedKind}, received {kind}"))
  let reserved ← payload (readU16 "reserved header")
  reject (reserved ≠ 0)
    (.protocol (text "linter message reserved header is non-zero: " ++ hexadecimal reserved))

/-! ## Decoding a registration -/

section Decode

variable {κ : Type} [DecidableEq κ] (kinds : NodeKinds κ)

def readTarget (code : Text) (targets : List κ) : Read (List κ) := do
  let targetName ← payload (readStr "node kind")
  let target ← require (kinds.parse targetName)
    (.protocol (text "rule `" ++ code ++ text "` targets unknown node kind `" ++ targetName ++
      text "`"))
  reject (target ∈ targets)
    (.protocol (text "rule `" ++ code ++ text "` lists node kind `" ++ targetName ++
      text "` more than once"))
  return targets ++ [target]

/-- The rules of an extension so far, and the codes of all rules so far. -/
abbrev RuleLists (κ : Type) := List (ExternalRule κ) × List Text

def readRule (acc : RuleLists κ) : Read (RuleLists κ) := do
  let code ← payload (readStr "rule code")
  let ruleName ← payload (readStr "rule name")
  let description ← payload (readStr "rule description")
  let defaultLevel ← readLevel
  let defaultEnabled ← payload (readBool "rule default-enabled flag")
  let targetCount ← payload (readCount "rule targets" maximumTargetsPerRule)
  let targets ← rounds (readTarget kinds code) targetCount []
  reject (code = []) (.protocol (text "rule code cannot be empty"))
  reject (ruleName = []) (.protocol (text "rule `" ++ code ++ text "` has an empty name"))
  reject (description = []) (.protocol (text "rule `" ++ code ++ text "` has an empty description"))
  reject (targets = []) (.protocol (text "rule `" ++ code ++ text "` has no target node kinds"))
  reject (code ∈ acc.2)
    (.protocol (text "worker advertises linter rule `" ++ code ++ text "` more than once"))
  return (acc.1 ++ [⟨code, ruleName, description, defaultLevel, defaultEnabled, targets⟩],
    acc.2 ++ [code])

/-- What is known after some extensions. -/
structure Registering (κ : Type) where
  extensions : List (ExternalExtension κ) := []
  rules : List (ExternalRule κ) := []
  identifiers : List Text := []
  codes : List Text := []
  hasWorkerReducer : Bool := false

def readExtension (acc : Registering κ) : Read (Registering κ) := do
  let identifier ← payload (readStr "extension identifier")
  let name ← payload (readStr "extension name")
  let version ← payload (readStr "extension version")
  let reducer ← payload (readBool "worker reducer flag")
  reject (identifier = []) (.protocol (text "extension identifier cannot be empty"))
  reject (name = []) (.protocol (text "extension name cannot be empty"))
  reject (version = [])
    (.protocol (text "extension `" ++ identifier ++ text "` has an empty version"))
  reject (identifier ∈ acc.identifiers)
    (.protocol (text "worker advertises extension `" ++ identifier ++ text "` more than once"))
  let ruleCount ← payload (readCount "rules" maximumExtensionsRules)
  let (rules, codes) ← rounds (readRule kinds) ruleCount ([], acc.codes)
  return {
    extensions := acc.extensions ++ [⟨identifier, name, version, rules⟩]
    rules := acc.rules ++ rules
    identifiers := acc.identifiers ++ [identifier]
    codes := codes
    hasWorkerReducer := acc.hasWorkerReducer || reducer }

def readRegistration : Read (Registration κ) := do
  messageReader describeResponse
  let extensionCount ← payload (readCount "extensions" maximumExtensions)
  reject (extensionCount = 0) (.protocol (text "worker registration contains no extensions"))
  let acc ← rounds (readExtension kinds) extensionCount {}
  return ⟨acc.extensions, acc.rules, acc.hasWorkerReducer⟩

/-- A message that is read to its end. -/
def decodeMessage {α : Type} (read : Read α) (message : Buffer) : Except ExternalLintError α := do
  let (value, reader) ← read (.new message)
  match reader.finish with
  | .error error => throw (.protocol (text error.display))
  | .ok () => return value

def decodeRegistration (message : Buffer) : Except ExternalLintError (Registration κ) :=
  decodeMessage (readRegistration kinds) message

end Decode

/-! ## Encoding a registration -/

section Encode

variable {κ : Type} (kinds : NodeKinds κ)

def writeRule (rule : ExternalRule κ) (writer : Bytes) : Except PayloadError Bytes := do
  let writer ← writeString rule.code writer
  let writer ← writeString rule.name writer
  let writer ← writeString rule.description writer
  let writer := writeU8 (levelValue rule.defaultLevel) writer
  let writer := writeBool rule.defaultEnabled writer
  let writer ← writeLength rule.targets.length writer
  rule.targets.foldlM (fun writer target => writeString (kinds.name target) writer) writer

/-- An extension with the flag that says whether it has a reducer. -/
def writeExtension (extension : ExternalExtension κ × Bool) (writer : Bytes) :
    Except PayloadError Bytes := do
  let writer ← writeString extension.1.identifier writer
  let writer ← writeString extension.1.name writer
  let writer ← writeString extension.1.version writer
  let writer := writeBool extension.2 writer
  let writer ← writeLength extension.1.rules.length writer
  extension.1.rules.foldlM (fun writer rule => writeRule kinds rule writer) writer

/-- The answer of a worker of any minor version. -/
def writeRegistration (minor : UInt16) (extensions : List (ExternalExtension κ × Bool)) :
    Except PayloadError Bytes := do
  let writer ← writeLength extensions.length (messageHeader minor describeResponse)
  extensions.foldlM (fun writer extension => writeExtension kinds extension writer) writer

/-! ## The format of a registration -/

def IsTarget (kind : κ) : Bytes → Prop := IsString (kinds.name kind)

def IsRule (rule : ExternalRule κ) : Bytes → Prop :=
  Followed (IsString rule.code) (Followed (IsString rule.name)
    (Followed (IsString rule.description) (Followed (IsU8 (levelValue rule.defaultLevel))
      (Followed (IsBool rule.defaultEnabled) (Followed (IsU32 rule.targets.length)
        (Each (IsTarget kinds) rule.targets))))))

def IsExtension (extension : ExternalExtension κ × Bool) : Bytes → Prop :=
  Followed (IsString extension.1.identifier) (Followed (IsString extension.1.name)
    (Followed (IsString extension.1.version) (Followed (IsBool extension.2)
      (Followed (IsU32 extension.1.rules.length) (Each (IsRule kinds) extension.1.rules)))))

theorem emits_writeRule (rule : ExternalRule κ) :
    Emits (writeRule kinds rule) (IsRule kinds rule) :=
  (emits_writeString _).bind <| (emits_writeString _).bind <| (emits_writeString _).bind <|
    (emits_writeU8 _).bind <| (emits_writeBool _).bind <| (emits_writeLength _).bind <|
      emits_foldlM fun _ _ => emits_writeString _

theorem emits_writeExtension (extension : ExternalExtension κ × Bool) :
    Emits (writeExtension kinds extension) (IsExtension kinds extension) :=
  (emits_writeString _).bind <| (emits_writeString _).bind <| (emits_writeString _).bind <|
    (emits_writeBool _).bind <| (emits_writeLength _).bind <|
      emits_foldlM fun _ _ => emits_writeRule kinds _

/-! ## What a worker may advertise -/

structure ExternalRule.Valid (rule : ExternalRule κ) : Prop where
  code : rule.code ≠ []
  name : rule.name ≠ []
  description : rule.description ≠ []
  targets : rule.targets ≠ []
  distinct : rule.targets.Nodup
  few : rule.targets.length ≤ maximumTargetsPerRule

structure ExternalExtension.Valid (extension : ExternalExtension κ) : Prop where
  identifier : extension.identifier ≠ []
  name : extension.name ≠ []
  version : extension.version ≠ []
  rules : ∀ rule ∈ extension.rules, rule.Valid
  few : extension.rules.length ≤ maximumExtensionsRules

/-- Extensions that one worker may register together. -/
structure Advertisable (extensions : List (ExternalExtension κ)) : Prop where
  nonempty : extensions ≠ []
  few : extensions.length ≤ maximumExtensions
  valid : ∀ extension ∈ extensions, extension.Valid
  identifiers : (extensions.map ExternalExtension.identifier).Nodup
  codes : ((extensions.flatMap ExternalExtension.rules).map ExternalRule.code).Nodup

/-! ## Fields -/

theorem accepts_payload {α : Type} {read : PayloadReader.Read α} {format : α → Bytes → Prop}
    (h : Accepts read format) : Accepts (payload read) format := h.adapt _

theorem accepts_readTag {α : Type} {field : String} {ofByte : UInt8 → Option α} {what : Text}
    {toByte : α → UInt8} (h : ∀ value tag, ofByte value = some tag ↔ value = toByte tag) :
    Accepts (readTag field ofByte what) fun tag => IsU8 (toByte tag) := by
  refine ((accepts_payload (accepts_readU8 field)).bind fun value =>
    accepts_require _ _).congr fun tag symbols => ?_
  simp only [followed_and, followed_nil_right, h]
  constructor
  · intro h
    obtain ⟨value, rfl, hvalue⟩ := h
    exact hvalue
  · intro h
    exact ⟨_, rfl, h⟩

theorem levelOf_eq_some_iff (value : UInt8) (level : Level) :
    levelOf value = some level ↔ value = levelValue level := by
  constructor
  · intro h
    rw [levelOf] at h
    split_ifs at h with h1 h2 h3 h4 <;> cases h <;> assumption
  · intro h
    subst h
    cases level <;> rfl

theorem accepts_readLevel : Accepts readLevel fun level => IsU8 (levelValue level) :=
  accepts_readTag levelOf_eq_some_iff

theorem accepts_messageReader (kind : UInt16) :
    Accepts (messageReader kind) fun _ symbols => ∃ minor, symbols = messageHeader minor kind := by
  refine ((accepts_payload (accepts_readRaw 4 _)).bind fun magic =>
    (accepts_reject _ _).bind fun _ => (accepts_payload (accepts_readU16 _)).bind fun major =>
    (accepts_payload (accepts_readU16 _)).bind fun minor => (accepts_reject _ _).bind fun _ =>
    (accepts_payload (accepts_readU16 _)).bind fun kind' => (accepts_reject _ _).bind fun _ =>
    (accepts_payload (accepts_readU16 _)).bind fun reserved => accepts_reject _ _).congr ?_
  intro _ symbols
  simp only [and_followed, followed_nil_left, followed_nil_right, exists_const, followed_and,
    followed_exists, followed_eq_left, followed_isU16, not_not, messageHeader, writeU16, writeRaw,
    List.nil_append, List.append_assoc]
  constructor
  · intro h
    obtain ⟨_, _, minor, _, _, rfl, rfl, _, rfl, rfl, _, rfl, _, rfl, rfl, _, _, rfl, rfl⟩ := h
    exact ⟨minor, rfl⟩
  · intro h
    obtain ⟨minor, rfl⟩ := h
    exact ⟨_, _, minor, _, _, rfl, rfl, _, rfl, rfl, _, rfl, _, rfl, rfl, rfl, _, rfl, rfl⟩

end Encode

/-! ## What is read is what was written -/

section Read

variable {κ : Type} [DecidableEq κ] (kinds : NodeKinds κ)

theorem accepts_readTarget (code : Text) (targets : List κ) :
    Accepts (readTarget kinds code targets) fun targets' symbols =>
      ∃ target, Fresh targets [target] ∧ targets' = targets ++ [target] ∧
        IsTarget kinds target symbols := by
  refine ((accepts_payload (accepts_readStr _)).bind fun name => (accepts_require _ _).bind
    fun target => (accepts_reject _ _).bind fun _ => accepts_pure _).congr
    fun targets' symbols => ?_
  simp only [followed_nil_right, exists_const, followed_and, followed_exists,
    kinds.parse_eq_some_iff, fresh_singleton]
  constructor
  · intro h
    obtain ⟨_, target, htargets, hnew, rfl, htarget⟩ := h
    exact ⟨target, hnew, htargets, htarget⟩
  · intro h
    obtain ⟨target, hnew, htargets, htarget⟩ := h
    exact ⟨_, target, htargets, hnew, rfl, htarget⟩

theorem accepts_readTargets (code : Text) (n : ℕ) :
    Accepts (rounds (readTarget kinds code) n []) fun targets symbols =>
      targets.length = n ∧ targets.Nodup ∧ Each (IsTarget kinds) targets symbols := by
  refine (Accepts.rounds (accepts_readTarget kinds code) n []).congr fun targets symbols => ?_
  have hadd : ∀ (acc : List κ) target, id (acc ++ [target]) = id acc ++ [target] := fun _ _ => rfl
  have hadmits : ∀ values : List κ, Admits (fun acc target => Fresh acc [target])
      (fun acc target => acc ++ [target]) [] values ↔ values.Nodup := by
    intro values
    refine (admits_fresh hadd).trans ?_
    rw [List.flatMap_singleton', id, fresh_nil_left]
  simp only [hadmits, foldl_concat, List.nil_append]
  constructor
  · intro h
    obtain ⟨values, hlength, hnodup, rfl, heach⟩ := h
    exact ⟨hlength, hnodup, heach⟩
  · intro h
    exact ⟨targets, h.1, h.2.1, rfl, h.2.2⟩

/-- One more rule. -/
def addRule (acc : RuleLists κ) (rule : ExternalRule κ) : RuleLists κ :=
  (acc.1 ++ [rule], acc.2 ++ [rule.code])

theorem accepts_readRule (acc : RuleLists κ) :
    Accepts (readRule kinds acc) fun acc' symbols =>
      ∃ rule : ExternalRule κ, (rule.Valid ∧ Fresh acc.2 [rule.code]) ∧ acc' = addRule acc rule ∧
        IsRule kinds rule symbols := by
  refine ((accepts_payload (accepts_readStr _)).bind fun code =>
    (accepts_payload (accepts_readStr _)).bind fun name =>
    (accepts_payload (accepts_readStr _)).bind fun description =>
    accepts_readLevel.bind fun level => (accepts_payload (accepts_readBool _)).bind fun enabled =>
    (accepts_payload (accepts_readCount _ _)).bind fun count =>
    (accepts_readTargets kinds code count).bind fun targets => (accepts_reject _ _).bind fun _ =>
    (accepts_reject _ _).bind fun _ => (accepts_reject _ _).bind fun _ =>
    (accepts_reject _ _).bind fun _ => (accepts_reject _ _).bind fun _ => accepts_pure _).congr
    fun acc' symbols => ?_
  simp only [and_followed, followed_nil_right, exists_const, followed_and, followed_exists,
    fresh_singleton]
  constructor
  · intro h
    obtain ⟨code, name, description, level, enabled, _, targets, rfl, hnew, htargets, hdescription,
      hname, hcode, rfl, hdistinct, hfew, hrule⟩ := h
    exact ⟨⟨code, name, description, level, enabled, targets⟩,
      ⟨⟨hcode, hname, hdescription, htargets, hdistinct, hfew⟩, hnew⟩, rfl, hrule⟩
  · intro h
    obtain ⟨⟨code, name, description, level, enabled, targets⟩, ⟨hvalid, hnew⟩, rfl, hrule⟩ := h
    exact ⟨code, name, description, level, enabled, _, targets, rfl, hnew, hvalid.targets,
      hvalid.description, hvalid.name, hvalid.code, rfl, hvalid.distinct, hvalid.few, hrule⟩

theorem accepts_readRules (codes : List Text) (n : ℕ) :
    Accepts (rounds (readRule kinds) n ([], codes)) fun acc symbols =>
      ∃ rules : List (ExternalRule κ), rules.length = n ∧ (∀ rule ∈ rules, rule.Valid) ∧
        Fresh codes (rules.map ExternalRule.code) ∧
        acc = (rules, codes ++ rules.map ExternalRule.code) ∧
        Each (IsRule kinds) rules symbols := by
  refine (Accepts.rounds (accepts_readRule kinds) n ([], codes)).congr fun acc symbols => ?_
  have hrules : ∀ (acc : RuleLists κ) rule, (addRule acc rule).1 = acc.1 ++ [rule] :=
    fun _ _ => rfl
  have hcodes : ∀ (acc : RuleLists κ) rule, (addRule acc rule).2 = acc.2 ++ [rule.code] :=
    fun _ _ => rfl
  have hmap : ∀ rules : List (ExternalRule κ), rules.flatMap (fun rule => [rule.code]) =
      rules.map ExternalRule.code := fun _ => List.map_eq_flatMap.symm
  have hfold : ∀ rules : List (ExternalRule κ), rules.foldl addRule ([], codes) =
      (rules, codes ++ rules.map ExternalRule.code) := by
    intro rules
    refine Prod.ext ((seen_foldl hrules).trans ?_) ((seen_foldl hcodes).trans ?_)
    · rw [List.nil_append, List.flatMap_singleton']
    · rw [hmap]
  have hadmits : ∀ rules : List (ExternalRule κ),
      Admits (fun acc rule => rule.Valid ∧ Fresh acc.2 [rule.code]) addRule ([], codes) rules ↔
        (∀ rule ∈ rules, rule.Valid) ∧ Fresh codes (rules.map ExternalRule.code) := by
    intro rules
    rw [admits_and, admits_forall, admits_fresh hcodes, hmap]
  simp only [hadmits, hfold, and_assoc]

/-- One more extension. -/
def addExtension (acc : Registering κ) (extension : ExternalExtension κ × Bool) :
    Registering κ where
  extensions := acc.extensions ++ [extension.1]
  rules := acc.rules ++ extension.1.rules
  identifiers := acc.identifiers ++ [extension.1.identifier]
  codes := acc.codes ++ extension.1.rules.map ExternalRule.code
  hasWorkerReducer := acc.hasWorkerReducer || extension.2

theorem accepts_readExtension (acc : Registering κ) :
    Accepts (readExtension kinds acc) fun acc' symbols =>
      ∃ extension : ExternalExtension κ × Bool, (extension.1.Valid ∧
        Fresh acc.identifiers [extension.1.identifier] ∧
        Fresh acc.codes (extension.1.rules.map ExternalRule.code)) ∧
        acc' = addExtension acc extension ∧ IsExtension kinds extension symbols := by
  refine ((accepts_payload (accepts_readStr _)).bind fun identifier =>
    (accepts_payload (accepts_readStr _)).bind fun name =>
    (accepts_payload (accepts_readStr _)).bind fun version =>
    (accepts_payload (accepts_readBool _)).bind fun reducer => (accepts_reject _ _).bind fun _ =>
    (accepts_reject _ _).bind fun _ => (accepts_reject _ _).bind fun _ =>
    (accepts_reject _ _).bind fun _ => (accepts_payload (accepts_readCount _ _)).bind fun count =>
    (accepts_readRules kinds acc.codes count).bind fun rules => accepts_pure _).congr
    fun acc' symbols => ?_
  simp only [and_followed, followed_nil_left, followed_nil_right, exists_const, followed_and,
    followed_exists, fresh_singleton]
  constructor
  · intro h
    obtain ⟨identifier, name, version, reducer, _, _, rfl, rules, rfl, hrules, hcodes, rfl, hfew,
      hnew, hversion, hname, hidentifier, hextension⟩ := h
    exact ⟨(⟨identifier, name, version, rules⟩, reducer),
      ⟨⟨hidentifier, hname, hversion, hrules, hfew⟩, hnew, hcodes⟩, rfl, hextension⟩
  · intro h
    obtain ⟨⟨⟨identifier, name, version, rules⟩, reducer⟩, ⟨hvalid, hnew, hcodes⟩, rfl,
      hextension⟩ := h
    exact ⟨identifier, name, version, reducer, _, _, rfl, rules, rfl, hvalid.rules, hcodes, rfl,
      hvalid.few, hnew, hvalid.version, hvalid.name, hvalid.identifier, hextension⟩

/-- The registration of extensions with their flags. -/
def registrationOf (extensions : List (ExternalExtension κ × Bool)) : Registration κ where
  extensions := extensions.map Prod.fst
  rules := extensions.flatMap fun extension => extension.1.rules
  hasWorkerReducer := extensions.any Prod.snd

omit [DecidableEq κ]

theorem hasWorkerReducer_foldl (extensions : List (ExternalExtension κ × Bool))
    (acc : Registering κ) : (extensions.foldl addExtension acc).hasWorkerReducer =
      (acc.hasWorkerReducer || extensions.any Prod.snd) := by
  induction extensions generalizing acc with
  | nil => rw [List.foldl_nil, List.any_nil, Bool.or_false]
  | cons extension extensions ih =>
    rw [List.foldl_cons, ih, List.any_cons, ← Bool.or_assoc]
    rfl

theorem registrationOf_foldl (extensions : List (ExternalExtension κ × Bool)) :
    (⟨(extensions.foldl addExtension {}).extensions, (extensions.foldl addExtension {}).rules,
      (extensions.foldl addExtension {}).hasWorkerReducer⟩ : Registration κ) =
      registrationOf extensions := by
  have hextensions : ∀ (acc : Registering κ) extension,
      (addExtension acc extension).extensions = acc.extensions ++ [extension.1] := fun _ _ => rfl
  have hrules : ∀ (acc : Registering κ) extension,
      (addExtension acc extension).rules = acc.rules ++ extension.1.rules := fun _ _ => rfl
  rw [seen_foldl hextensions, seen_foldl hrules, hasWorkerReducer_foldl, ← List.map_eq_flatMap]
  rfl

/-- Extensions that may be added one after the other may be advertised together. -/
theorem admits_extensions (extensions : List (ExternalExtension κ × Bool)) :
    Admits (fun acc (extension : ExternalExtension κ × Bool) => extension.1.Valid ∧
      Fresh acc.identifiers [extension.1.identifier] ∧
      Fresh acc.codes (extension.1.rules.map ExternalRule.code)) addExtension {} extensions ↔
      (∀ extension ∈ extensions.map Prod.fst, extension.Valid) ∧
        ((extensions.map Prod.fst).map ExternalExtension.identifier).Nodup ∧
        (((extensions.map Prod.fst).flatMap ExternalExtension.rules).map
          ExternalRule.code).Nodup := by
  have hidentifiers : ∀ (acc : Registering κ) extension,
      (addExtension acc extension).identifiers = acc.identifiers ++ [extension.1.identifier] :=
    fun _ _ => rfl
  have hcodes : ∀ (acc : Registering κ) extension, (addExtension acc extension).codes =
      acc.codes ++ extension.1.rules.map ExternalRule.code := fun _ _ => rfl
  rw [admits_and, admits_forall, admits_and, admits_fresh hidentifiers, admits_fresh hcodes,
    fresh_nil_left, fresh_nil_left, ← List.map_eq_flatMap, List.forall_mem_map, List.map_map,
    List.flatMap_map, List.map_flatMap]
  rfl

variable [DecidableEq κ]

theorem accepts_readRegistration :
    Accepts (readRegistration kinds) fun registration symbols =>
      ∃ minor, ∃ extensions : List (ExternalExtension κ × Bool),
        Advertisable (extensions.map Prod.fst) ∧ registration = registrationOf extensions ∧
        Followed (· = messageHeader minor describeResponse) (Followed (IsU32 extensions.length)
          (Each (IsExtension kinds) extensions)) symbols := by
  refine ((accepts_messageReader _).bind fun _ => (accepts_payload (accepts_readCount _ _)).bind
    fun count => (accepts_reject _ _).bind fun _ =>
    (Accepts.rounds (accepts_readExtension kinds) count {}).bind fun acc => accepts_pure _).congr
    fun registration symbols => ?_
  simp only [and_followed, followed_nil_left, followed_nil_right, exists_const, followed_and,
    followed_exists, exists_followed]
  constructor
  · intro h
    obtain ⟨_, _, rfl, extensions, rfl, hadmits, rfl, hpos, hfew, minor, hsymbols⟩ := h
    obtain ⟨hvalid, hidentifiers, hcodes⟩ := (admits_extensions extensions).mp hadmits
    refine ⟨minor, extensions, ⟨?_, ?_, hvalid, hidentifiers, hcodes⟩,
      registrationOf_foldl extensions, hsymbols⟩
    · rwa [ne_eq, List.map_eq_nil_iff, ← List.length_eq_zero_iff]
    · rwa [List.length_map]
  · intro h
    obtain ⟨minor, extensions, hadvertisable, rfl, hsymbols⟩ := h
    have hfew := hadvertisable.few
    rw [List.length_map] at hfew
    refine ⟨_, _, (registrationOf_foldl extensions).symm, extensions, rfl,
      (admits_extensions extensions).mpr ⟨hadvertisable.valid, hadvertisable.identifiers,
        hadvertisable.codes⟩, rfl, ?_, hfew, minor, hsymbols⟩
    have hne := hadvertisable.nonempty
    rwa [ne_eq, List.map_eq_nil_iff, ← List.length_eq_zero_iff] at hne

/-- A message is decoded exactly where it is as a whole what the reader accepts. -/
theorem decodeMessage_eq_ok_iff {α : Type} {read : Read α} {format : α → Bytes → Prop}
    (h : Accepts read format) {message : Buffer} {value : α} :
    decodeMessage read message = .ok value ↔ format value message.1 := by
  rw [← accepts_finish h, decodeMessage]
  cases hread : read (.new message) with
  | error error => exact iff_of_false nofun fun h => nomatch h.choose_spec.1
  | ok result =>
    obtain ⟨value', reader⟩ := result
    show (match reader.finish with
      | .error error => throw (.protocol (text error.display))
      | .ok () => pure value' : Except ExternalLintError α) = _ ↔ _
    cases hfinish : reader.finish with
    | error error =>
      refine iff_of_false nofun fun h => ?_
      obtain ⟨_, hok, h⟩ := h
      cases hok
      rw [hfinish] at h
      cases h
    | ok _ =>
      constructor
      · intro h
        cases h
        exact ⟨reader, rfl, hfinish⟩
      · intro h
        obtain ⟨_, hok, _⟩ := h
        cases hok
        rfl

/-- A registration is accepted exactly where it is the answer of a worker, of any minor version of
the protocol, whose extensions may be advertised together; it is then what was advertised. -/
theorem decodeRegistration_eq_ok_iff {message : Buffer} {registration : Registration κ} :
    decodeRegistration kinds message = .ok registration ↔
      ∃ minor, ∃ extensions : List (ExternalExtension κ × Bool),
        Advertisable (extensions.map Prod.fst) ∧
          writeRegistration kinds minor extensions = .ok message.1 ∧
          registration = registrationOf extensions := by
  rw [decodeRegistration, decodeMessage_eq_ok_iff (accepts_readRegistration kinds)]
  apply exists_congr
  intro minor
  apply exists_congr
  intro extensions
  have hwrite : writeRegistration kinds minor extensions = .ok message.1 ↔ _ :=
    ((emits_writeLength extensions.length).bind (emits_foldlM fun extension _ =>
      emits_writeExtension kinds extension)) (messageHeader minor describeResponse) message.1
  rw [hwrite, followed_eq_left]
  tauto

end Read

end Mago.Linter
