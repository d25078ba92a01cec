import Mago.Extension.SourceEncoding
import Mago.Library.Fallible
import Mago.Linter.Response

/-!
# External linter rules

The pools of workers are asked for their rules once. Settings then choose the levels, the rules
that run and the files they run on; a file is linted by asking every pool with a rule that runs
on it. What the pools answer is arbitrary.
-/
namespace Mago.Extension

/-- The nodes of some kinds, each with what is below it. -/
def SourceSnapshot.filtered {ι : Type} (program : Program ι) (resolvedNames : List ResolvedName)
    (targetKinds : UInt8 → Bool) : Except PayloadError (Option SourceSnapshot) :=
  targetedWithFilter program resolvedNames
    (fun node => if targetKinds node.value.kind then some true else none) true

end Mago.Extension

namespace Mago.Linter
open Library Extension
open Extension.PayloadWriter
open Storage (File FileId)
open Suppression (Level Issue text)

/-! ## Plans -/

/-- The rules that run, by their places in a registration, and the kinds of nodes they need. -/
structure ActiveRulePlan where
  indices : List UInt16
  targets : UInt8 → Bool

section Plan

variable {κ : Type} (kinds : NodeKinds κ)

def ActiveRulePlan.empty : ActiveRulePlan := ⟨[], fun _ => false⟩

def ActiveRulePlan.push (plan : ActiveRulePlan) (index : UInt16) (rule : ExternalRule κ) :
    ActiveRulePlan where
  indices := plan.indices ++ [index]
  targets := fun kind =>
    plan.targets kind || rule.targets.any fun target => kinds.index target == kind

def ActiveRulePlan.buildStep (plan : ActiveRulePlan) (rule : ExternalRule κ × ℕ) :
    Except ExternalLintError ActiveRulePlan :=
  if rule.2 < 2 ^ 16 then .ok (plan.push kinds (.ofNat rule.2) rule.1)
  else .error (.protocol (text "worker registered more than 65,536 linter rules"))

def ActiveRulePlan.build (rules : List (ExternalRule κ)) (enabled : ExternalRule κ → Bool) :
    Except ExternalLintError ActiveRulePlan :=
  (rules.zipIdx.filter fun rule => enabled rule.1).foldlM (buildStep kinds) empty

def ActiveRulePlan.withoutStep (rules : List (ExternalRule κ)) (excluded : List UInt16)
    (plan : ActiveRulePlan) (index : UInt16) : Except ExternalLintError ActiveRulePlan :=
  if index ∈ excluded then .ok plan
  else match rules[index.toNat]? with
    | none => .error .panicked
    | some rule => .ok (plan.push kinds index rule)

def ActiveRulePlan.without (plan : ActiveRulePlan) (rules : List (ExternalRule κ))
    (excluded : List UInt16) : Except ExternalLintError ActiveRulePlan :=
  plan.indices.foldlM (withoutStep kinds rules excluded) empty

end Plan

/-! ## Initialization -/

/-- A pool of workers; a broadcast is answered by each worker. -/
structure LinterTransport (τ : Type) where
  broadcast : τ → Bytes → Except WorkerError (List Buffer)
  request : τ → Bytes → Except WorkerError Buffer

structure Backend (τ κ : Type) where
  transport : τ
  registration : Registration κ
  defaultPlan : ActiveRulePlan
  levels : List Level
  excludes : List (UInt16 × (Text → Bool))

structure ExternalLinter (τ κ : Type) where
  backends : List (Backend τ κ)
  extensions : List (ExternalExtension κ)

def describeRequest : UInt16 := 1

def writeKind (name : Text) (writer : Bytes) : Bytes :=
  writeRaw (Suppression.utf8 name) (writeU32 (Suppression.utf8 name).length writer)

/-- The names of all kinds, in the order of the enumeration. -/
def writeNodeKindTable (names : List Text) (writer : Bytes) : Bytes :=
  names.foldl (fun writer name => writeKind name writer) (writeU32 names.length writer)

def encodeDescribeRequest (versionId : ℕ) (names : List Text) : Bytes :=
  writeNodeKindTable names (writeU32 versionId (messageWriter describeRequest))

/-- Keys inserted one after the other, until one is there already. -/
def insertAll {α : Type} (key : α → Text) (duplicate : α → ExternalLintError) (seen : List Text)
    (values : List α) : Except ExternalLintError (List Text) :=
  values.foldlM
    (fun seen value =>
      if seen.contains (key value) then .error (duplicate value)
      else .ok (seen ++ [key value])) seen

def toAsciiLowercase (t : Text) : Text := t.map Char.toLower

section Initialize

variable {τ κ : Type} [DecidableEq κ] (kinds : NodeKinds κ)

/-- The registration on which all workers of a pool agree. -/
def agreedRegistration (responses : List Buffer) : Except ExternalLintError (Registration κ) :=
  match responses with
  | [] => .error (.protocol (text "worker pool returned no registration responses"))
  | first :: others => do
    let registration ← decodeRegistration kinds first
    others.foldlM (fun registration response => do
      let other ← decodeRegistration kinds response
      if other ≠ registration then .error .inconsistentRegistration else .ok registration)
      registration

structure Initializing (τ κ : Type) where
  backends : List (Backend τ κ) := []
  extensions : List (ExternalExtension κ) := []
  extensionIdentifiers : List Text := []
  ruleCodes : List Text

def initializeBackend (broadcast : τ → Except WorkerError (List Buffer))
    (acc : Initializing τ κ) (transport : τ) : Except ExternalLintError (Initializing τ κ) := do
  let responses ← (broadcast transport).mapError .worker
  let registration ← agreedRegistration kinds responses
  let extensionIdentifiers ← insertAll
    (fun (extension : ExternalExtension κ) => toAsciiLowercase extension.identifier)
    (fun extension => .duplicateExtension extension.identifier) acc.extensionIdentifiers
    registration.extensions
  let ruleCodes ← insertAll ExternalRule.code (fun rule => .duplicateRule rule.code) acc.ruleCodes
    registration.rules
  let defaultPlan ← ActiveRulePlan.build kinds registration.rules ExternalRule.defaultEnabled
  let levels := registration.rules.map ExternalRule.defaultLevel
  return {
    backends := acc.backends ++ [⟨transport, registration, defaultPlan, levels, []⟩]
    extensions := acc.extensions ++ registration.extensions
    extensionIdentifiers
    ruleCodes }

/-- `nativeCodes` are the codes of the rules of the linter itself. -/
def initializeTransports (pool : LinterTransport τ) (nativeCodes : List Text) (versionId : ℕ)
    (kindNames : List Text) (transports : List τ) :
    Except ExternalLintError (ExternalLinter τ κ) := do
  let describe := encodeDescribeRequest versionId kindNames
  let acc ← transports.foldlM
    (initializeBackend kinds fun transport => pool.broadcast transport describe)
    { ruleCodes := nativeCodes }
  return ⟨acc.backends, acc.extensions⟩

end Initialize

/-! ## Configuration -/

structure ExternalRuleSettings where
  enabled : Option Bool
  level : Option Level
  exclude : List Text

/-- The settings of rules by their codes. -/
abbrev RulesSettings := List (Text × ExternalRuleSettings)

section Configure

variable {τ κ : Type} (kinds : NodeKinds κ) (compile : List Text → Option (Text → Bool))

/-- The level and the exclusion that settings give to one rule. A pattern that does not compile
is ignored. -/
def configureRule (settings : RulesSettings)
    (acc : List Level × List (UInt16 × (Text → Bool))) (rule : ExternalRule κ × ℕ) :
    List Level × List (UInt16 × (Text → Bool)) :=
  match settings.lookup rule.1.code with
  | none => acc
  | some ruleSettings =>
    let levels := match ruleSettings.level with
      | some level => acc.1.set rule.2 level
      | none => acc.1
    if ruleSettings.exclude = [] then (levels, acc.2)
    else if rule.2 < 2 ^ 16 then
      match compile ruleSettings.exclude with
      | some matcher => (levels, acc.2 ++ [(.ofNat rule.2, matcher)])
      | none => (levels, acc.2)
    else (levels, acc.2)

def enabledBy (settings : RulesSettings) (rule : ExternalRule κ) : Bool :=
  ((settings.lookup rule.code).bind ExternalRuleSettings.enabled).getD rule.defaultEnabled

def configureBackend (settings : RulesSettings) (backend : Backend τ κ) :
    Except ExternalLintError (Backend τ κ) := do
  let (levels, excludes) := backend.registration.rules.zipIdx.foldl
    (configureRule compile settings) (backend.levels, [])
  let defaultPlan ← ActiveRulePlan.build kinds backend.registration.rules (enabledBy settings)
  return { backend with levels, excludes, defaultPlan }

def configure (linter : ExternalLinter τ κ) (settings : RulesSettings) :
    Except ExternalLintError (ExternalLinter τ κ) :=
  if settings = [] then .ok linter
  else do
    let backends ← linter.backends.mapM (configureBackend kinds compile settings)
    return { linter with backends }

end Configure

/-! ## Linting -/

def lintFileRequest : UInt16 := 2

section Lint

variable {τ κ ι π : Type} (kinds : NodeKinds κ) (hash : Bytes → FileId)

def payloadErrorOf : PayloadError → ExternalLintError
  | .lengthOverflow length =>
    .protocol (text s!"payload length {length} exceeds u32::MAX")

def encodeLintRequest (file : File π) (program : Program ι) (resolvedNames : List ResolvedName)
    (activeRules : List UInt16) (targetKinds : UInt8 → Bool) :
    Except ExternalLintError (Option Bytes) := do
  if file.contents.length > u32Max then throw (.fileTooLarge file.contents.length)
  let snapshot ← (SourceSnapshot.filtered program resolvedNames targetKinds).mapError payloadErrorOf
  match snapshot with
  | none => return none
  | some snapshot =>
    let write : Except PayloadError Bytes := do
      let writer ← writeBytes file.name (messageWriter lintFileRequest)
      writeBytes file.contents writer
    let writer ← write.mapError payloadErrorOf
    if activeRules.length ≥ 2 ^ 16 then
      throw (.protocol (text "more than u16::MAX linter rules are active"))
    let writer := writeU16 (.ofNat activeRules.length) writer
    let writer := activeRules.foldl (fun writer index => writeU16 index writer) writer
    let writer ← (snapshot.writeTo writer).mapError payloadErrorOf
    return some writer

def Backend.excludedRules (backend : Backend τ κ) (plan : ActiveRulePlan) (file : File π) :
    List UInt16 :=
  if backend.excludes.isEmpty then []
  else match fromUtf8 file.name with
    | none => []
    | some fileName =>
      (backend.excludes.filter fun exclude =>
        decide (exclude.1 ∈ plan.indices) && exclude.2 fileName).map Prod.fst

/-- The rules that are asked for, or those of the settings. -/
def Backend.selectedPlan (backend : Backend τ κ) (only : Option (List Text)) :
    Except ExternalLintError ActiveRulePlan :=
  match only with
  | none => .ok backend.defaultPlan
  | some codes => ActiveRulePlan.build kinds backend.registration.rules fun rule =>
      codes.any fun code => code == rule.code

/-- The rules of a backend that run on a file. -/
def Backend.planFor (backend : Backend τ κ) (file : File π) (only : Option (List Text)) :
    Except ExternalLintError ActiveRulePlan := do
  let plan ← backend.selectedPlan kinds only
  let excluded := backend.excludedRules plan file
  if excluded = [] then return plan
  else plan.without kinds backend.registration.rules excluded

/-- The issues of one pool. -/
def lintBackend (request : τ → Bytes → Except WorkerError Buffer) (file : File π)
    (program : Program ι) (resolvedNames : List ResolvedName) (only : Option (List Text))
    (issues : List Issue) (backend : Backend τ κ) : Except ExternalLintError (List Issue) := do
  let plan ← backend.planFor kinds file only
  if plan.indices = [] then return issues
  else
    let payload ← encodeLintRequest file program resolvedNames plan.indices plan.targets
    match payload with
    | none => return issues
    | some payload =>
      let response ← (request backend.transport payload).mapError .worker
      let backendIssues ← decodeLintResponse hash file response backend.registration.rules
        backend.levels plan.indices
      return issues ++ backendIssues

def lint (request : τ → Bytes → Except WorkerError Buffer) (linter : ExternalLinter τ κ)
    (file : File π) (program : Program ι) (resolvedNames : List ResolvedName)
    (only : Option (List Text)) : Except ExternalLintError (List Issue) :=
  linter.backends.foldlM (lintBackend kinds hash request file program resolvedNames only) []

end Lint

end Mago.Linter
