import Mago.Library.Ascii
import Mago.Library.FiniteMap

/-!
# Namespace scopes

The current namespace and the aliases of the `use` declarations in it, one table for each kind
of name, by lowercase alias.
-/
namespace Mago.Names
open Library Library.Ascii

abbrev Bytes := List UInt8

def backslash : UInt8 := 92

inductive NameKind
  | default
  | function
  | constant
  deriving DecidableEq

/-! ## Use declarations -/

structure UseItem where
  name : Bytes
  aliasName : Option Bytes

inductive UseType
  | function
  | const
  deriving DecidableEq

def UseType.nameKind : UseType → NameKind
  | function => .function
  | const => .constant

structure MaybeTypedUseItem where
  type : Option UseType
  item : UseItem

/-- A declaration with its names as they are written. -/
inductive UseItems
  | sequence (items : List UseItem)
  | typedSequence (type : UseType) (items : List UseItem)
  | typedList (type : UseType) (namespaceName : Bytes) (items : List UseItem)
  | mixedList (namespaceName : Bytes) (items : List MaybeTypedUseItem)

def trimStartByte (s : Bytes) (byte : UInt8) : Bytes := s.dropWhile (· == byte)

/-- The last position of a byte. -/
def rfindByte (s : Bytes) (byte : UInt8) : Option ℕ :=
  match s with
  | [] => none
  | b :: rest =>
    match rfindByte rest byte with
    | some position => some (position + 1)
    | none => if b = byte then some 0 else none

def concatWithSep (parts : List Bytes) (sep : UInt8) : Bytes := [sep].intercalate parts

def qualified (pre name : Bytes) : Bytes := pre ++ backslash :: name

def isNeverNamespacedFunction (name : Bytes) : Bool :=
  eqIgnoreCase name (ofString "clone") || eqIgnoreCase name (ofString "exit") ||
    eqIgnoreCase name (ofString "die")

/-! ## Scopes -/

structure NamespaceScope where
  namespaceName : Option Bytes
  defaultAliases : FiniteMap Bytes Bytes
  functionAliases : FiniteMap Bytes Bytes
  constantAliases : FiniteMap Bytes Bytes

namespace NamespaceScope

def new (namespaceName : Option Bytes) : NamespaceScope := ⟨namespaceName, .empty, .empty, .empty⟩

/-- The table of a kind. -/
def aliases (s : NamespaceScope) : NameKind → FiniteMap Bytes Bytes
  | .default => s.defaultAliases
  | .function => s.functionAliases
  | .constant => s.constantAliases

def aliasKey (nameRef : Bytes) (aliasName : Option Bytes) : Bytes :=
  match aliasName with
  | some aliasName => lower aliasName
  | none =>
    match rfindByte nameRef backslash with
    | some lastBackslashPos => lower (nameRef.drop (lastBackslashPos + 1))
    | none => lower nameRef

def add (s : NamespaceScope) (kind : NameKind) (nameRef : Bytes) (aliasName : Option Bytes) :
    NamespaceScope :=
  let insert (aliases : FiniteMap Bytes Bytes) :=
    aliases.alter (aliasKey nameRef aliasName) fun _ => some nameRef
  match kind with
  | .default => { s with defaultAliases := insert s.defaultAliases }
  | .function => { s with functionAliases := insert s.functionAliases }
  | .constant => { s with constantAliases := insert s.constantAliases }

def addItems (s : NamespaceScope) (kind : NameKind) (items : List UseItem) : NamespaceScope :=
  items.foldl (fun s item => s.add kind (trimStartByte item.name backslash) item.aliasName) s

def addGrouped (s : NamespaceScope) (pre : Bytes) (kind : NameKind) (item : UseItem) :
    NamespaceScope :=
  s.add kind (concatWithSep [pre, item.name] backslash) item.aliasName

def populateFromUse (s : NamespaceScope) (items : UseItems) : NamespaceScope :=
  match items with
  | .sequence items => s.addItems .default items
  | .typedSequence type items => s.addItems type.nameKind items
  | .typedList type namespaceName items =>
    let pre := trimStartByte namespaceName backslash
    items.foldl (fun s item => s.addGrouped pre type.nameKind item) s
  | .mixedList namespaceName items =>
    let pre := trimStartByte namespaceName backslash
    items.foldl (fun s item =>
      s.addGrouped pre (item.type.elim .default UseType.nameKind) item.item) s

def qualifyName (s : NamespaceScope) (nameRef : Bytes) : Bytes :=
  match s.namespaceName with
  | some ns => if !ns.isEmpty then qualified ns nameRef else nameRef
  | none => nameRef

/-- Up to the first backslash, and behind it. -/
def splitFirst (nameRef : Bytes) : Bytes × Option Bytes :=
  match nameRef.dropWhile (· != backslash) with
  | _ :: suffix => (nameRef.takeWhile (· != backslash), some suffix)
  | [] => (nameRef, none)

def resolveAlias (s : NamespaceScope) (kind : NameKind) (nameRef : Bytes) : Option Bytes :=
  if nameRef.isEmpty then none
  else if nameRef.head? = some backslash then some nameRef.tail
  else
    let parts := splitFirst nameRef
    match parts.2 with
    | some suffix =>
      if eqIgnoreCase parts.1 (ofString "namespace") then
        some (match s.namespaceName with
          | some ns => qualified ns suffix
          | none => suffix)
      else (s.defaultAliases.get? (lower parts.1)).map fun resolved => qualified resolved suffix
    | none => (s.aliases kind).get? (lower parts.1)

/-- The resolved name, and whether a construct or an alias decided it. -/
def resolve (s : NamespaceScope) (kind : NameKind) (nameRef : Bytes) : Bytes × Bool :=
  match s.resolveAlias kind nameRef with
  | some resolved => (resolved, true)
  | none =>
    if kind = .function && isNeverNamespacedFunction nameRef then (nameRef, true)
    else (s.qualifyName nameRef, false)

/-- A scope with the aliases of declarations, in their order. -/
def populate (namespaceName : Option Bytes) (declarations : List UseItems) : NamespaceScope :=
  declarations.foldl populateFromUse (new namespaceName)

example : ((populate (some (ofString "App")) [.sequence [⟨ofString "\\Lib\\Type", none⟩]]).resolve
    .function (ofString "TYPE\\call")) = (ofString "Lib\\Type\\call", true) := by decide

end NamespaceScope

end Mago.Names
