import Mago.Library.OrderedMap
import Mago.Types.Atomic
import Mathlib

/-!
# Array types

Lists and keyed arrays with the entries that are known of them, and the arrays of a program
that belong to such a type. A map of entries keeps each key once; nothing here depends on the
order in which the source's maps give them.
-/
namespace Mago.Types

open Mago.Algebra (Word word ArrayKey)
open Mago.Library

/-! ## Keys -/

/-- The number that a word of digits spells. -/
def decimal (digits : Word) : ℤ := digits.foldl (fun n b => 10 * n + (b.toNat - 48 : ℤ)) 0

def parseI64 (raw : Word) : Option ℤ :=
  let n := if raw.head? = some 45 then -decimal raw.tail else decimal raw
  if i64Min ≤ n ∧ n ≤ i64Max then some n else none

namespace ArrayKey

/-- A string that spells an integer is that integer as a key. -/
def fromString (value : Word) : ArrayKey :=
  let digits := if value.head? = some 45 then value.tail else value
  if digits.isEmpty || !digits.all isAsciiDigit ||
      (digits.head? == some 48 && value != word "0") then .string value
  else (parseI64 value).elim (.string value) .integer

example : fromString (word "-22") = .integer (-22) := by decide

example : fromString (word "-0") = .string (word "-0") := by decide

variable {F K O : Type}

def toAtomic : ArrayKey → TAtomic F K
  | .integer i => .scalar (.integer (.literal i))
  | .string s => .scalar (.string (.knownLiteral s))
  | .classLikeConstant _ _ => .scalar .arrayKey

/-- The key that a value becomes. -/
def ofValue : Value F O → Option ArrayKey
  | .int n => some (.integer n.val)
  | .string s => some (fromString s)
  | _ => none

end ArrayKey

/-- The name a literal class-like string has, which spells no integer, among the types of the
further kinds. -/
class NamedKind (K F O : Type) extends Kind K F O where
  className : K → Option Word
  eq_of_className : ∀ {k s v}, className k = some s → Has k v → v = .string s
  fromString_of_className : ∀ {k s}, className k = some s → ArrayKey.fromString s = .string s

instance {F O : Type} : NamedKind Empty F O where
  className k := k.elim
  eq_of_className {k} := k.elim
  fromString_of_className {k} := k.elim

/-- The type of an entry, with the flag that lets a comparison overlook `false`. -/
structure ItemType (F K : Type) extends TUnion F K where
  ignoreFalsableIssues : Bool
  deriving DecidableEq

namespace ItemType

variable {F K O : Type}

def fromSingle (t : TAtomic F K) : ItemType F K := ⟨⟨[t]⟩, false⟩

def getNever : ItemType F K := fromSingle .never

/-- The keys of a list in general. -/
def nonNegative : ItemType F K := fromSingle (.scalar (.integer (.fromValue 0)))

def ofKey (key : ArrayKey) : ItemType F K := fromSingle (ArrayKey.toAtomic key)

end ItemType

section SingleKey

variable {F K : Type} (O : Type) [NamedKind K F O]

def TAtomic.toArrayKey : TAtomic F K → Option ArrayKey
  | .scalar (.integer i) => i.getLiteralValue.map .integer
  | .scalar (.string s) => s.getKnownLiteralAtom.map ArrayKey.fromString
  | .other k => (NamedKind.className F O k).map .string
  | _ => none

def ItemType.getSingleArrayKey (u : ItemType F K) : Option ArrayKey :=
  match u.types with
  | [t] => t.toArrayKey O
  | _ => none

end SingleKey

/-! ## Types -/

structure TList (F K : Type) where
  elementType : ItemType F K
  knownElements : Option (OrderedMap UInt64 (Bool × ItemType F K))
  knownCount : Option ℕ
  nonEmpty : Bool

structure TKeyedArray (F K : Type) where
  knownItems : Option (OrderedMap ArrayKey (Bool × ItemType F K))
  parameters : Option (ItemType F K × ItemType F K)
  nonEmpty : Bool
  knownNonList : Bool

inductive TArray (F K : Type) where
  | list (list : TList F K)
  | keyed (keyedArray : TKeyedArray F K)

/-- An index as a key; the large ones wrap around. -/
def indexKey (index : UInt64) : ArrayKey := .integer index.toInt64.toInt

inductive KnownItems (F K : Type) where
  | keyed (items : OrderedMap ArrayKey (Bool × ItemType F K))
  | list (elements : OrderedMap UInt64 (Bool × ItemType F K))

namespace KnownItems

variable {F K : Type}

def get (items : KnownItems F K) (key : ArrayKey) : Option (Bool × ItemType F K) :=
  match items, key with
  | keyed items, key => items.get? key
  | list elements, .integer index =>
    let offset := (Int64.ofInt index).toUInt64
    if offset.toInt64.toInt ≠ index then none else elements.get? offset
  | list _, _ => none

def iter : KnownItems F K → List (ArrayKey × Bool × ItemType F K)
  | keyed items => items.entries
  | list elements => elements.entries.map fun e => (indexKey e.1, e.2)

end KnownItems

namespace TArray

variable {F K O : Type}

def isList : TArray F K → Bool
  | list _ => true
  | keyed _ => false

def isNonEmpty : TArray F K → Bool
  | list l => l.nonEmpty
  | keyed a => a.nonEmpty

def isSealed : TArray F K → Bool
  | list l => l.elementType.isNever
  | keyed a => a.parameters.isNone

def knownItemsView : TArray F K → Option (KnownItems F K)
  | keyed a => a.knownItems.map .keyed
  | list l => l.knownElements.map .list

/-- The known entries, none where there is no map of them. -/
def knownEntries (a : TArray F K) : List (ArrayKey × Bool × ItemType F K) :=
  a.knownItemsView.elim [] KnownItems.iter

def hasKnownItems (a : TArray F K) : Bool := !a.knownEntries.isEmpty

def isEmpty (a : TArray F K) : Bool := !a.isNonEmpty && a.isSealed && !a.hasKnownItems

def hasRequiredKnownEntry (a : TArray F K) : Bool := a.knownEntries.any fun e => !e.2.1

/-- The required entries where no more precise count is known. -/
def getMinimumSize : TArray F K → ℕ
  | keyed a =>
    match a.knownItems with
    | some items => items.entries.countP fun e => !e.2.1
    | none => if a.nonEmpty then 1 else 0
  | list l =>
    match l.knownCount, l.knownElements with
    | some count, _ => count
    | none, some elements => elements.entries.countP fun e => !e.2.1
    | none, none => if l.nonEmpty then 1 else 0

/-- The types of the keys and of the values that are not known one by one. -/
def keyAndValueTypes : TArray F K → Option (ItemType F K) × ItemType F K
  | list l => (some .nonNegative, l.elementType)
  | keyed a =>
    match a.parameters with
    | some (keyType, valueType) => (some keyType, valueType)
    | none => (none, .getNever)

def keyType (a : TArray F K) : Option (ItemType F K) := a.keyAndValueTypes.1

def valueType (a : TArray F K) : ItemType F K := a.keyAndValueTypes.2

def knownCount : TArray F K → Option ℕ
  | list l => l.knownCount
  | keyed _ => none

def knownNonList : TArray F K → Bool
  | list _ => false
  | keyed a => a.knownNonList

/-- The key and value types a comparison looks at. -/
def itemTypes (a : TArray F K) : List (ItemType F K) :=
  a.knownEntries.map (fun e => .ofKey e.1) ++ a.knownEntries.map (fun e => e.2.2) ++
    a.keyType.toList ++ [a.valueType]

end TArray

/-! ## Arrays -/

/-- An array of a program: its entries in order, each under a key that some value becomes. -/
structure PhpArray (F O : Type) where
  entries : List (ArrayKey × Value F O)
  nodup : (entries.map Prod.fst).Nodup
  isKey : ∀ e ∈ entries, ∃ v : Value F O, ArrayKey.ofValue v = some e.1

namespace PhpArray

variable {F O : Type}

def keys (a : PhpArray F O) : List ArrayKey := a.entries.map Prod.fst

def len (a : PhpArray F O) : ℕ := a.entries.length

/-- The keys are `0` to `n - 1` in this order. -/
def IsList (a : PhpArray F O) : Prop :=
  a.keys = (List.range a.len).map fun i => .integer (i : ℤ)

instance (a : PhpArray F O) : Decidable a.IsList := by unfold IsList; infer_instance

end PhpArray

variable {F K O : Type} [LinearOrder F] [Zero F] [World O] [NamedKind K F O]

/-- A key type has the keys that its values become. -/
def ItemType.HasKey (O : Type) [World O] [NamedKind K F O] (u : ItemType F K)
    (key : ArrayKey) : Prop :=
  ∃ v : Value F O, u.Has v ∧ ArrayKey.ofValue v = some key

/-- Belonging to an array type: a known entry that is there has its type, a required one is
there, and a further entry is of the type for those. -/
structure TArray.Has (t : TArray F K) (a : PhpArray F O) : Prop where
  known : ∀ {k opt u v}, (k, opt, u) ∈ t.knownEntries → (k, v) ∈ a.entries → u.Has v
  required : ∀ {k u}, (k, false, u) ∈ t.knownEntries → k ∈ a.keys
  nonEmpty : t.isNonEmpty = true → a.entries ≠ []
  further : ∀ {k v}, (k, v) ∈ a.entries → k ∉ t.knownEntries.map Prod.fst →
    t.valueType.Has v ∧ ∀ u, t.keyType = some u → u.HasKey O k
  isList : t.isList = true → a.IsList
  count : ∀ n, t.knownCount = some n → a.len = n
  nonList : t.knownNonList = true → ¬ a.IsList

end Mago.Types
