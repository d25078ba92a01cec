import Mago.Names.Scope

/-!
# Name resolution

Names and declarations by their segments, and the name a reference stands for: what it is written
as, the alias of its kind, or the current namespace. PHP tells constant aliases apart by case, a
scope does not.
-/
namespace Mago.Names
open Library Library.Ascii

/-! ## Names -/

/-- A part of a name between backslashes. -/
structure Segment where
  bytes : Bytes
  ne_nil : bytes ≠ []
  no_backslash : backslash ∉ bytes

/-- Segments, at least one. -/
structure QualifiedName where
  head : Segment
  tail : List Segment

namespace QualifiedName

def bytes (q : QualifiedName) : Bytes :=
  q.head.bytes ++ q.tail.flatMap fun s => backslash :: s.bytes

def last (q : QualifiedName) : Segment := q.tail.getLast?.getD q.head

def append (p q : QualifiedName) : QualifiedName := ⟨p.head, p.tail ++ q.head :: q.tail⟩

theorem bytes_append (p q : QualifiedName) : (p.append q).bytes = qualified p.bytes q.bytes := by
  simp [append, bytes, Names.qualified]

theorem last_append (p q : QualifiedName) : (p.append q).last = q.last := by
  obtain ⟨head, tail⟩ := q
  cases tail using List.reverseRecOn with
  | nil => simp [append, last]
  | append_singleton front s =>
    simp only [append, last]
    rw [← List.cons_append, ← List.append_assoc, List.getLast?_concat, List.getLast?_concat]
    rfl

end QualifiedName

/-- A reference in one of the four forms. -/
inductive Name
  | unqualified (name : Segment)
  | qualified (first : Segment) (rest : QualifiedName)
      (h : lower first.bytes ≠ ofString "namespace")
  | fullyQualified (name : QualifiedName)
  | relative (keyword : Segment) (name : QualifiedName)
      (h : lower keyword.bytes = ofString "namespace")

namespace Name

def bytes : Name → Bytes
  | unqualified name => name.bytes
  | qualified first rest _ => Names.qualified first.bytes rest.bytes
  | fullyQualified name => backslash :: name.bytes
  | relative keyword name _ => Names.qualified keyword.bytes name.bytes

end Name

/-! ## Declarations -/

structure Item where
  name : QualifiedName
  explicit : Option Segment

/-- A declaration; a name that is not grouped, and the prefix of a group, may start with a
backslash. -/
inductive Declaration
  | sequence (items : List (Bool × Item))
  | typedSequence (type : UseType) (items : List (Bool × Item))
  | typedList (type : UseType) (leading : Bool) (pre : QualifiedName) (items : List Item)
  | mixedList (leading : Bool) (pre : QualifiedName) (items : List (Option UseType × Item))

def written (leading : Bool) (name : QualifiedName) : Bytes :=
  if leading then backslash :: name.bytes else name.bytes

def Item.written (leading : Bool) (item : Item) : UseItem :=
  ⟨Names.written leading item.name, item.explicit.map Segment.bytes⟩

def Declaration.written : Declaration → UseItems
  | sequence items => .sequence (items.map fun p => p.2.written p.1)
  | typedSequence type items => .typedSequence type (items.map fun p => p.2.written p.1)
  | typedList type leading pre items =>
    .typedList type (Names.written leading pre) (items.map (Item.written false))
  | mixedList leading pre items =>
    .mixedList (Names.written leading pre) (items.map fun p => ⟨p.1, p.2.written false⟩)

/-- An imported name with the alias it gets in the file. -/
structure Import where
  kind : NameKind
  name : QualifiedName
  aliasName : Segment

/-- Without an alias of its own, a name goes by its last segment. -/
def Item.import (kind : NameKind) (item : Item) (pre : Option QualifiedName) : Import :=
  ⟨kind, pre.elim item.name fun pre => pre.append item.name,
    item.explicit.getD item.name.last⟩

def Declaration.imports : Declaration → List Import
  | sequence items => items.map fun p => p.2.import .default none
  | typedSequence type items => items.map fun p => p.2.import type.nameKind none
  | typedList type _ pre items => items.map fun item => item.import type.nameKind (some pre)
  | mixedList _ pre items =>
    items.map fun p => p.2.import (p.1.elim .default UseType.nameKind) (some pre)

/-! ## What a name stands for -/

/-- How PHP tells the aliases of a kind apart. -/
def phpFold : NameKind → Bytes → Bytes
  | .default => lower
  | .function => lower
  | .constant => id

/-- No two imports of a kind under one alias. -/
def Accepted (imports : List Import) : Prop :=
  imports.Pairwise fun i j =>
    i.kind = j.kind → phpFold i.kind i.aliasName.bytes ≠ phpFold j.kind j.aliasName.bytes

section Resolve

variable (fold : NameKind → Bytes → Bytes) (imports : List Import)
  (namespaceName : Option QualifiedName)

/-- The name that was imported last under an alias. -/
def imported (kind : NameKind) (aliasName : Segment) : Option QualifiedName :=
  (imports.reverse.find? fun i =>
    i.kind = kind ∧ fold kind i.aliasName.bytes = fold kind aliasName.bytes).map Import.name

def inNamespace (name : QualifiedName) : QualifiedName :=
  namespaceName.elim name fun ns => ns.append name

def resolveBy (kind : NameKind) : Name → Bytes × Bool
  | .fullyQualified name => (name.bytes, true)
  | .relative _ name _ => ((inNamespace namespaceName name).bytes, true)
  | .qualified first rest _ =>
    match imported fold imports .default first with
    | some target => ((target.append rest).bytes, true)
    | none => ((inNamespace namespaceName ⟨first, rest.head :: rest.tail⟩).bytes, false)
  | .unqualified name =>
    match imported fold imports kind name with
    | some target => (target.bytes, true)
    | none =>
      if kind = .function ∧ isNeverNamespacedFunction name.bytes = true then (name.bytes, true)
      else ((inNamespace namespaceName ⟨name, []⟩).bytes, false)

end Resolve

/-! ## The text of names -/

section Text

variable {q : QualifiedName} {s : Segment}

theorem Segment.head?_ne (s : Segment) : s.bytes.head? ≠ some backslash := fun h =>
  s.no_backslash (List.mem_of_mem_head? h)

theorem QualifiedName.exists_cons (q : QualifiedName) :
    ∃ b rest, q.bytes = b :: rest ∧ b ≠ backslash := by
  obtain ⟨head, tail⟩ := q
  cases hbytes : head.bytes with
  | nil => exact absurd hbytes head.ne_nil
  | cons b rest =>
    refine ⟨b, _, by rw [bytes, hbytes, List.cons_append], ?_⟩
    rintro rfl
    exact head.no_backslash (by rw [hbytes]; exact List.mem_cons_self)

theorem trimStartByte_written (leading : Bool) (q : QualifiedName) :
    trimStartByte (written leading q) backslash = q.bytes := by
  obtain ⟨b, rest, hq, hb⟩ := q.exists_cons
  have htrim : trimStartByte q.bytes backslash = q.bytes := by
    rw [trimStartByte, hq, List.dropWhile_cons_of_neg (by simpa using hb)]
  cases leading with
  | false => exact htrim
  | true =>
    rw [written, if_pos rfl, trimStartByte, List.dropWhile_cons_of_pos (by simp)]
    exact htrim

theorem rfindByte_eq_none {bytes : Bytes} (h : backslash ∉ bytes) :
    rfindByte bytes backslash = none := by
  induction bytes with
  | nil => rfl
  | cons b rest ih =>
    have hb : b ≠ backslash := fun hb => h (hb ▸ List.mem_cons_self)
    rw [rfindByte, ih fun hmem => h (List.mem_cons_of_mem b hmem)]
    exact if_neg hb

theorem rfindByte_append (pre : Bytes) {suffix : Bytes} (h : backslash ∉ suffix) :
    rfindByte (pre ++ backslash :: suffix) backslash = some pre.length := by
  induction pre with
  | nil =>
    rw [List.nil_append, rfindByte, rfindByte_eq_none h]
    exact if_pos rfl
  | cons b rest ih =>
    rw [List.cons_append, rfindByte, ih]
    rfl

/-- The key of a name without an alias of its own is its last segment. -/
theorem aliasKey_none (q : QualifiedName) :
    NamespaceScope.aliasKey q.bytes none = lower q.last.bytes := by
  obtain ⟨head, tail⟩ := q
  cases tail using List.reverseRecOn with
  | nil =>
    have hbytes : QualifiedName.bytes ⟨head, []⟩ = head.bytes := by simp [QualifiedName.bytes]
    rw [NamespaceScope.aliasKey, hbytes]
    simp only [rfindByte_eq_none head.no_backslash]
    rfl
  | append_singleton front last =>
    have hbytes : QualifiedName.bytes ⟨head, front ++ [last]⟩ =
        QualifiedName.bytes ⟨head, front⟩ ++ backslash :: last.bytes := by
      simp [QualifiedName.bytes]
    have hlast : QualifiedName.last ⟨head, front ++ [last]⟩ = last := by
      simp [QualifiedName.last]
    rw [NamespaceScope.aliasKey, hbytes, hlast]
    simp only [rfindByte_append _ last.no_backslash]
    rw [← List.singleton_append, ← List.append_assoc, List.drop_left' (by simp)]

theorem dropWhile_segment (s : Segment) (behind : Bytes) :
    (s.bytes ++ behind).dropWhile (· != backslash) = behind.dropWhile (· != backslash) := by
  rw [List.dropWhile_append_of_pos]
  intro b hb
  rw [bne_iff_ne]
  rintro rfl
  exact s.no_backslash hb

theorem takeWhile_segment (s : Segment) (behind : Bytes) :
    (s.bytes ++ behind).takeWhile (· != backslash) =
      s.bytes ++ behind.takeWhile (· != backslash) := by
  rw [List.takeWhile_append_of_pos]
  intro b hb
  rw [bne_iff_ne]
  rintro rfl
  exact s.no_backslash hb

theorem splitFirst_qualified (first : Segment) (suffix : Bytes) :
    NamespaceScope.splitFirst (qualified first.bytes suffix) = (first.bytes, some suffix) := by
  have hdrop : (backslash :: suffix).dropWhile (· != backslash) = backslash :: suffix :=
    List.dropWhile_cons_of_neg (by simp)
  have htake : (backslash :: suffix).takeWhile (· != backslash) = [] :=
    List.takeWhile_cons_of_neg (by simp)
  rw [NamespaceScope.splitFirst, qualified, dropWhile_segment, takeWhile_segment, hdrop, htake,
    List.append_nil]

theorem splitFirst_segment (name : Segment) :
    NamespaceScope.splitFirst name.bytes = (name.bytes, none) := by
  have hdrop := dropWhile_segment name []
  rw [List.append_nil, List.dropWhile_nil] at hdrop
  rw [NamespaceScope.splitFirst, hdrop]

end Text

/-! ## The tables -/

/-- The tables of a scope give the names imported last. -/
structure Represents (s : NamespaceScope) (namespaceName : Option QualifiedName)
    (imports : List Import) : Prop where
  namespaceName : s.namespaceName = namespaceName.map QualifiedName.bytes
  aliases : ∀ kind key, (s.aliases kind).get? key =
    (imports.reverse.find? fun i => i.kind = kind ∧ lower i.aliasName.bytes = key).map
      fun i => i.name.bytes

section Represents

variable {s : NamespaceScope} {namespaceName : Option QualifiedName} {imports : List Import}

theorem represents_new (namespaceName : Option QualifiedName) :
    Represents (.new (namespaceName.map QualifiedName.bytes)) namespaceName [] := by
  refine ⟨rfl, fun kind key => ?_⟩
  cases kind with
  | default => rfl
  | function => rfl
  | constant => rfl

theorem namespaceName_add (s : NamespaceScope) (kind : NameKind) (nameRef : Bytes)
    (aliasName : Option Bytes) : (s.add kind nameRef aliasName).namespaceName = s.namespaceName := by
  cases kind with
  | default => rfl
  | function => rfl
  | constant => rfl

theorem get?_add (s : NamespaceScope) (kind kind' : NameKind) (nameRef key : Bytes)
    (aliasName : Option Bytes) :
    ((s.add kind nameRef aliasName).aliases kind').get? key =
      if kind = kind' ∧ NamespaceScope.aliasKey nameRef aliasName = key then some nameRef
      else (s.aliases kind').get? key := by
  cases kind with
  | default =>
    cases kind' with
    | default =>
      simp only [NamespaceScope.add, NamespaceScope.aliases, FiniteMap.get?_alter, true_and,
        eq_comm]
    | _ => simp [NamespaceScope.add, NamespaceScope.aliases]
  | function =>
    cases kind' with
    | function =>
      simp only [NamespaceScope.add, NamespaceScope.aliases, FiniteMap.get?_alter, true_and,
        eq_comm]
    | _ => simp [NamespaceScope.add, NamespaceScope.aliases]
  | constant =>
    cases kind' with
    | constant =>
      simp only [NamespaceScope.add, NamespaceScope.aliases, FiniteMap.get?_alter, true_and,
        eq_comm]
    | _ => simp [NamespaceScope.add, NamespaceScope.aliases]

/-- One more import. -/
theorem Represents.add (h : Represents s namespaceName imports) {i : Import}
    {aliasName : Option Bytes}
    (hkey : NamespaceScope.aliasKey i.name.bytes aliasName = lower i.aliasName.bytes) :
    Represents (s.add i.kind i.name.bytes aliasName) namespaceName (imports ++ [i]) := by
  refine ⟨(namespaceName_add _ _ _ _).trans h.namespaceName, fun kind key => ?_⟩
  rw [get?_add, hkey, List.reverse_append, List.reverse_singleton, List.singleton_append,
    List.find?_cons, h.aliases]
  by_cases heq : i.kind = kind ∧ lower i.aliasName.bytes = key
  · rw [if_pos heq, decide_eq_true heq]
    rfl
  · rw [if_neg heq, decide_eq_false heq]

theorem aliasKey_explicit (q : QualifiedName) (explicit : Option Segment) :
    NamespaceScope.aliasKey q.bytes (explicit.map Segment.bytes) =
      lower (explicit.getD q.last).bytes := by
  cases explicit with
  | none => exact aliasKey_none q
  | some s => rfl

/-- A run of steps that each add one import. -/
theorem Represents.foldl {α : Type} (h : Represents s namespaceName imports) (items : List α)
    (step : NamespaceScope → α → NamespaceScope) (importOf : α → Import)
    (hstep : ∀ s imports a, Represents s namespaceName imports →
      Represents (step s a) namespaceName (imports ++ [importOf a])) :
    Represents (items.foldl step s) namespaceName (imports ++ items.map importOf) := by
  induction items generalizing s imports with
  | nil =>
    rw [List.map_nil, List.append_nil]
    exact h
  | cons a rest ih =>
    rw [List.foldl_cons, List.map_cons, List.append_cons]
    exact ih (hstep s imports a h)

theorem Represents.addItems (h : Represents s namespaceName imports) (kind : NameKind)
    (items : List (Bool × Item)) :
    Represents (s.addItems kind (items.map fun p => p.2.written p.1)) namespaceName
      (imports ++ items.map fun p => p.2.import kind none) := by
  rw [NamespaceScope.addItems, List.foldl_map]
  refine h.foldl items _ _ fun s imports p hs => ?_
  have hadd := hs.add (i := p.2.import kind none) (aliasKey_explicit p.2.name p.2.explicit)
  simp only [Item.written, trimStartByte_written]
  exact hadd

theorem Represents.addGrouped (h : Represents s namespaceName imports) (pre : QualifiedName)
    (kind : NameKind) (item : Item) :
    Represents (s.addGrouped pre.bytes kind (item.written false)) namespaceName
      (imports ++ [item.import kind (some pre)]) := by
  have hkey : NamespaceScope.aliasKey (pre.append item.name).bytes
      (item.explicit.map Segment.bytes) = lower (item.explicit.getD item.name.last).bytes := by
    rw [aliasKey_explicit, QualifiedName.last_append]
  have hadd := h.add (i := item.import kind (some pre)) hkey
  have hname : concatWithSep [pre.bytes, item.name.bytes] backslash =
      (pre.append item.name).bytes := by
    rw [QualifiedName.bytes_append, concatWithSep, qualified]
    simp
  rw [NamespaceScope.addGrouped]
  simp only [Item.written, written, Bool.false_eq_true, if_false, hname]
  exact hadd

/-- A declaration adds its imports, in their order. -/
theorem Represents.populateFromUse (h : Represents s namespaceName imports)
    (declaration : Declaration) :
    Represents (s.populateFromUse declaration.written) namespaceName
      (imports ++ declaration.imports) := by
  cases declaration with
  | sequence items => exact h.addItems .default items
  | typedSequence type items => exact h.addItems type.nameKind items
  | typedList type leading pre items =>
    simp only [Declaration.written, NamespaceScope.populateFromUse, trimStartByte_written,
      List.foldl_map]
    exact h.foldl items _ _ fun s imports item hs => hs.addGrouped pre type.nameKind item
  | mixedList leading pre items =>
    simp only [Declaration.written, NamespaceScope.populateFromUse, trimStartByte_written,
      List.foldl_map]
    exact h.foldl items _ _ fun s imports p hs => hs.addGrouped pre _ p.2

theorem represents_populate (namespaceName : Option QualifiedName)
    (declarations : List Declaration) :
    Represents (.populate (namespaceName.map QualifiedName.bytes)
      (declarations.map Declaration.written)) namespaceName
      (declarations.flatMap Declaration.imports) := by
  have hrun : ∀ s imports, Represents s namespaceName imports →
      Represents ((declarations.map Declaration.written).foldl NamespaceScope.populateFromUse s)
        namespaceName (imports ++ declarations.flatMap Declaration.imports) := by
    induction declarations with
    | nil =>
      intro s imports h
      simpa using h
    | cons declaration rest ih =>
      intro s imports h
      have hnext := ih _ _ (h.populateFromUse declaration)
      rwa [List.append_assoc] at hnext
  exact hrun _ [] (represents_new namespaceName)

theorem Represents.get?_segment (h : Represents s namespaceName imports) (kind : NameKind)
    (name : Segment) :
    (s.aliases kind).get? (lower name.bytes) =
      (imported (fun _ => lower) imports kind name).map QualifiedName.bytes := by
  rw [h.aliases, imported, Option.map_map]
  rfl

theorem Represents.qualifyName (h : Represents s namespaceName imports) (q : QualifiedName) :
    s.qualifyName q.bytes = (inNamespace namespaceName q).bytes := by
  rw [NamespaceScope.qualifyName, h.namespaceName]
  cases namespaceName with
  | none => rfl
  | some ns =>
    obtain ⟨b, rest, hns, -⟩ := ns.exists_cons
    have hne : (!ns.bytes.isEmpty) = true := by
      rw [hns]
      rfl
    simp only [Option.map_some, hne, if_true]
    exact (QualifiedName.bytes_append ns q).symm

/-! ## Resolving -/

theorem bytes_single (name : Segment) : QualifiedName.bytes ⟨name, []⟩ = name.bytes := by
  simp [QualifiedName.bytes]

theorem bytes_cons (first : Segment) (rest : QualifiedName) :
    QualifiedName.bytes ⟨first, rest.head :: rest.tail⟩ = qualified first.bytes rest.bytes := by
  simp [QualifiedName.bytes, qualified]

theorem resolveAlias_qualified (first : Segment) (suffix : Bytes) (kind : NameKind) :
    s.resolveAlias kind (qualified first.bytes suffix) =
      if eqIgnoreCase first.bytes (ofString "namespace") then
        some (match s.namespaceName with
          | some ns => qualified ns suffix
          | none => suffix)
      else (s.defaultAliases.get? (lower first.bytes)).map
        fun resolved => qualified resolved suffix := by
  have hempty : ¬ (qualified first.bytes suffix).isEmpty = true := by
    simp [qualified]
  have hhead : (qualified first.bytes suffix).head? ≠ some backslash := by
    rw [qualified, List.head?_append_of_ne_nil _ first.ne_nil]
    exact first.head?_ne
  have hsplit := splitFirst_qualified first suffix
  cases hnamespace : s.namespaceName <;>
    simp only [NamespaceScope.resolveAlias, if_neg hempty, if_neg hhead, hsplit, hnamespace]

theorem resolveAlias_segment (name : Segment) (kind : NameKind) :
    s.resolveAlias kind name.bytes = (s.aliases kind).get? (lower name.bytes) := by
  have hempty : ¬ name.bytes.isEmpty = true := by simpa using name.ne_nil
  rw [NamespaceScope.resolveAlias, if_neg hempty, if_neg name.head?_ne, splitFirst_segment]

theorem not_isNeverNamespacedFunction (first : Segment) (suffix : Bytes) :
    isNeverNamespacedFunction (qualified first.bytes suffix) = false := by
  have hmem : backslash ∈ lower (qualified first.bytes suffix) :=
    List.mem_map.mpr ⟨backslash, by simp [qualified], by decide⟩
  have hne : ∀ word, backslash ∉ lower word →
      eqIgnoreCase (qualified first.bytes suffix) word = false := by
    intro word hword
    rw [← Bool.not_eq_true, eqIgnoreCase_iff]
    intro heq
    rw [heq] at hmem
    exact hword hmem
  rw [isNeverNamespacedFunction, hne _ (by decide), hne _ (by decide), hne _ (by decide)]
  rfl

/-- A scope resolves a name as its imports say, when no alias is told apart by case. -/
theorem Represents.resolve (h : Represents s namespaceName imports) (kind : NameKind)
    (name : Name) :
    s.resolve kind name.bytes = resolveBy (fun _ => lower) imports namespaceName kind name := by
  cases name with
  | fullyQualified name =>
    have halias : s.resolveAlias kind (backslash :: name.bytes) = some name.bytes := rfl
    rw [NamespaceScope.resolve, Name.bytes, halias]
    rfl
  | relative keyword name hkeyword =>
    have hnamespace : eqIgnoreCase keyword.bytes (ofString "namespace") = true := by
      rw [eqIgnoreCase_iff, hkeyword]
      decide
    rw [NamespaceScope.resolve, Name.bytes, resolveAlias_qualified, if_pos hnamespace,
      h.namespaceName]
    cases namespaceName with
    | none => rfl
    | some ns => exact congrArg (·, true) (QualifiedName.bytes_append ns name).symm
  | qualified first rest hfirst =>
    have hnamespace : ¬ eqIgnoreCase first.bytes (ofString "namespace") = true := by
      rw [eqIgnoreCase_iff]
      intro heq
      exact hfirst (heq.trans (by decide))
    have hget := h.get?_segment .default first
    rw [NamespaceScope.resolve, Name.bytes, resolveAlias_qualified, if_neg hnamespace]
    change s.defaultAliases.get? (lower first.bytes) = _ at hget
    rw [hget, resolveBy]
    cases imported (fun _ => lower) imports .default first with
    | some target => exact congrArg (·, true) (QualifiedName.bytes_append target rest).symm
    | none =>
      simp only [Option.map_none, not_isNeverNamespacedFunction, Bool.and_false,
        Bool.false_eq_true, if_false]
      rw [← bytes_cons, h.qualifyName]
  | unqualified name =>
    rw [NamespaceScope.resolve, Name.bytes, resolveAlias_segment, h.get?_segment, resolveBy]
    cases imported (fun _ => lower) imports kind name with
    | some target => rfl
    | none =>
      simp only [Option.map_none]
      rw [← bytes_single name, h.qualifyName]
      simp

end Represents

/-- What a scope makes of a name after declarations: the rules of PHP, but for constant aliases,
which are told apart like all others. -/
theorem resolve_eq (namespaceName : Option QualifiedName) (declarations : List Declaration)
    (kind : NameKind) (name : Name) :
    (NamespaceScope.populate (namespaceName.map QualifiedName.bytes)
        (declarations.map Declaration.written)).resolve kind name.bytes =
      resolveBy (fun _ => lower) (declarations.flatMap Declaration.imports) namespaceName kind
        name :=
  (represents_populate namespaceName declarations).resolve kind name

/-! ## Constants -/

def library : QualifiedName where
  head := ⟨ofString "Library", by decide, by decide⟩
  tail := [⟨ofString "VALUE", by decide, by decide⟩]

/-- `use const Library\VALUE;` -/
def useConstant : Declaration := .typedSequence .const [(false, ⟨library, none⟩)]

def lowercaseName : Name := .unqualified ⟨ofString "value", by decide, by decide⟩

/-- Another casing of the alias of a constant is no name of the constant in PHP. -/
theorem resolve_constant_by_case :
    Accepted (useConstant.imports) ∧
      (NamespaceScope.populate none [useConstant.written]).resolve .constant lowercaseName.bytes =
        (ofString "Library\\VALUE", true) ∧
      resolveBy phpFold useConstant.imports none .constant lowercaseName =
        (ofString "value", false) :=
  ⟨List.pairwise_singleton _ _, by decide, by decide⟩

end Mago.Names
