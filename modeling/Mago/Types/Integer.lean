import Mago.Library.Intervals
import Mago.Types.Value
import Mathlib

/-!
# Integer types

Literals, half-lines and ranges of integers, with the containment test, the difference of two
types and the combination of a list of types.
-/
namespace Mago.Types

open Mago.Library

inductive TInteger where
  | literal (value : ℤ)
  | fromValue (value : ℤ)
  | toValue (value : ℤ)
  | range (lower upper : ℤ)
  | unspecified
  /-- A literal integer whose value is not known. -/
  | unspecifiedLiteral
  deriving DecidableEq, Ord

namespace TInteger

/-- The integers of a type. -/
def Has : TInteger → ℤ → Prop
  | literal value, n => n = value
  | fromValue value, n => value ≤ n
  | toValue value, n => n ≤ value
  | range lower upper, n => lower ≤ n ∧ n ≤ upper
  | unspecified, _ => True
  | unspecifiedLiteral, _ => True

instance (i : TInteger) (n : ℤ) : Decidable (i.Has n) := by
  cases i <;> unfold Has <;> infer_instance

section Simp

variable {value lower upper n : ℤ}

@[simp] theorem has_literal : (literal value).Has n ↔ n = value := Iff.rfl

@[simp] theorem has_fromValue : (fromValue value).Has n ↔ value ≤ n := Iff.rfl

@[simp] theorem has_toValue : (toValue value).Has n ↔ n ≤ value := Iff.rfl

@[simp] theorem has_range : (range lower upper).Has n ↔ lower ≤ n ∧ n ≤ upper := Iff.rfl

@[simp] theorem has_unspecified : unspecified.Has n := trivial

@[simp] theorem has_unspecifiedLiteral : unspecifiedLiteral.Has n := trivial

end Simp

def fromBounds : Option ℤ → Option ℤ → TInteger
  | some f, some t =>
    if f = t then literal f
    else if f < t then range f t
    else unspecified
  | some f, none => fromValue f
  | none, some t => toValue t
  | none, none => unspecified

def isUnspecified : TInteger → Bool
  | unspecified => true
  | _ => false

def isUnspecifiedLiteral : TInteger → Bool
  | unspecifiedLiteral => true
  | _ => false

def isLiteral : TInteger → Bool
  | literal _ => true
  | _ => false

def getLiteralValue : TInteger → Option ℤ
  | literal value => some value
  | _ => none

def getBounds : TInteger → Option ℤ × Option ℤ
  | literal value => (some value, some value)
  | fromValue value => (some value, none)
  | toValue value => (none, some value)
  | range lower upper => (some lower, some upper)
  | unspecified => (none, none)
  | unspecifiedLiteral => (none, none)

def contains (self input : TInteger) : Bool :=
  if self.isUnspecified then true
  else if self.isUnspecifiedLiteral then input.isLiteral
  else if input.isUnspecified then false
  else if input.isUnspecifiedLiteral then false
  else
    match self, input with
    | literal c, literal i => c = i
    | literal c, range f t => c = f && c = t
    | fromValue c, literal i => c ≤ i
    | fromValue c, fromValue f => c ≤ f
    | fromValue c, range f _ => c ≤ f
    | toValue c, literal i => i ≤ c
    | toValue c, toValue t => t ≤ c
    | toValue c, range _ t => t ≤ c
    | range cf ct, literal i => cf ≤ i && i ≤ ct
    | range cf ct, range f t => cf ≤ f && t ≤ ct
    | _, _ => false

theorem has_fromBounds {lower upper : Option ℤ} {n : ℤ} (hl : ∀ l ∈ lower, l ≤ n)
    (hu : ∀ u ∈ upper, n ≤ u) : (fromBounds lower upper).Has n := by
  cases lower with
  | none => cases upper <;> simp_all [fromBounds]
  | some l =>
    cases upper with
    | none => simp_all [fromBounds]
    | some u =>
      have hl := hl l rfl
      have hu := hu u rfl
      rw [fromBounds]
      by_cases heq : l = u
      · rw [if_pos heq, has_literal]
        omega
      · rw [if_neg heq]
        split
        · exact ⟨hl, hu⟩
        · trivial

/-- One conditional push on the result. -/
def pushIf (c : Bool) (i : TInteger) : List TInteger := if c then [i] else []

@[simp] theorem mem_pushIf {c : Bool} {i j : TInteger} : j ∈ pushIf c i ↔ c = true ∧ j = i := by
  cases c <;> simp [pushIf]

/-- `self - other`. Where `conservativeSubtraction` is set, only a literal is subtracted. -/
def difference (self other : TInteger) (conservativeSubtraction : Bool) : List TInteger :=
  match other, conservativeSubtraction with
  | unspecified, false => []
  | unspecifiedLiteral, false =>
    if self.isUnspecifiedLiteral then []
    else if self.isUnspecified then [self]
    else if !self.isLiteral then [self]
    else []
  | literal b, _ =>
    match self with
    | unspecified => pushIf (i64Min < b) (toValue (b - 1)) ++ pushIf (b < i64Max) (fromValue (b + 1))
    | unspecifiedLiteral =>
      pushIf (i64Min < b) (toValue (b - 1)) ++ pushIf (b < i64Max) (fromValue (b + 1))
    | literal a => pushIf (a != b) (literal a)
    | range a₁ a₂ =>
      if b < a₁ ∨ a₂ < b then [range a₁ a₂]
      else pushIf (a₁ < b) (range a₁ (b - 1)) ++ pushIf (b < a₂) (range (b + 1) a₂)
    | fromValue a =>
      if b < a then [fromValue a]
      else pushIf (a < b) (range a (b - 1)) ++ pushIf (b < i64Max) (fromValue (b + 1))
    | toValue a =>
      if a < b then [toValue a]
      else pushIf (i64Min < b) (toValue (b - 1)) ++ pushIf (b < a) (range (b + 1) a)
  | range b₁ b₂, false =>
    match self with
    | unspecified =>
      pushIf (i64Min < b₁) (toValue (b₁ - 1)) ++ pushIf (b₂ < i64Max) (fromValue (b₂ + 1))
    | unspecifiedLiteral => [unspecifiedLiteral]
    | literal a => pushIf (!(b₁ ≤ a && a ≤ b₂)) (literal a)
    | range a₁ a₂ =>
      if a₂ < b₁ ∨ b₂ < a₁ then [range a₁ a₂]
      else pushIf (a₁ < b₁) (range a₁ (b₁ - 1)) ++ pushIf (b₂ < a₂) (range (b₂ + 1) a₂)
    | fromValue a =>
      if b₂ < a then [fromValue a]
      else pushIf (a < b₁) (range a (b₁ - 1)) ++ pushIf (b₂ < i64Max) (fromValue (b₂ + 1))
    | toValue a =>
      if a < b₁ then [toValue a]
      else pushIf (i64Min < b₁) (toValue (b₁ - 1)) ++ pushIf (b₂ < a) (range (b₂ + 1) a)
  | fromValue b, false =>
    match self with
    | unspecified => pushIf (i64Min < b) (toValue (b - 1))
    | unspecifiedLiteral => [unspecifiedLiteral]
    | literal a => pushIf (a < b) (literal a)
    | range a₁ a₂ =>
      if a₂ < b then [range a₁ a₂]
      else pushIf (a₁ < b) (range a₁ (b - 1))
    | fromValue a => pushIf (a < b) (range a (b - 1))
    | toValue a =>
      if a < b then [toValue a]
      else pushIf (i64Min < b) (toValue (b - 1))
  | toValue b, false =>
    match self with
    | unspecified => pushIf (b < i64Max) (fromValue (b + 1))
    | unspecifiedLiteral => [unspecifiedLiteral]
    | literal a => pushIf (b < a) (literal a)
    | range a₁ a₂ =>
      if b < a₁ then [range a₁ a₂]
      else if a₂ ≤ b then []
      else [range (b + 1) a₂]
    | fromValue a =>
      if b < a then [fromValue a]
      else pushIf (b < i64Max) (fromValue (b + 1))
    | toValue a => pushIf (b < a) (range (b + 1) a)
  | _, true => [self]

/-- No integer that only the first type has is lost. -/
theorem has_difference {self other : TInteger} {conservative : Bool} {n : PhpInt}
    (hs : self.Has n) (ho : ¬ other.Has n) :
    ∃ i ∈ self.difference other conservative, i.Has n := by
  obtain ⟨n, hmin, hmax⟩ := n
  cases other with
  | literal b =>
    simp only [has_literal] at ho
    cases self <;> simp only [difference] <;> (try split) <;>
      simp [or_and_right, exists_or] at hs ⊢ <;> omega
  | range b₁ b₂ =>
    cases conservative
    · simp only [has_range] at ho
      cases self <;> simp only [difference] <;> (try split) <;>
        simp [or_and_right, exists_or] at hs ⊢ <;> omega
    · exact ⟨self, by simp [difference], hs⟩
  | fromValue b =>
    cases conservative
    · simp only [has_fromValue] at ho
      cases self <;> simp only [difference] <;> (try split) <;> simp at hs ⊢ <;> omega
    · exact ⟨self, by simp [difference], hs⟩
  | toValue b =>
    cases conservative
    · simp only [has_toValue] at ho
      cases self <;> simp only [difference] <;> (try split) <;> (try split) <;>
        simp at hs ⊢ <;> omega
    · exact ⟨self, by simp [difference], hs⟩
  | unspecified => exact absurd has_unspecified ho
  | unspecifiedLiteral => exact absurd has_unspecifiedLiteral ho

/-- What the first pass over the types records. -/
structure CombineScan where
  minFrom : ℤ
  maxTo : ℤ
  hasUnspecifiedLiteral : Bool
  hasUnspecified : Bool
  hasFrom : Bool
  hasTo : Bool
  allLiterals : Bool

def CombineScan.new : CombineScan := ⟨i64Max, i64Min, false, false, false, false, true⟩

def CombineScan.record (s : CombineScan) : TInteger → CombineScan
  | unspecified => {s with hasUnspecified := true}
  | unspecifiedLiteral => {s with hasUnspecifiedLiteral := true}
  | fromValue f => {s with hasFrom := true, minFrom := if f < s.minFrom then f else s.minFrom}
  | toValue t => {s with hasTo := true, maxTo := if s.maxTo < t then t else s.maxTo}
  | literal _ =>
    {s with allLiterals :=
      s.allLiterals && !s.hasUnspecifiedLiteral && !s.hasFrom && !s.hasTo}
  | range _ _ => {s with allLiterals := false}

/-- The pass stops at the first unspecified type. -/
def CombineScan.scan (s : CombineScan) : List TInteger → CombineScan
  | [] => s
  | unspecified :: _ => s.record unspecified
  | t :: ts => (s.record t).scan ts

/-- A range starts above the lower half-line. -/
def CombineScan.start (s : CombineScan) (b : ℤ) : ℤ :=
  if s.hasTo && b ≤ s.maxTo then saturatingAdd s.maxTo 1 else b

/-- A range stops below the upper half-line. -/
def CombineScan.stop (s : CombineScan) (e : ℤ) : ℤ :=
  if s.hasFrom && s.minFrom ≤ e then saturatingSub s.minFrom 1 else e

/-- The part of a literal or a range that the half-lines leave. -/
def CombineScan.interval (s : CombineScan) : TInteger → Option (ℤ × ℤ)
  | literal v =>
    if s.hasUnspecifiedLiteral then none
    else if s.hasFrom && s.minFrom ≤ v then none
    else if s.hasTo && v ≤ s.maxTo then none
    else some (v, v)
  | range b e =>
    if s.hasFrom && s.minFrom ≤ b then none
    else if s.hasTo && e ≤ s.maxTo then none
    else if s.start b ≤ s.stop e then some (s.start b, s.stop e)
    else none
  | _ => none

def CombineScan.intervals (s : CombineScan) (types : List TInteger) : List (ℤ × ℤ) :=
  (if s.hasTo then [(i64Min, s.maxTo)] else []) ++
    (if s.hasFrom then [(s.minFrom, i64Max)] else []) ++
    types.filterMap s.interval

def internalToAtomic (p : ℤ × ℤ) : TInteger :=
  if p.1 = i64Min ∧ p.2 = i64Max then unspecified
  else if p.1 = i64Min then toValue p.2
  else if p.2 = i64Max then fromValue p.1
  else if p.1 = p.2 then literal p.1
  else range p.1 p.2

def touches (stop start : ℤ) : Bool := start ≤ saturatingAdd stop 1

/-- Combine a list of integer types into few disjoint ones. -/
def combine (types : List TInteger) : List TInteger :=
  if types.isEmpty then []
  else
    let s := CombineScan.new.scan types
    if s.hasUnspecified then [unspecified]
    else if s.allLiterals && !s.hasUnspecifiedLiteral && !s.hasFrom && !s.hasTo then types
    else if s.hasFrom && s.hasTo && s.minFrom ≤ saturatingAdd s.maxTo 1 then [unspecified]
    else
      match (s.intervals types).mergeSort (fun p q => p.1 ≤ q.1) with
      | [] => if s.hasUnspecifiedLiteral then [unspecifiedLiteral] else []
      | current :: rest =>
        (if s.hasUnspecifiedLiteral then [unspecifiedLiteral] else []) ++
          (coalesce touches current rest).map internalToAtomic

namespace CombineScan

variable {s : CombineScan} {types : List TInteger} {t u : TInteger} {n : ℤ}

/-- What a pass that met a type knows of it. -/
def Saw (s : CombineScan) : TInteger → Prop
  | unspecified => s.hasUnspecified = true
  | unspecifiedLiteral => s.hasUnspecifiedLiteral = true
  | fromValue f => s.hasFrom = true ∧ s.minFrom ≤ f
  | toValue t => s.hasTo = true ∧ t ≤ s.maxTo
  | _ => True

theorem saw_record : (s.record t).Saw t := by
  cases t <;> simp [record, Saw] <;> split <;> omega

theorem Saw.record (h : s.Saw t) : (s.record u).Saw t := by
  cases t <;> cases u <;> simp [CombineScan.record, Saw] at h ⊢ <;> grind

theorem Saw.scan (h : s.Saw t) : (s.scan types).Saw t := by
  induction types generalizing s with
  | nil => exact h
  | cons u us ih =>
    cases u with
    | unspecified => exact h.record
    | _ => exact ih h.record

theorem saw_of_mem (ht : t ∈ types) (h : (s.scan types).hasUnspecified = false) :
    (s.scan types).Saw t := by
  induction types generalizing s with
  | nil => simp at ht
  | cons u us ih =>
    cases hu : u with
    | unspecified => simp [hu, CombineScan.scan, CombineScan.record] at h
    | _ =>
      subst hu
      simp only [CombineScan.scan] at h ⊢
      rcases List.mem_cons.mp ht with rfl | ht
      · exact saw_record.scan
      · exact ih ht h

/-- An integer of a type that the pass met is in one of the intervals, unless the literals
were left to the unspecified literal. -/
theorem covered_intervals (hsaw : s.Saw t) (ht : t ∈ types) (hn : t.Has n)
    (hmin : i64Min ≤ n) (hmax : n ≤ i64Max) (hu : s.hasUnspecified = false) :
    s.hasUnspecifiedLiteral = true ∨ Covered (s.intervals types) n := by
  have hto : s.hasTo = true → n ≤ s.maxTo → Covered (s.intervals types) n := by
    intro h hle
    simp [intervals, h, hmin, hle]
  have hfrom : s.hasFrom = true → s.minFrom ≤ n → Covered (s.intervals types) n := by
    intro h hle
    simp [intervals, h, hmax, hle]
  have hfinite : ∀ p, s.interval t = some p → p.1 ≤ n → n ≤ p.2 →
      Covered (s.intervals types) n := by
    intro p hp hl hr
    rw [intervals, covered_append]
    exact Or.inr ⟨p, List.mem_filterMap.mpr ⟨t, ht, hp⟩, hl, hr⟩
  cases t with
  | unspecified => simp [Saw, hu] at hsaw
  | unspecifiedLiteral => exact Or.inl hsaw
  | fromValue f => exact Or.inr (hfrom hsaw.1 (hsaw.2.trans hn))
  | toValue t => exact Or.inr (hto hsaw.1 (le_trans hn hsaw.2))
  | literal v =>
    rw [has_literal] at hn
    subst hn
    by_cases hlit : s.hasUnspecifiedLiteral = true
    · exact Or.inl hlit
    refine Or.inr ?_
    by_cases h₁ : s.hasFrom = true ∧ s.minFrom ≤ n
    · exact hfrom h₁.1 h₁.2
    by_cases h₂ : s.hasTo = true ∧ n ≤ s.maxTo
    · exact hto h₂.1 h₂.2
    refine hfinite (n, n) ?_ le_rfl le_rfl
    simp [interval, hlit, h₁, h₂]
  | range b e =>
    refine Or.inr ?_
    obtain ⟨hb, he⟩ := hn
    by_cases h₁ : s.hasFrom = true ∧ s.minFrom ≤ n
    · exact hfrom h₁.1 h₁.2
    by_cases h₂ : s.hasTo = true ∧ n ≤ s.maxTo
    · exact hto h₂.1 h₂.2
    -- the interval is cut above `maxTo` and below `minFrom`, and `n` lies between
    have hb' : ¬ (s.hasFrom = true ∧ s.minFrom ≤ b) := fun h => h₁ ⟨h.1, h.2.trans hb⟩
    have he' : ¬ (s.hasTo = true ∧ e ≤ s.maxTo) := fun h => h₂ ⟨h.1, he.trans h.2⟩
    have hstart : s.start b ≤ n := by
      unfold start
      split
      · rename_i h
        simp only [Bool.and_eq_true, decide_eq_true_eq] at h
        have : ¬ n ≤ s.maxTo := fun hle => h₂ ⟨h.1, hle⟩
        simp only [saturatingAdd]
        omega
      · exact hb
    have hstop : n ≤ s.stop e := by
      unfold stop
      split
      · rename_i h
        simp only [Bool.and_eq_true, decide_eq_true_eq] at h
        have : ¬ s.minFrom ≤ n := fun hle => h₁ ⟨h.1, hle⟩
        simp only [saturatingSub]
        omega
      · exact he
    refine hfinite (s.start b, s.stop e) ?_ hstart hstop
    simp [interval, hb', he', hstart.trans hstop]

end CombineScan

theorem has_internalToAtomic {p : ℤ × ℤ} {n : ℤ} (hl : p.1 ≤ n) (hr : n ≤ p.2) :
    (internalToAtomic p).Has n := by
  unfold internalToAtomic
  split_ifs <;> simp <;> omega

/-- The combination of integer types is an upper bound of them. -/
theorem has_combine {types : List TInteger} {t : TInteger} {n : PhpInt} (ht : t ∈ types)
    (hn : t.Has n) : ∃ i ∈ combine types, i.Has n := by
  obtain ⟨n, hmin, hmax⟩ := n
  have hne : types.isEmpty = false := by
    cases types <;> simp_all
  rw [combine, hne]
  simp only [Bool.false_eq_true, if_false]
  split
  · exact ⟨_, List.mem_singleton_self _, has_unspecified⟩
  rename_i hu
  rw [Bool.not_eq_true] at hu
  split
  · exact ⟨t, ht, hn⟩
  split
  · exact ⟨_, List.mem_singleton_self _, has_unspecified⟩
  have hcov := CombineScan.covered_intervals (CombineScan.saw_of_mem ht hu) ht hn hmin hmax hu
  have hperm := List.mergeSort_perm
    ((CombineScan.new.scan types).intervals types) (fun p q => decide (p.1 ≤ q.1))
  have htrans : ∀ a b c : ℤ × ℤ, decide (a.1 ≤ b.1) = true → decide (b.1 ≤ c.1) = true →
      decide (a.1 ≤ c.1) = true := by
    intro a b c hab hbc
    simp only [decide_eq_true_eq] at *
    omega
  have htotal : ∀ a b : ℤ × ℤ, (decide (a.1 ≤ b.1) || decide (b.1 ≤ a.1)) = true := by
    intro a b
    simp only [Bool.or_eq_true, decide_eq_true_eq]
    omega
  have hsorted := List.pairwise_mergeSort htrans htotal ((CombineScan.new.scan types).intervals types)
  split
  · rename_i hnil
    rcases hcov with hlit | hcov
    · rw [if_pos hlit]
      exact ⟨_, List.mem_singleton_self _, has_unspecifiedLiteral⟩
    · have := covered_of_perm hperm.symm hcov
      rw [hnil] at this
      exact absurd this not_covered_nil
  · rename_i current rest hcons
    rcases hcov with hlit | hcov
    · exact ⟨unspecifiedLiteral, by simp [hlit], has_unspecifiedLiteral⟩
    · have hcov := covered_of_perm hperm.symm hcov
      rw [hcons] at hcov hsorted
      have hsorted : (current :: rest).Pairwise fun p q => p.1 ≤ q.1 :=
        hsorted.imp fun h => by simpa using h
      obtain ⟨p, hp, hl, hr⟩ := covered_coalesce touches hsorted hcov
      exact ⟨internalToAtomic p, List.mem_append_right _ (List.mem_map_of_mem hp),
        has_internalToAtomic hl hr⟩

end TInteger

end Mago.Types
