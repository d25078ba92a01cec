import Mago.Types.Integer
import Mathlib

/-!
# Integer types as sets of 64-bit integers

The difference of two types and the combination of a list of types are exact, and what
they return is well formed.
-/
namespace Mago.Types

open Mago.Library

/-- A 64-bit integer. -/
def InI64 (n : ℤ) : Prop := i64Min ≤ n ∧ n ≤ i64Max

instance (n : ℤ) : Decidable (InI64 n) := by
  unfold InI64
  infer_instance

theorem inI64_min : InI64 i64Min := by decide

theorem inI64_max : InI64 i64Max := by decide

namespace TInteger

/-- The ends are 64-bit integers and no range is empty. -/
def WellFormed : TInteger → Prop
  | literal value => InI64 value
  | fromValue value => InI64 value
  | toValue value => InI64 value
  | range lower upper => InI64 lower ∧ lower ≤ upper ∧ InI64 upper
  | unspecified => True
  | unspecifiedLiteral => True

instance : (i : TInteger) → Decidable i.WellFormed
  | literal value => inferInstanceAs (Decidable (InI64 value))
  | fromValue value => inferInstanceAs (Decidable (InI64 value))
  | toValue value => inferInstanceAs (Decidable (InI64 value))
  | range lower upper => inferInstanceAs (Decidable (InI64 lower ∧ lower ≤ upper ∧ InI64 upper))
  | unspecified => isTrue trivial
  | unspecifiedLiteral => isTrue trivial

/-- No integer is of both types. -/
def Disjoint (i j : TInteger) : Prop := ∀ n, i.Has n → ¬ j.Has n

/-- The second type starts above the first and leaves a gap. -/
def Apart (i j : TInteger) : Prop :=
  ∀ n m, InI64 n → InI64 m → i.Has n → j.Has m → n + 1 < m

section Simp

variable {value lower upper : ℤ}

@[simp] theorem wellFormed_literal : (literal value).WellFormed ↔ InI64 value := Iff.rfl

@[simp] theorem wellFormed_fromValue : (fromValue value).WellFormed ↔ InI64 value := Iff.rfl

@[simp] theorem wellFormed_toValue : (toValue value).WellFormed ↔ InI64 value := Iff.rfl

@[simp] theorem wellFormed_range :
    (range lower upper).WellFormed ↔ InI64 lower ∧ lower ≤ upper ∧ InI64 upper := Iff.rfl

@[simp] theorem wellFormed_unspecified : unspecified.WellFormed := trivial

@[simp] theorem wellFormed_unspecifiedLiteral : unspecifiedLiteral.WellFormed := trivial

end Simp

section Difference

variable {self other i : TInteger} {n : ℤ}

/-- What is left of `self` was there. -/
theorem has_of_has_difference (hi : i ∈ self.difference other false) (hn : i.Has n) :
    self.Has n := by
  cases other with
  | unspecified => simp [difference] at hi
  | unspecifiedLiteral =>
    simp only [difference] at hi
    split_ifs at hi <;> simp_all
  | literal b =>
    cases self <;> simp only [difference] at hi <;> (try split at hi) <;>
      simp at hi <;> grind [Has]
  | range b₁ b₂ =>
    cases self <;> simp only [difference] at hi <;> (try split at hi) <;>
      simp at hi <;> grind [Has]
  | fromValue b =>
    cases self <;> simp only [difference] at hi <;> (try split at hi) <;>
      simp at hi <;> grind [Has]
  | toValue b =>
    cases self <;> simp only [difference] at hi <;> (try split at hi) <;>
      (try split at hi) <;> simp at hi <;> grind [Has]

/-- What is left of `self` avoids a type that is subtracted in full. -/
theorem not_has_of_has_difference (hlit : other ≠ unspecifiedLiteral)
    (hself : self ≠ unspecifiedLiteral) (hi : i ∈ self.difference other false) (hn : i.Has n) :
    ¬ other.Has n := by
  cases other with
  | unspecified => simp [difference] at hi
  | unspecifiedLiteral => exact absurd rfl hlit
  | literal b =>
    cases self <;> simp only [difference] at hi <;> (try split at hi) <;>
      simp at hi <;> grind [Has]
  | range b₁ b₂ =>
    cases self <;> simp only [difference] at hi <;> (try split at hi) <;>
      simp at hi <;> grind [Has]
  | fromValue b =>
    cases self <;> simp only [difference] at hi <;> (try split at hi) <;>
      simp at hi <;> grind [Has]
  | toValue b =>
    cases self <;> simp only [difference] at hi <;> (try split at hi) <;>
      (try split at hi) <;> simp at hi <;> grind [Has]

/-- The ends `b - 1` and `b + 1` are computed where they are 64-bit integers. -/
theorem wellFormed_of_mem_difference (hs : self.WellFormed) (ho : other.WellFormed)
    (hi : i ∈ self.difference other false) : i.WellFormed := by
  cases other with
  | unspecified => simp [difference] at hi
  | unspecifiedLiteral =>
    simp only [difference] at hi
    split_ifs at hi <;> simp_all
  | literal b =>
    cases self <;> simp only [difference] at hi <;> (try split at hi) <;>
      simp [InI64] at hi hs ho <;> grind [WellFormed, InI64]
  | range b₁ b₂ =>
    cases self <;> simp only [difference] at hi <;> (try split at hi) <;>
      simp [InI64] at hi hs ho <;> grind [WellFormed, InI64]
  | fromValue b =>
    cases self <;> simp only [difference] at hi <;> (try split at hi) <;>
      simp [InI64] at hi hs ho <;> grind [WellFormed, InI64]
  | toValue b =>
    cases self <;> simp only [difference] at hi <;> (try split at hi) <;>
      (try split at hi) <;> simp [InI64] at hi hs ho <;> grind [WellFormed, InI64]

/-- Two conditional pushes are disjoint when the first part ends below the second. -/
theorem pairwise_pushIf {c d : Bool} {i j : TInteger} (h : Disjoint i j) :
    (pushIf c i ++ pushIf d j).Pairwise Disjoint := by
  cases c <;> cases d <;> simp [pushIf, h]

theorem pairwise_pushIf_single {c : Bool} {i : TInteger} : (pushIf c i).Pairwise Disjoint := by
  cases c <;> simp [pushIf]

theorem pairwise_difference (ho : other.WellFormed) :
    (self.difference other false).Pairwise Disjoint := by
  cases other with
  | unspecified => simp [difference]
  | unspecifiedLiteral =>
    simp only [difference]
    split_ifs <;> simp
  | literal b =>
    cases self <;> simp only [difference] <;> (try split) <;>
      first
        | exact List.pairwise_singleton _ _
        | exact pairwise_pushIf_single
        | exact pairwise_pushIf (by intro n; simp; omega)
  | range b₁ b₂ =>
    have hle := ho.2.1
    cases self <;> simp only [difference] <;> (try split) <;>
      first
        | exact List.pairwise_singleton _ _
        | exact pairwise_pushIf_single
        | exact pairwise_pushIf (by intro n; simp; omega)
  | fromValue b =>
    cases self <;> simp only [difference] <;> (try split) <;>
      first
        | exact List.pairwise_singleton _ _
        | exact pairwise_pushIf_single
  | toValue b =>
    cases self <;> simp only [difference] <;> (try split) <;> (try split) <;>
      first
        | exact List.pairwise_singleton _ _
        | exact List.Pairwise.nil
        | exact pairwise_pushIf_single

/-- Subtraction that is not conservative is the difference of sets, in pieces that are well
formed and do not overlap. A computed end is the end of a piece, so none overflows. -/
theorem difference_exact (hs : self.WellFormed) (ho : other.WellFormed)
    (hself : self ≠ unspecifiedLiteral) (hother : other ≠ unspecifiedLiteral) :
    (∀ i ∈ self.difference other false, i.WellFormed) ∧
      (self.difference other false).Pairwise Disjoint ∧
      ∀ n, InI64 n →
        ((∃ i ∈ self.difference other false, i.Has n) ↔ self.Has n ∧ ¬ other.Has n) := by
  refine ⟨fun i hi => wellFormed_of_mem_difference hs ho hi, pairwise_difference ho, ?_⟩
  intro n hn
  constructor
  · intro h
    obtain ⟨i, hi, hin⟩ := h
    exact ⟨has_of_has_difference hi hin, not_has_of_has_difference hother hself hi hin⟩
  · intro h
    exact has_difference (n := ⟨n, hn⟩) h.1 h.2

/-- Zero cut out of all integers. -/
theorem difference_exact_zero :
    (∀ i ∈ unspecified.difference (literal 0) false, i.WellFormed) ∧
      (unspecified.difference (literal 0) false).Pairwise Disjoint ∧
      ∀ n, InI64 n → ((∃ i ∈ unspecified.difference (literal 0) false, i.Has n) ↔
        unspecified.Has n ∧ ¬ (literal 0).Has n) :=
  difference_exact trivial (by decide) (by decide) (by decide)

end Difference

section Combine

variable {types seen : List TInteger} {t u : TInteger} {n : ℤ} {p : ℤ × ℤ}

namespace CombineScan

variable {s : CombineScan}

/-- What the pass records comes from the types. -/
structure Justified (s : CombineScan) (types : List TInteger) : Prop where
  unspecified : s.hasUnspecified = true → TInteger.unspecified ∈ types
  lit : s.hasUnspecifiedLiteral = true → unspecifiedLiteral ∈ types
  from_mem : s.hasFrom = true → fromValue s.minFrom ∈ types
  from_init : s.hasFrom = false → s.minFrom = i64Max
  to_mem : s.hasTo = true → toValue s.maxTo ∈ types
  to_init : s.hasTo = false → s.maxTo = i64Min

theorem justified_new : CombineScan.new.Justified types := by
  constructor <;> simp [CombineScan.new]

theorem Justified.record (h : s.Justified types) (hu : u ∈ types) (hwf : u.WellFormed) :
    (s.record u).Justified types := by
  obtain ⟨hunspec, hlit, hfrom, hfrom₀, hto, hto₀⟩ := h
  cases u with
  | unspecified => constructor <;> simp_all [CombineScan.record]
  | unspecifiedLiteral => constructor <;> simp_all [CombineScan.record]
  | literal v => constructor <;> simp_all [CombineScan.record]
  | range b e => constructor <;> simp_all [CombineScan.record]
  | fromValue f =>
    constructor <;> simp_all [CombineScan.record]
    by_cases hlt : f < s.minFrom
    · simpa [hlt] using hu
    · rw [if_neg hlt]
      cases hs : s.hasFrom with
      | true => exact hfrom hs
      | false =>
        have hinit := hfrom₀ hs
        have hmax := hwf.2
        rwa [show s.minFrom = f by omega]
  | toValue t =>
    constructor <;> simp_all [CombineScan.record]
    by_cases hlt : s.maxTo < t
    · simpa [hlt] using hu
    · rw [if_neg hlt]
      cases hs : s.hasTo with
      | true => exact hto hs
      | false =>
        have hinit := hto₀ hs
        have hmin := hwf.1
        rwa [show s.maxTo = t by omega]

theorem Justified.scan (h : s.Justified types) (hseen : ∀ t ∈ seen, t ∈ types)
    (hwf : ∀ t ∈ types, t.WellFormed) : (s.scan seen).Justified types := by
  induction seen generalizing s with
  | nil => exact h
  | cons u us ih =>
    have hu := hseen u (by simp)
    have hrecord := h.record hu (hwf u hu)
    cases u with
    | unspecified => exact hrecord
    | _ => exact ih hrecord fun t ht => hseen t (List.mem_cons_of_mem _ ht)

/-- A range clears the flag for good. -/
theorem allLiterals_of_record (h : (s.record u).allLiterals = true) : s.allLiterals = true := by
  cases u <;> simp_all [record]

theorem allLiterals_of_scan (h : (s.scan seen).allLiterals = true) : s.allLiterals = true := by
  induction seen generalizing s with
  | nil => exact h
  | cons u us ih =>
    cases u with
    | unspecified => exact allLiterals_of_record h
    | _ => exact allLiterals_of_record (ih h)

theorem not_range_of_allLiterals {b e : ℤ} (h : (s.scan seen).allLiterals = true)
    (hu : (s.scan seen).hasUnspecified = false) : range b e ∉ seen := by
  induction seen generalizing s with
  | nil => simp
  | cons u us ih =>
    cases u with
    | unspecified => simp [scan, record] at hu
    | range b' e' =>
      change ((s.record (range b' e')).scan us).allLiterals = true at h
      have hcleared := allLiterals_of_scan h
      simp [record] at hcleared
    | _ => simpa using ih h hu

/-- Only lists of literals are returned as they are. -/
theorem isLiteral_of_flags (hall : (s.scan types).allLiterals = true)
    (hu : (s.scan types).hasUnspecified = false)
    (hlit : (s.scan types).hasUnspecifiedLiteral = false)
    (hfrom : (s.scan types).hasFrom = false) (hto : (s.scan types).hasTo = false)
    (ht : t ∈ types) : t.isLiteral = true := by
  have hsaw := saw_of_mem ht hu
  cases t with
  | literal v => rfl
  | range b e => exact absurd ht (not_range_of_allLiterals hall hu)
  | _ => simp_all [Saw]

/-- The ends of an interval are 64-bit integers, in order. -/
def Proper (p : ℤ × ℤ) : Prop := InI64 p.1 ∧ p.1 ≤ p.2 ∧ InI64 p.2

theorem Justified.bounds (h : s.Justified types) (hwf : ∀ t ∈ types, t.WellFormed) :
    InI64 s.minFrom ∧ InI64 s.maxTo := by
  constructor
  · cases hs : s.hasFrom with
    | true => exact hwf _ (h.from_mem hs)
    | false =>
      rw [h.from_init hs]
      decide
  · cases hs : s.hasTo with
    | true => exact hwf _ (h.to_mem hs)
    | false =>
      rw [h.to_init hs]
      decide

/-- A cut interval is a proper part of its type. -/
theorem interval_spec (h : s.Justified types) (hwf : ∀ t ∈ types, t.WellFormed)
    (ht : t ∈ types) (hp : s.interval t = some p) :
    Proper p ∧ ∀ n, p.1 ≤ n → n ≤ p.2 → t.Has n := by
  have htwf := hwf t ht
  obtain ⟨⟨hf₁, hf₂⟩, ht₁, ht₂⟩ := h.bounds hwf
  cases t with
  | literal v =>
    simp only [interval] at hp
    split_ifs at hp
    cases hp
    exact ⟨⟨htwf, le_rfl, htwf⟩, fun n h₁ h₂ => le_antisymm h₂ h₁⟩
  | range b e =>
    obtain ⟨⟨hb₁, hb₂⟩, hbe, he₁, he₂⟩ := htwf
    simp only [interval] at hp
    split_ifs at hp with h₁ h₂ h₃
    cases hp
    have hstart : b ≤ s.start b ∧ s.start b ≤ i64Max := by
      unfold start saturatingAdd
      split <;> grind
    have hstop : s.stop e ≤ e ∧ i64Min ≤ s.stop e := by
      unfold stop saturatingSub
      split <;> grind
    refine ⟨⟨⟨?_, hstart.2⟩, h₃, hstop.2, ?_⟩, ?_⟩
    · exact hb₁.trans hstart.1
    · exact hstop.1.trans he₂
    · intro n hl hr
      exact ⟨hstart.1.trans hl, hr.trans hstop.1⟩
  | _ => simp [interval] at hp

theorem proper_of_mem_intervals (h : s.Justified types) (hwf : ∀ t ∈ types, t.WellFormed)
    (hp : p ∈ s.intervals types) : Proper p := by
  obtain ⟨hfrom, hto⟩ := h.bounds hwf
  simp only [intervals, List.mem_append, List.mem_filterMap] at hp
  rcases hp with (hp | hp) | hp
  · split at hp <;> simp at hp
    subst hp
    exact ⟨inI64_min, hto.1, hto⟩
  · split at hp <;> simp at hp
    subst hp
    exact ⟨hfrom, hfrom.2, inI64_max⟩
  · obtain ⟨t, ht, hp⟩ := hp
    exact (interval_spec h hwf ht hp).1

/-- An integer of an interval is one of a type. -/
theorem Justified.has_of_covered (h : s.Justified types) (hwf : ∀ t ∈ types, t.WellFormed)
    (hn : Covered (s.intervals types) n) : ∃ t ∈ types, t.Has n := by
  obtain ⟨p, hp, hl, hr⟩ := hn
  simp only [intervals, List.mem_append, List.mem_filterMap] at hp
  rcases hp with (hp | hp) | hp
  · split at hp <;> simp at hp
    rename_i hs
    subst hp
    exact ⟨_, h.to_mem hs, hr⟩
  · split at hp <;> simp at hp
    rename_i hs
    subst hp
    exact ⟨_, h.from_mem hs, hl⟩
  · obtain ⟨t, ht, hp⟩ := hp
    exact ⟨t, ht, (interval_spec h hwf ht hp).2 n hl hr⟩

end CombineScan

theorem has_internalToAtomic_iff {n : ℤ} (hn : InI64 n) :
    (internalToAtomic p).Has n ↔ p.1 ≤ n ∧ n ≤ p.2 := by
  obtain ⟨hmin, hmax⟩ := hn
  unfold internalToAtomic
  split_ifs <;> simp <;> omega

theorem wellFormed_internalToAtomic (hp : CombineScan.Proper p) :
    (internalToAtomic p).WellFormed := by
  obtain ⟨hl, hle, hr⟩ := hp
  unfold internalToAtomic
  split_ifs <;> simp [hl, hle, hr]

theorem le_of_touches (hn : InI64 n) {stop start : ℤ} (h : touches stop start = true)
    (hlt : stop < n) : start ≤ n := by
  obtain ⟨hmin, hmax⟩ := hn
  simp only [touches, decide_eq_true_eq] at h
  simp only [saturatingAdd] at h
  omega

theorem touches_mono {stop start start' : ℤ} (hle : start ≤ start')
    (h : touches stop start' = true) : touches stop start = true := by
  simp only [touches, decide_eq_true_eq] at h ⊢
  omega

theorem pairwise_touches {current : ℤ × ℤ} {rest : List (ℤ × ℤ)}
    (hsorted : (current :: rest).Pairwise fun p q => p.1 ≤ q.1) :
    (coalesce touches current rest).Pairwise fun p q => touches p.2 q.1 = false := by
  apply pairwise_coalesce
  · intro stop start start' hle h
    exact touches_mono hle h
  · exact hsorted

theorem apart_of_not_touches {q : ℤ × ℤ} (h : touches p.2 q.1 = false) :
    Apart (internalToAtomic p) (internalToAtomic q) := by
  intro n m hn hm hp hq
  rw [has_internalToAtomic_iff hn] at hp
  rw [has_internalToAtomic_iff hm] at hq
  obtain ⟨hmin, hmax⟩ := hm
  simp only [touches, decide_eq_false_iff_not] at h
  simp only [saturatingAdd] at h
  omega

theorem sorted_intervals {s : CombineScan} (types : List TInteger) :
    let sorted := (s.intervals types).mergeSort fun p q => decide (p.1 ≤ q.1)
    sorted.Perm (s.intervals types) ∧ sorted.Pairwise fun p q => p.1 ≤ q.1 := by
  refine ⟨List.mergeSort_perm _ _, ?_⟩
  have htrans : ∀ a b c : ℤ × ℤ, decide (a.1 ≤ b.1) = true → decide (b.1 ≤ c.1) = true →
      decide (a.1 ≤ c.1) = true := by
    intro a b c hab hbc
    simp only [decide_eq_true_eq] at *
    omega
  have htotal : ∀ a b : ℤ × ℤ, (decide (a.1 ≤ b.1) || decide (b.1 ≤ a.1)) = true := by
    intro a b
    simp only [Bool.or_eq_true, decide_eq_true_eq]
    omega
  exact (List.pairwise_mergeSort htrans htotal _).imp fun h => by simpa using h

/-- Without literals of unknown value the combination covers what its types cover, and
unless all types are literals it comes in pieces that are well formed, in increasing order and
not adjacent. -/
theorem combine_exact (hwf : ∀ t ∈ types, t.WellFormed)
    (hlit : unspecifiedLiteral ∉ types) :
    (∀ n, InI64 n → ((∃ i ∈ combine types, i.Has n) ↔ ∃ t ∈ types, t.Has n)) ∧
      (¬ (∀ t ∈ types, t.isLiteral = true) →
        (∀ i ∈ combine types, i.WellFormed) ∧ (combine types).Pairwise Apart) := by
  have hback : ∀ n, InI64 n → (∃ t ∈ types, t.Has n) → ∃ i ∈ combine types, i.Has n := by
    intro n hn h
    obtain ⟨t, ht, htn⟩ := h
    exact has_combine (n := ⟨n, hn⟩) ht htn
  suffices h : (∀ n, InI64 n → (∃ i ∈ combine types, i.Has n) → ∃ t ∈ types, t.Has n) ∧
      (¬ (∀ t ∈ types, t.isLiteral = true) →
        (∀ i ∈ combine types, i.WellFormed) ∧ (combine types).Pairwise Apart) from
    ⟨fun n hn => ⟨h.1 n hn, hback n hn⟩, h.2⟩
  have hj : (CombineScan.new.scan types).Justified types :=
    CombineScan.justified_new.scan (fun _ h => h) hwf
  have hnolit : (CombineScan.new.scan types).hasUnspecifiedLiteral = false := by
    rw [Bool.eq_false_iff]
    exact fun h => hlit (hj.lit h)
  rw [combine]
  split
  · rename_i hempty
    rw [List.isEmpty_iff] at hempty
    subst hempty
    simp
  dsimp only
  split
  · rename_i hu
    refine ⟨fun n _ _ => ⟨_, hj.unspecified hu, trivial⟩, fun _ => ?_⟩
    simp
  rename_i hu
  rw [Bool.not_eq_true] at hu
  split
  · rename_i hall
    simp only [Bool.and_eq_true, Bool.not_eq_true'] at hall
    obtain ⟨⟨⟨hall, _⟩, hfrom⟩, hto⟩ := hall
    refine ⟨fun n _ h => h, fun h => absurd (fun t ht => ?_) h⟩
    exact CombineScan.isLiteral_of_flags hall hu hnolit hfrom hto ht
  split
  · rename_i hmeet
    simp only [Bool.and_eq_true, decide_eq_true_eq] at hmeet
    obtain ⟨⟨hfrom, hto⟩, hle⟩ := hmeet
    refine ⟨fun n hn _ => ?_, fun _ => by simp⟩
    by_cases h : n ≤ (CombineScan.new.scan types).maxTo
    · exact ⟨_, hj.to_mem hto, h⟩
    · exact ⟨_, hj.from_mem hfrom, le_of_touches hn (decide_eq_true hle) (not_le.mp h)⟩
  obtain ⟨hperm, hsorted⟩ := sorted_intervals (s := CombineScan.new.scan types) types
  split
  · simp [hnolit]
  rename_i current rest hcons
  rw [hcons] at hperm hsorted
  have hproper : ∀ p ∈ coalesce touches current rest, CombineScan.Proper p := by
    apply forall_mem_coalesce
    · intro p hp
      exact CombineScan.proper_of_mem_intervals hj hwf (hperm.mem_iff.mp hp)
    · intro p q hp hq
      obtain ⟨hl, hle, hr⟩ := hp
      split
      · exact ⟨hl, hle.trans (le_of_lt ‹_›), hq.2.2⟩
      · exact ⟨hl, hle, hr⟩
  simp only [hnolit, Bool.false_eq_true, if_false, List.nil_append]
  refine ⟨fun n hn h => ?_, fun _ => ⟨?_, ?_⟩⟩
  · obtain ⟨i, hi, hin⟩ := h
    obtain ⟨p, hp, rfl⟩ := List.mem_map.mp hi
    rw [has_internalToAtomic_iff hn] at hin
    have hcov : Covered (coalesce touches current rest) n := ⟨p, hp, hin⟩
    have hcov := covered_of_covered_coalesce (fun _ _ => le_of_touches hn) hcov
    exact hj.has_of_covered hwf (covered_of_perm hperm hcov)
  · intro i hi
    obtain ⟨p, hp, rfl⟩ := List.mem_map.mp hi
    exact wellFormed_internalToAtomic (hproper p hp)
  · rw [List.pairwise_map]
    exact (pairwise_touches hsorted).imp fun h => apart_of_not_touches h

/-- Two half-lines, a range between them and literals. -/
theorem combine_exact_five :
    let types := [toValue 0, literal 1, range 5 7, literal 6, fromValue 9]
    (∀ n, InI64 n → ((∃ i ∈ combine types, i.Has n) ↔ ∃ t ∈ types, t.Has n)) ∧
      (¬ (∀ t ∈ types, t.isLiteral = true) →
        (∀ i ∈ combine types, i.WellFormed) ∧ (combine types).Pairwise Apart) :=
  combine_exact (by decide) (by decide)

end Combine

end TInteger

end Mago.Types
