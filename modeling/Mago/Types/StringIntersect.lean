import Mago.Types.Scalar
import Mathlib

/-!
# The intersection of two string types

The intersection of string types with guaranteed properties. A literal is kept when its flags
promise what the other type guarantees, and two casings exclude each other: both lose strings
that belong to the two types.
-/
namespace Mago.Types

open Mago.Algebra (Word word)

namespace TString

/-! ## Constructors -/

def lowercase : TString := new none false false false false .lowercase

def uppercase : TString := new none false false false false .uppercase

def callableWithCasing (casing : TStringCasing) : TString := new none false true true true casing

def callable : TString := callableWithCasing .unspecified

/-! ## Intersection -/

/-- The flags and the casing of a type promise what the other one guarantees. -/
def satisfiesGuaranteesOf (t other : TString) : Bool :=
  (!other.isNumeric || t.isNumeric) && (!other.isTruthy || t.isTruthy) &&
    (!other.isNonEmpty || t.isNonEmpty) && (!other.isCallable || t.isCallable) &&
    match other.casing with
    | .unspecified => true
    | .lowercase => t.isLowercase
    | .uppercase => t.isUppercase

/-- The casing of both; none where they differ. -/
def intersectCasing : TStringCasing → TStringCasing → Option TStringCasing
  | .unspecified, casing => some casing
  | casing, .unspecified => some casing
  | left, right => if left = right then some left else none

def intersect (t other : TString) : Option TString :=
  match t.getKnownLiteralAtom, other.getKnownLiteralAtom with
  | some left, some right => if left = right then some t else none
  | some _, none => if t.satisfiesGuaranteesOf other then some t else none
  | none, some _ => if other.satisfiesGuaranteesOf t then some other else none
  | none, none =>
    match intersectCasing t.casing other.casing with
    | none => none
    | some casing =>
      some (new (if t.isLiteralOrigin || other.isLiteralOrigin then some .unspecified else none)
        (t.isNumeric || other.isNumeric) (t.isTruthy || other.isTruthy)
        (t.isNonEmpty || other.isNonEmpty) (t.isCallable || other.isCallable) casing)

/-- Where some string belongs to both types, there is an intersection and it has every string
that belongs to both. -/
def IntersectsRight (callable : Word → Bool) (t other : TString) : Prop :=
  (∃ s, t.Has callable s ∧ other.Has callable s) →
    ∃ r, t.intersect other = some r ∧
      ∀ s, t.Has callable s → other.Has callable s → r.Has callable s

/-- One of the casings is lower case and the other one upper case. -/
def OppositeCasing (t other : TString) : Prop :=
  (t.casing = .lowercase ∧ other.casing = .uppercase) ∨
    (t.casing = .uppercase ∧ other.casing = .lowercase)

instance (t other : TString) : Decidable (t.OppositeCasing other) :=
  inferInstanceAs (Decidable (_ ∨ _))

/-- Each flag of the other type is also set here, and the casings do not exclude each other. -/
structure Carries (t other : TString) : Prop where
  numeric : other.isNumeric = true → t.isNumeric = true
  truthy : other.isTruthy = true → t.isTruthy = true
  nonEmpty : other.isNonEmpty = true → t.isNonEmpty = true
  callable : other.isCallable = true → t.isCallable = true
  casing : ¬ t.OppositeCasing other

def Letterless (s : Word) : Prop := ∀ b ∈ s, isAsciiLowercase b = false ∧ isAsciiUppercase b = false

/-- A literal that belongs to both types carries the flags of the other one. Of types of
opposite casings one asks for callable strings, and no callable string is without letters and,
where one of the types asks for it, numeric. -/
def Compatible (callable : Word → Bool) (t other : TString) : Prop :=
  match t.getKnownLiteralAtom, other.getKnownLiteralAtom with
  | some _, some _ => True
  | some v, none => t.Has callable v → other.Has callable v → t.Carries other
  | none, some v => t.Has callable v → other.Has callable v → other.Carries t
  | none, none => t.OppositeCasing other →
    (t.isCallable || other.isCallable) = true ∧ ∀ s, callable s = true → Letterless s →
      (t.isNumeric || other.isNumeric) = true ∧ strIsNumeric s = false

variable {callable : Word → Bool} {t other : TString} {s v : Word}

theorem isLowercase_iff (hv : t.getKnownLiteralAtom = some v)
    (hcasing : ∀ b ∈ v, isAsciiUppercase b = false) :
    t.isLowercase = true ↔ t.casing ≠ .uppercase := by
  unfold isLowercase
  cases hc : t.casing with
  | lowercase => simp
  | uppercase => simp
  | unspecified =>
    unfold getKnownLiteralAtom at hv
    cases hl : t.literal with
    | none => simp [hl] at hv
    | some l => cases l <;> simp_all

theorem isUppercase_iff (hv : t.getKnownLiteralAtom = some v)
    (hcasing : ∀ b ∈ v, isAsciiLowercase b = false) :
    t.isUppercase = true ↔ t.casing ≠ .lowercase := by
  unfold isUppercase
  cases hc : t.casing with
  | lowercase => simp
  | uppercase => simp
  | unspecified =>
    unfold getKnownLiteralAtom at hv
    cases hl : t.literal with
    | none => simp [hl] at hv
    | some l => cases l <;> simp_all

/-- For a literal with a casing that the other type allows, the test is about the flags. -/
theorem satisfiesGuaranteesOf_iff (hv : t.getKnownLiteralAtom = some v)
    (hcasing : other.casing.Allows v) :
    t.satisfiesGuaranteesOf other = true ↔ t.Carries other := by
  have hflags : t.satisfiesGuaranteesOf other = true ↔
      ((other.isNumeric = true → t.isNumeric = true) ∧
        (other.isTruthy = true → t.isTruthy = true) ∧
        (other.isNonEmpty = true → t.isNonEmpty = true) ∧
        (other.isCallable = true → t.isCallable = true)) ∧ ¬ t.OppositeCasing other := by
    unfold satisfiesGuaranteesOf OppositeCasing
    rw [Bool.and_eq_true]
    refine and_congr ?_ ?_
    · cases other.isNumeric <;> cases other.isTruthy <;> cases other.isNonEmpty <;>
        cases other.isCallable <;> simp [and_assoc]
    · cases hc : other.casing with
      | unspecified => simp
      | lowercase =>
        rw [hc] at hcasing
        simpa using isLowercase_iff hv hcasing
      | uppercase =>
        rw [hc] at hcasing
        simpa using isUppercase_iff hv hcasing
  rw [hflags]
  constructor
  · intro h
    obtain ⟨⟨hn, ht, he, hca⟩, hc⟩ := h
    exact ⟨hn, ht, he, hca, hc⟩
  · intro h
    exact ⟨⟨h.numeric, h.truthy, h.nonEmpty, h.callable⟩, h.casing⟩

theorem intersectCasing_eq_none :
    intersectCasing t.casing other.casing = none ↔ t.OppositeCasing other := by
  unfold OppositeCasing
  cases t.casing <;> cases other.casing <;> simp [intersectCasing]

theorem allows_intersectCasing {left right casing : TStringCasing}
    (h : intersectCasing left right = some casing) (hl : left.Allows s) (hr : right.Allows s) :
    casing.Allows s := by
  cases left <;> cases right <;> simp only [intersectCasing, Option.some.injEq, if_true] at h
  all_goals first | (subst h; assumption) | (simp at h)

/-- Strings of opposite casings have no letters. -/
theorem letterless_of_has (hopp : t.OppositeCasing other) (ht : t.Has callable s)
    (ho : other.Has callable s) : Letterless s := by
  have ht' := ht.casing
  have ho' := ho.casing
  rcases hopp with ⟨h, h'⟩ | ⟨h, h'⟩
  · rw [h] at ht'
    rw [h'] at ho'
    exact fun b hb => ⟨ho' b hb, ht' b hb⟩
  · rw [h] at ht'
    rw [h'] at ho'
    exact fun b hb => ⟨ht' b hb, ho' b hb⟩

theorem Letterless.allows (h : Letterless s) (casing : TStringCasing) : casing.Allows s := by
  cases casing with
  | unspecified => trivial
  | lowercase => exact fun b hb => (h b hb).2
  | uppercase => exact fun b hb => (h b hb).1

/-- A string without letters belongs to a type without a literal by the flags alone. -/
theorem has_of_letterless (ht : t.getKnownLiteralAtom = none) (hs : Letterless s) (hne : s ≠ [])
    (hzero : s ≠ word "0") (hnumeric : t.isNumeric = true → strIsNumeric s = true)
    (hcall : t.isCallable = true → callable s = true) : t.Has callable s :=
  ⟨by simp [ht], hnumeric, fun _ => ⟨hne, hzero⟩, fun _ => hne, hcall, hs.allows _⟩

/-- Types of opposite casings have a string in common unless one of them asks for callable
strings and none of these is without letters and as numeric as the types ask for. -/
theorem exists_common_iff (hcallable : ∀ s, callable s = true → s ≠ [] ∧ s ≠ word "0")
    (ht : t.getKnownLiteralAtom = none) (ho : other.getKnownLiteralAtom = none)
    (hopp : t.OppositeCasing other) : (∃ s, t.Has callable s ∧ other.Has callable s) ↔
      ¬ ((t.isCallable || other.isCallable) = true ∧ ∀ s, callable s = true → Letterless s →
        (t.isNumeric || other.isNumeric) = true ∧ strIsNumeric s = false) := by
  constructor
  · rintro ⟨s, hs, hs'⟩ ⟨hcall, hnone⟩
    have hcalls : callable s = true :=
      (Bool.or_eq_true _ _ |>.mp hcall).elim hs.callable hs'.callable
    obtain ⟨hnumeric, hnot⟩ := hnone s hcalls (letterless_of_has hopp hs hs')
    have : strIsNumeric s = true :=
      (Bool.or_eq_true _ _ |>.mp hnumeric).elim hs.numeric hs'.numeric
    rw [hnot] at this
    cases this
  · intro h
    by_cases hcall : (t.isCallable || other.isCallable) = true
    · obtain ⟨s, hcalls, hs, hnumeric⟩ : ∃ s, callable s = true ∧ Letterless s ∧
          ((t.isNumeric || other.isNumeric) = true → strIsNumeric s = true) := by
        by_contra hc
        refine h ⟨hcall, fun s hcalls hs => ?_⟩
        by_contra hnot
        refine hc ⟨s, hcalls, hs, fun hnumeric => ?_⟩
        by_contra hnumeric'
        exact hnot ⟨hnumeric, by simpa using hnumeric'⟩
      obtain ⟨hne, hzero⟩ := hcallable s hcalls
      exact ⟨s, has_of_letterless ht hs hne hzero (fun hn => hnumeric (by simp [hn]))
        fun _ => hcalls, has_of_letterless ho hs hne hzero (fun hn => hnumeric (by simp [hn]))
        fun _ => hcalls⟩
    · -- the digit one
      simp only [Bool.or_eq_true, not_or] at hcall
      have hs : Letterless [49] := by simp [Letterless, isAsciiLowercase, isAsciiUppercase]
      exact ⟨[49], has_of_letterless ht hs (by simp) (by decide) (fun _ => by decide)
        (fun hc => absurd hc hcall.1), has_of_letterless ho hs (by simp) (by decide)
        (fun _ => by decide) fun hc => absurd hc hcall.2⟩

/-- Without a literal the flags of both types are joined. -/
theorem has_joined (hcallable : ∀ s, callable s = true → s ≠ [] ∧ s ≠ word "0")
    {literal : Option TStringLiteral} {casing : TStringCasing}
    (hliteral : literal = some .unspecified ∨ literal = none)
    (hcasing : intersectCasing t.casing other.casing = some casing) (ht : t.Has callable s)
    (ho : other.Has callable s) :
    (new literal (t.isNumeric || other.isNumeric) (t.isTruthy || other.isTruthy)
      (t.isNonEmpty || other.isNonEmpty) (t.isCallable || other.isCallable) casing).Has
        callable s := by
  have hjoin : ∀ {p q : Bool} {P : Prop}, (p = true → P) → (q = true → P) →
      (p || q) = true → P := by
    intro p q P hp hq hpq
    rcases Bool.or_eq_true _ _ |>.mp hpq with h | h
    · exact hp h
    · exact hq h
  have hnumeric := hjoin ht.numeric ho.numeric
  have htruthy := hjoin ht.truthy ho.truthy
  have hnonEmpty := hjoin ht.nonEmpty ho.nonEmpty
  have hcall := hjoin ht.callable ho.callable
  refine ⟨?_, hnumeric, htruthy, ?_, hcall, allows_intersectCasing hcasing ht.casing ho.casing⟩
  · rcases hliteral with h | h <;> simp [new, getKnownLiteralAtom, h]
  · apply hjoin (hjoin (hjoin hnonEmpty _) _) _
    · exact fun h => ne_nil_of_strIsNumeric (hnumeric h)
    · exact fun h => (htruthy h).1
    · exact fun h => (hcallable s (hcall h)).1

/-- A literal is kept exactly where it carries the flags of the other type. -/
theorem keepsLiteral_iff (hv : t.getKnownLiteralAtom = some v) :
    ((∃ s, t.Has callable s ∧ other.Has callable s) →
      ∃ r, (if t.satisfiesGuaranteesOf other then some t else none) = some r ∧
        ∀ s, t.Has callable s → other.Has callable s → r.Has callable s) ↔
    (t.Has callable v → other.Has callable v → t.Carries other) := by
  constructor
  · intro h htv hov
    obtain ⟨r, hr, -⟩ := h ⟨v, htv, hov⟩
    split_ifs at hr with hsat
    exact (satisfiesGuaranteesOf_iff hv hov.casing).mp hsat
  · intro h hboth
    obtain ⟨s, hs, hs'⟩ := hboth
    obtain rfl := hs.eq_of_known hv
    exact ⟨t, if_pos ((satisfiesGuaranteesOf_iff hv hs'.casing).mpr (h hs hs')),
      fun s hs _ => hs⟩

/-- A string of both types is found exactly where a literal carries the flags it is asked for
and the casings exclude each other only where no callable string without letters is asked
for. -/
theorem intersect_exact_iff (callable : Word → Bool)
    (hcallable : ∀ s, callable s = true → s ≠ [] ∧ s ≠ word "0") (t other : TString) :
    IntersectsRight callable t other ↔ Compatible callable t other := by
  unfold IntersectsRight Compatible intersect
  cases ht : t.getKnownLiteralAtom with
  | some v =>
    cases ho : other.getKnownLiteralAtom with
    | some w =>
      refine iff_of_true (fun hboth => ?_) trivial
      obtain ⟨s, hs, hs'⟩ := hboth
      have heq : v = w := by rw [← hs.eq_of_known ht, hs'.eq_of_known ho]
      exact ⟨t, if_pos heq, fun s hs _ => hs⟩
    | none => exact keepsLiteral_iff ht
  | none =>
    cases ho : other.getKnownLiteralAtom with
    | some w =>
      -- the literal is the other type
      simpa only [and_comm (a := t.Has callable _), imp.swap (a := t.Has callable _)] using
        @keepsLiteral_iff callable other t w ho
    | none =>
      dsimp only
      cases hcasing : intersectCasing t.casing other.casing with
      | none =>
        have hopp := intersectCasing_eq_none.mp hcasing
        have hcommon := exists_common_iff hcallable ht ho hopp
        constructor
        · intro h _
          by_contra hnot
          obtain ⟨r, hr, _⟩ := h (hcommon.mpr hnot)
          cases hr
        · intro h hboth
          exact absurd (h hopp) (hcommon.mp hboth)
      | some casing =>
        have hsame : ¬ t.OppositeCasing other := by
          rw [← intersectCasing_eq_none, hcasing]
          exact Option.some_ne_none casing
        refine iff_of_true (fun _ => ?_) fun hopp => absurd hopp hsame
        refine ⟨_, rfl, fun s hs hs' => has_joined hcallable ?_ hcasing hs hs'⟩
        split_ifs
        · exact Or.inl rfl
        · exact Or.inr rfl

/-- A lower case string type and a literal, in a world with one callable string. -/
theorem intersect_exact_iff_literal :
    IntersectsRight (fun s => s == word "strlen") lowercase (knownLiteral (word "abc")) :=
  (intersect_exact_iff (fun s => s == word "strlen")
    (by simp only [beq_iff_eq]; rintro s rfl; decide) lowercase (knownLiteral (word "abc"))).mpr
    fun _ _ => ⟨by decide, by decide, by decide, by decide, by decide⟩

/-- The literal `strlen` names a function and is no callable string to the intersection; digits
are in both cases, and the casings exclude each other. -/
theorem intersect_misses_common_strings :
    ¬ IntersectsRight (fun s => s == word "strlen") (knownLiteral (word "strlen")) TString.callable ∧
      ¬ IntersectsRight (fun s => s == word "strlen") lowercase uppercase := by
  constructor
  · intro h
    have hnone : (knownLiteral (word "strlen")).intersect TString.callable = none := by decide
    have hcallable : TString.callable.Has (fun s => s == word "strlen") (word "strlen") :=
      ⟨by simp [TString.callable, callableWithCasing, new, getKnownLiteralAtom],
        by simp [TString.callable, callableWithCasing, new], fun _ => by decide,
        fun _ => by decide, fun _ => by simp, trivial⟩
    obtain ⟨r, hr, _⟩ := h ⟨word "strlen", has_knownLiteral, hcallable⟩
    rw [hnone] at hr
    cases hr
  · intro h
    have hnone : lowercase.intersect uppercase = none := by decide
    have hlower : lowercase.Has (fun s => s == word "strlen") [49] :=
      ⟨by simp [lowercase, new, getKnownLiteralAtom], by simp [lowercase, new],
        by simp [lowercase, new], by simp [lowercase, new], by simp [lowercase, new],
        by simp [lowercase, new, TStringCasing.Allows, isAsciiUppercase]⟩
    have hupper : uppercase.Has (fun s => s == word "strlen") [49] :=
      ⟨by simp [uppercase, new, getKnownLiteralAtom], by simp [uppercase, new],
        by simp [uppercase, new], by simp [uppercase, new], by simp [uppercase, new],
        by simp [uppercase, new, TStringCasing.Allows, isAsciiLowercase]⟩
    obtain ⟨r, hr, _⟩ := h ⟨[49], hlower, hupper⟩
    rw [hnone] at hr
    cases hr

end TString

end Mago.Types
