import Mago.Types.Reduction
import Mathlib

/-!
# When containment in several types is decided right

What is taken away is covered, so containment is never claimed wrongly. Half-lines are only
taken away as a whole: containment is missed where half-lines of both kinds are needed, where
an open end meets no half-line of its kind, and where an end is one of the bounds of the 64-bit
integers and is covered by no more than a container that saturates there.
-/
namespace Mago.Types

open Mago.Library

namespace TInteger

variable {x c : TInteger} {cs : List TInteger} {n : ℤ}

def isFromValue : TInteger → Bool
  | fromValue _ => true
  | _ => false

def isToValue : TInteger → Bool
  | toValue _ => true
  | _ => false

/-- A literal, a half-line or a range, with its bounds. -/
def Plain (c : TInteger) : Prop :=
  c.WellFormed ∧ c.isUnspecified = false ∧ c.isUnspecifiedLiteral = false

instance (c : TInteger) : Decidable c.Plain := inferInstanceAs (Decidable (_ ∧ _))

/-- Every 64-bit integer of the type belongs to one of the containers. -/
def CoveredBy (x : TInteger) (cs : List TInteger) : Prop :=
  ∀ n, InI64 n → x.Has n → ∃ c ∈ cs, c.Has n

/-- The half-lines of one kind are enough: upward ones or downward ones, and an open end has
one of its kind. -/
def OneSided (x : TInteger) (cs : List TInteger) : Prop :=
  match x with
  | fromValue _ => (∃ c ∈ cs, c.isFromValue = true) ∧ x.CoveredBy (cs.filter fun c => !c.isToValue)
  | toValue _ => (∃ c ∈ cs, c.isToValue = true) ∧ x.CoveredBy (cs.filter fun c => !c.isFromValue)
  | _ => x.CoveredBy (cs.filter fun c => !c.isToValue) ∨
      x.CoveredBy (cs.filter fun c => !c.isFromValue)

/-- A lower end moved up by a literal or a range. -/
def raised (minB : Option ℤ) : TInteger → Option ℤ
  | literal v => if some v = minB then some (saturatingAdd v 1) else minB
  | range f t => if minB.any fun m => f ≤ m && m ≤ t then some (saturatingAdd t 1) else minB
  | _ => minB

/-- The first literal of the largest integer comes before every downward half-line that ends
there, and the lower end, moved up by what comes before it, has not reached the largest integer. -/
def literalLowers (minB : Option ℤ) : List TInteger → Bool
  | [] => false
  | c :: cs =>
    if c = literal i64Max then minB != some i64Max
    else if c = toValue i64Max then false
    else literalLowers (raised minB c) cs

/-- What the containers must be like for the ends of the input to be taken away. -/
structure Reducible (x : TInteger) (cs : List TInteger) : Prop where
  oneSided : x.OneSided cs
  lowest : x.getMinimumValue = some i64Min → ∃ c ∈ cs, c.isFromValue = false ∧ c.Has i64Min
  largest : x.getMaximumValue = some i64Max → (∃ c ∈ cs, c.isFromValue = true) ∨
    (∃ f, range f i64Max ∈ cs) ∨ literalLowers x.getMinimumValue cs = true

end TInteger

namespace Bounds

variable {b b₀ : Bounds} {x c : TInteger} {cs : List TInteger} {n : ℤ}

open TInteger

/-! ## Containment that is found -/

/-- What is outside the ends is covered by the containers. -/
def Outside (x : TInteger) (cs : List TInteger) (b : Bounds) : Prop :=
  ∀ n, InI64 n → x.Has n → ¬ b.Within n → ∃ c ∈ cs, c.Has n

theorem outside_reduce (h : Outside x cs b) (hc : c ∈ cs) : Outside x cs (b.reduce c).1 := by
  intro n hn hx hout
  by_cases hb : b.Within n
  · refine ⟨c, hc, ?_⟩
    by_contra hno
    exact hout (within_reduce hn hno hb)
  · exact h n hn hx hb

theorem coveredBy_of_outside (h : Outside x cs b) (hempty : b.isEmpty = true) :
    x.CoveredBy cs :=
  fun n hn hx => h n hn hx (not_within_of_isEmpty hempty)

/-- Where an upward half-line moves the upper end, it has everything that is left. -/
theorem coveredBy_of_fromValue {f : ℤ} (h : Outside x cs b) (hf : fromValue f ∈ cs)
    (hkeep : (b.reduce (fromValue f)).2 = false) : x.CoveredBy cs := by
  intro n hn hx
  by_cases hb : b.Within n
  · refine ⟨_, hf, ?_⟩
    simp only [reduce] at hkeep
    split_ifs at hkeep with hin
    rw [Option.any_eq_true] at hin
    obtain ⟨m, hm, hin⟩ := hin
    rw [decide_eq_true_eq] at hin
    exact hin.trans (hb.1 m hm)
  · exact h n hn hx hb

theorem coveredBy_of_toValue {t : ℤ} (h : Outside x cs b) (ht : toValue t ∈ cs)
    (hkeep : (b.reduce (toValue t)).2 = false) : x.CoveredBy cs := by
  intro n hn hx
  by_cases hb : b.Within n
  · refine ⟨_, ht, ?_⟩
    simp only [reduce] at hkeep
    split_ifs at hkeep with hin
    rw [Option.any_eq_true] at hin
    obtain ⟨M, hM, hin⟩ := hin
    rw [decide_eq_true_eq] at hin
    exact (hb.2 M hM).trans hin
  · exact h n hn hx hb

theorem reduce_of_kept (h : (b.reduce c).2 = true) : (b.reduce c).1 = b := by
  cases c with
  | range f t =>
    rw [reduce_range_snd] at h
    rw [reduce_range_fst]
    simp only [Bool.not_eq_true', Bool.or_eq_false_iff] at h
    simp [h]
  | literal v =>
    simp only [reduce] at h ⊢
    split_ifs at h ⊢
    rfl
  | fromValue f =>
    simp only [reduce] at h ⊢
    split_ifs at h ⊢
    rfl
  | toValue t =>
    simp only [reduce] at h ⊢
    split_ifs at h ⊢
    rfl
  | _ => rfl

@[simp] theorem mem_notToValue :
    c ∈ cs.filter (fun c => !c.isToValue) ↔ c ∈ cs ∧ c.isToValue = false := by
  simp

@[simp] theorem mem_notFromValue :
    c ∈ cs.filter (fun c => !c.isFromValue) ↔ c ∈ cs ∧ c.isFromValue = false := by
  simp

/-- What a step keeps when both ends are closed: the containers without the downward half-lines
and those without the upward ones both cover what is outside, or one of them covers it all. -/
def Settled (x : TInteger) (cs : List TInteger) (b : Bounds) : Prop :=
  (Outside x (cs.filter fun c => !c.isToValue) b ∧
      Outside x (cs.filter fun c => !c.isFromValue) b) ∨
    x.CoveredBy (cs.filter fun c => !c.isToValue) ∨ x.CoveredBy (cs.filter fun c => !c.isFromValue)

theorem settled_reduce (h : Settled x cs b) (hc : c ∈ cs) : Settled x cs (b.reduce c).1 := by
  rcases h with ⟨hup, hdown⟩ | h
  · cases hkeep : (b.reduce c).2 with
    | true =>
      rw [reduce_of_kept hkeep]
      exact Or.inl ⟨hup, hdown⟩
    | false =>
      cases c with
      | fromValue f =>
        exact Or.inr (Or.inl (coveredBy_of_fromValue hup (by simp [hc, isToValue]) hkeep))
      | toValue t =>
        exact Or.inr (Or.inr (coveredBy_of_toValue hdown (by simp [hc, isFromValue]) hkeep))
      | _ =>
        refine Or.inl ⟨outside_reduce hup ?_, outside_reduce hdown ?_⟩
        · simp [hc, isToValue]
        · simp [hc, isFromValue]
  · exact Or.inr h

/-- What a step keeps when the upper end is open. -/
def SettledUp (x : TInteger) (cs : List TInteger) (b : Bounds) : Prop :=
  (b.maxBound = none ∧ Outside x (cs.filter fun c => !c.isToValue) b) ∨
    (∃ c ∈ cs, c.isFromValue = true) ∧ x.CoveredBy (cs.filter fun c => !c.isToValue)

theorem settledUp_reduce (h : SettledUp x cs b) (hc : c ∈ cs) : SettledUp x cs (b.reduce c).1 := by
  rcases h with ⟨hopen, hup⟩ | h
  · cases c with
    | fromValue f =>
      cases hkeep : (b.reduce (fromValue f)).2 with
      | true =>
        rw [reduce_of_kept hkeep]
        exact Or.inl ⟨hopen, hup⟩
      | false =>
        refine Or.inr ⟨⟨_, hc, rfl⟩, ?_⟩
        exact coveredBy_of_fromValue hup (by simp [hc, isToValue]) hkeep
    | toValue t =>
      have hsame : (b.reduce (toValue t)).1 = b := by simp [reduce, hopen]
      rw [hsame]
      exact Or.inl ⟨hopen, hup⟩
    | literal v =>
      refine Or.inl ⟨?_, outside_reduce hup (by simp [hc, isToValue])⟩
      simp only [reduce, hopen]
      split_ifs <;> simp_all
    | range f t =>
      refine Or.inl ⟨?_, outside_reduce hup (by simp [hc, isToValue])⟩
      rw [reduce_range_fst]
      simp [maxWithin, hopen]
    | _ => exact Or.inl ⟨hopen, hup⟩
  · exact Or.inr h

/-- What a step keeps when the lower end is open. -/
def SettledDown (x : TInteger) (cs : List TInteger) (b : Bounds) : Prop :=
  (b.minBound = none ∧ Outside x (cs.filter fun c => !c.isFromValue) b) ∨
    (∃ c ∈ cs, c.isToValue = true) ∧ x.CoveredBy (cs.filter fun c => !c.isFromValue)

theorem settledDown_reduce (h : SettledDown x cs b) (hc : c ∈ cs) :
    SettledDown x cs (b.reduce c).1 := by
  rcases h with ⟨hopen, hdown⟩ | h
  · cases c with
    | toValue t =>
      cases hkeep : (b.reduce (toValue t)).2 with
      | true =>
        rw [reduce_of_kept hkeep]
        exact Or.inl ⟨hopen, hdown⟩
      | false =>
        refine Or.inr ⟨⟨_, hc, rfl⟩, ?_⟩
        exact coveredBy_of_toValue hdown (by simp [hc, isFromValue]) hkeep
    | fromValue f =>
      have hsame : (b.reduce (fromValue f)).1 = b := by simp [reduce, hopen]
      rw [hsame]
      exact Or.inl ⟨hopen, hdown⟩
    | literal v =>
      refine Or.inl ⟨?_, outside_reduce hdown (by simp [hc, isFromValue])⟩
      simp only [reduce, hopen]
      split_ifs <;> simp_all
    | range f t =>
      refine Or.inl ⟨?_, outside_reduce hdown (by simp [hc, isFromValue])⟩
      rw [reduce_range_fst]
      simp [minWithin, hopen]
    | _ => exact Or.inl ⟨hopen, hdown⟩
  · exact Or.inr h

/-- The smallest integer stays when no container but an upward half-line has it. -/
theorem lowest_stays (hc : c.Plain) (hno : c.isFromValue = true ∨ ¬ c.Has i64Min)
    (hmin : b.minBound = some i64Min) (hmax : ∀ M ∈ b.maxBound, i64Min ≤ M) :
    (b.reduce c).1.minBound = some i64Min ∧ ∀ M ∈ (b.reduce c).1.maxBound, i64Min ≤ M := by
  have hsub : ∀ a, i64Min ≤ saturatingSub a 1 := fun a => inI64_saturatingSub.1
  obtain ⟨hwell, _, _⟩ := hc
  cases c with
  | literal v =>
    have hne : v ≠ i64Min := by simpa [isFromValue, eq_comm] using hno
    simp only [reduce, hmin, Option.some.injEq, if_neg hne]
    split_ifs
    · exact ⟨rfl, by simpa using hsub v⟩
    · exact ⟨hmin, hmax⟩
  | range f t =>
    have hlt : ¬ f ≤ i64Min := by
      intro hle
      have hne : ¬ (f ≤ i64Min ∧ i64Min ≤ t) := by simpa [isFromValue] using hno
      exact hne ⟨hle, hwell.1.1.trans hwell.2.1⟩
    rw [reduce_range_fst]
    refine ⟨by simp [minWithin, hmin, hlt], ?_⟩
    dsimp only
    split_ifs
    · simpa using hsub f
    · exact hmax
  | fromValue f =>
    simp only [reduce]
    split_ifs
    · exact ⟨hmin, by simpa using hsub f⟩
    · exact ⟨hmin, hmax⟩
  | toValue t =>
    have hno' : ¬ i64Min ≤ t := by simpa [isFromValue] using hno
    exact absurd hwell.1 hno'
  | _ => exact ⟨hmin, hmax⟩

/-! ## The largest integer -/

/-- The largest integer is left and stays. -/
structure Largest (cs : List TInteger) (b : Bounds) : Prop where
  max : b.maxBound = some i64Max
  min : ∀ m ∈ b.minBound, m ≤ i64Max
  literals : literal i64Max ∈ cs → b.minBound = some i64Max

/-- No container takes the largest integer away but a literal. -/
def OnlyLiteral (cs : List TInteger) : Prop :=
  ∀ c ∈ cs, c.Plain ∧ c.isFromValue = false ∧ ∀ f, c ≠ range f i64Max

theorem largest_reduce (h : Largest cs b) (hcs : OnlyLiteral cs) (hc : c ∈ cs) :
    Largest cs (b.reduce c).1 := by
  have hadd : ∀ a, saturatingAdd a 1 ≤ i64Max := fun a => inI64_saturatingAdd.2
  have htop : saturatingAdd i64Max 1 = i64Max := by decide
  obtain ⟨hmax, hmin, hliterals⟩ := h
  obtain ⟨⟨hwell, _, _⟩, hfrom, hrange⟩ := hcs c hc
  cases c with
  | literal v =>
    simp only [reduce]
    split_ifs with hv hv'
    · refine ⟨hmax, by simpa using hadd v, fun hmem => ?_⟩
      rw [hliterals hmem] at hv
      rw [Option.some.inj hv, htop]
    · rw [hmax] at hv'
      rw [Option.some.inj hv'] at hc hv
      exact absurd (hliterals hc).symm hv
    · exact ⟨hmax, hmin, hliterals⟩
  | range f t =>
    have hne : t ≠ i64Max := fun heq => hrange f (by rw [heq])
    have hlt : ¬ i64Max ≤ t := fun hle => hne (le_antisymm hwell.2.2.2 hle)
    rw [reduce_range_fst]
    refine ⟨by simp [maxWithin, hmax, hlt], ?_, fun hmem => ?_⟩
    · dsimp only
      split_ifs
      · simpa using hadd t
      · exact hmin
    · simp [minWithin, hliterals hmem, hlt]
  | toValue t =>
    simp only [reduce]
    split_ifs with hin
    · refine ⟨hmax, by simpa using hadd t, fun _ => ?_⟩
      rw [hmax, Option.any_some, decide_eq_true_eq] at hin
      rw [le_antisymm hwell.2 hin, htop]
    · exact ⟨hmax, hmin, hliterals⟩
  | fromValue f => cases hfrom
  | _ => exact ⟨hmax, hmin, hliterals⟩

/-- In front of the literal and of the half-lines that end there, only the lower end moves. -/
theorem reduce_eq_raised (hmax : b.maxBound = some i64Max) (hcs : OnlyLiteral cs) (hc : c ∈ cs)
    (hliteral : c ≠ literal i64Max) (hto : c ≠ toValue i64Max) :
    (b.reduce c).1 = ⟨raised b.minBound c, some i64Max⟩ := by
  obtain ⟨⟨hwell, _, _⟩, hfrom, hrange⟩ := hcs c hc
  cases c with
  | literal v =>
    have hne : v ≠ i64Max := fun heq => hliteral (by rw [heq])
    simp only [reduce, raised, hmax, Option.some.injEq, if_neg hne]
    split_ifs
    · rfl
    · rw [← hmax]
  | range f t =>
    have hne : t ≠ i64Max := fun heq => hrange f (by rw [heq])
    have hlt : ¬ i64Max ≤ t := fun hle => hne (le_antisymm hwell.2.2.2 hle)
    have hout : b.maxWithin f t = false := by simp [maxWithin, hmax, hlt]
    rw [reduce_range_fst, hout, hmax]
    rfl
  | toValue t =>
    have hne : t ≠ i64Max := fun heq => hto (by rw [heq])
    have hlt : ¬ i64Max ≤ t := fun hle => hne (le_antisymm hwell.2 hle)
    simp only [reduce, raised, hmax, Option.any_some, hlt, decide_false, Bool.false_eq_true,
      if_false]
    rw [← hmax]
  | fromValue f => cases hfrom
  | _ =>
    change b = ⟨b.minBound, some i64Max⟩
    rw [← hmax]

theorem raised_le {minB : Option ℤ} (h : ∀ m ∈ minB, m ≤ i64Max) :
    ∀ m ∈ raised minB c, m ≤ i64Max := by
  have hadd : ∀ a, saturatingAdd a 1 ≤ i64Max := fun a => inI64_saturatingAdd.2
  cases c with
  | literal v =>
    rw [raised]
    split_ifs
    · simpa using hadd v
    · exact h
  | range f t =>
    rw [raised]
    split_ifs
    · simpa using hadd t
    · exact h
  | _ => exact h

/-- Where the literal does not lower the upper end, the largest integer is left after a pass. -/
theorem largest_pass (hmax : b.maxBound = some i64Max) (hmin : ∀ m ∈ b.minBound, m ≤ i64Max)
    (hcs : OnlyLiteral cs) (h : literalLowers b.minBound cs = false) :
    Largest cs (retainPass reduce b cs).1 := by
  induction cs generalizing b with
  | nil => exact ⟨hmax, hmin, by simp⟩
  | cons c cs ih =>
    have hrest : ∀ b : Bounds, Largest (c :: cs) b → Largest (c :: cs) (retainPass reduce b cs).1 :=
      fun b hb => retainPass_invariant hb fun b hb d hd =>
        largest_reduce hb hcs (List.mem_cons_of_mem c hd)
    rw [literalLowers] at h
    split_ifs at h with hliteral hto
    · apply hrest
      apply largest_reduce _ hcs (by simp)
      exact ⟨hmax, hmin, fun _ => by simpa using h⟩
    · apply hrest
      subst hto
      have hstep : (b.reduce (toValue i64Max)).1 = ⟨some i64Max, some i64Max⟩ := by
        have htop : saturatingAdd i64Max 1 = i64Max := by decide
        simp [reduce, hmax, htop]
      rw [hstep]
      exact ⟨rfl, by simp, fun _ => rfl⟩
    · rw [retainPass]
      have hstep := reduce_eq_raised hmax hcs (by simp) hliteral hto
      have hpass := ih (b := (b.reduce c).1) (by rw [hstep]) (by rw [hstep]; exact raised_le hmin)
        (fun d hd => hcs d (List.mem_cons_of_mem c hd)) (by rw [hstep]; exact h)
      refine ⟨hpass.max, hpass.min, fun hmem => hpass.literals ?_⟩
      exact (List.mem_cons.mp hmem).resolve_left fun heq => hliteral heq.symm

/-- The upper end is below the largest integer. -/
def Lowered (b : Bounds) : Prop := ∃ M ∈ b.maxBound, M < i64Max

theorem lowered_reduce (h : Lowered b) (hcs : OnlyLiteral cs) (hc : c ∈ cs) :
    Lowered (b.reduce c).1 := by
  obtain ⟨M, hM, hlt⟩ := h
  obtain ⟨⟨hwell, _, _⟩, hfrom, _⟩ := hcs c hc
  have hsub : ∀ a, a ≤ i64Max → saturatingSub a 1 < i64Max := by
    intro a ha
    unfold saturatingSub i64Min i64Max at *
    omega
  cases c with
  | literal v =>
    simp only [reduce]
    split_ifs
    · exact ⟨M, hM, hlt⟩
    · exact ⟨_, rfl, hsub v hwell.2⟩
    · exact ⟨M, hM, hlt⟩
  | range f t =>
    rw [reduce_range_fst]
    unfold Lowered
    dsimp only
    split_ifs
    · exact ⟨_, rfl, hsub f hwell.1.2⟩
    · exact ⟨M, hM, hlt⟩
  | toValue t =>
    simp only [reduce]
    split_ifs
    · exact ⟨M, hM, hlt⟩
    · exact ⟨M, hM, hlt⟩
  | fromValue f => cases hfrom
  | _ => exact ⟨M, hM, hlt⟩

theorem lowered_pass (hmax : b.maxBound = some i64Max) (hcs : OnlyLiteral cs)
    (h : literalLowers b.minBound cs = true) : Lowered (retainPass reduce b cs).1 := by
  induction cs generalizing b with
  | nil => cases h
  | cons c cs ih =>
    rw [literalLowers] at h
    rw [retainPass]
    split_ifs at h with hliteral hto
    · subst hliteral
      have hne : ¬ some i64Max = b.minBound := fun heq => by simp [← heq] at h
      have hstep : Lowered (b.reduce (literal i64Max)).1 := by
        simp only [reduce, if_neg hne, hmax, if_pos]
        exact ⟨_, rfl, by decide⟩
      exact retainPass_invariant hstep fun b hb d hd =>
        lowered_reduce hb hcs (List.mem_cons_of_mem _ hd)
    · have hstep := reduce_eq_raised hmax hcs (by simp) hliteral hto
      exact ih (b := (b.reduce c).1) (by rw [hstep])
        (fun d hd => hcs d (List.mem_cons_of_mem c hd)) (by rw [hstep]; exact h)

/-! ## Containment that is missed -/

/-- A container that a pass keeps, or that was dropped before. -/
def Stuck (b : Bounds) (c : TInteger) : Prop := (b.reduce c).2 = true ∨ b.Mark c

/-- A container that has the lower end is not stuck, but where an end saturates. -/
theorem stuck_lower {m : ℤ} (hm : b.minBound = some m) (hleft : b.Within m)
    (hc : c.Plain) (hto : c.isToValue = false) (hhas : c.Has m) (h : b.Stuck c) :
    m = i64Max ∨ (m = i64Min ∧ b.maxBound = some i64Min) := by
  obtain ⟨hwell, _, _⟩ := hc
  cases c with
  | literal v =>
    rw [has_literal] at hhas
    subst hhas
    rcases h with h | h
    · simp [reduce, hm] at h
    · rcases h with ⟨m', hm', hlt⟩ | ⟨M, hM, hlt⟩ | ⟨hv, _⟩ | ⟨_, hnone, _⟩
      · rw [hm, Option.mem_some_iff] at hm'
        omega
      · have := hleft.2 M hM
        omega
      · exact Or.inl hv
      · rw [hm] at hnone
        cases hnone
  | range f t =>
    rcases h with h | h
    · rw [reduce_range_snd] at h
      simp [minWithin, hm, hhas.1, hhas.2] at h
    · rcases h with ⟨m', hm', hlt⟩ | ⟨M, hM, hlt⟩ | ⟨_, hv, _⟩ | ⟨_, hnone, _⟩
      · rw [hm, Option.mem_some_iff] at hm'
        have := hhas.2
        omega
      · have := hleft.2 M hM
        have := hhas.1
        omega
      · rw [hm] at hv
        exact Or.inl (Option.some.inj hv)
      · rw [hm] at hnone
        cases hnone
  | fromValue f =>
    rcases h with h | ⟨_, hmin, hmax⟩
    · rw [has_fromValue] at hhas
      simp [reduce, hm, hhas] at h
    · rw [hm] at hmin
      exact Or.inr ⟨Option.some.inj hmin, hmax⟩
  | toValue t => cases hto
  | _ => simp_all [isUnspecified, isUnspecifiedLiteral]

/-- A container that has the upper end is not stuck, but where an end saturates. -/
theorem stuck_upper {M : ℤ} (hM : b.maxBound = some M) (hleft : b.Within M)
    (hc : c.Plain) (hfrom : c.isFromValue = false) (hhas : c.Has M) (h : b.Stuck c) :
    (b.minBound = some i64Max ∧ M = i64Max) ∨ (b.minBound = none ∧ M = i64Min) := by
  obtain ⟨hwell, _, _⟩ := hc
  cases c with
  | literal v =>
    rw [has_literal] at hhas
    subst hhas
    rcases h with h | h
    · by_cases hmin : some M = b.minBound
      · simp [reduce, hmin] at h
      · simp [reduce, hmin, hM] at h
    · rcases h with ⟨m, hm, hlt⟩ | ⟨M', hM', hlt⟩ | ⟨hv, hm⟩ | ⟨hv, hnone, _⟩
      · have := hleft.1 m hm
        omega
      · rw [hM, Option.mem_some_iff] at hM'
        omega
      · exact Or.inl ⟨hm, hv⟩
      · exact Or.inr ⟨hnone, hv⟩
  | range f t =>
    rcases h with h | h
    · rw [reduce_range_snd] at h
      simp [maxWithin, hM, hhas.1, hhas.2] at h
    · rcases h with ⟨m, hm, hlt⟩ | ⟨M', hM', hlt⟩ | ⟨_, _, hnone⟩ | ⟨_, hnone, hmax⟩
      · have := hleft.1 m hm
        have := hhas.2
        omega
      · rw [hM, Option.mem_some_iff] at hM'
        have := hhas.1
        omega
      · rw [hM] at hnone
        cases hnone
      · rw [hM] at hmax
        exact Or.inr ⟨hnone, Option.some.inj hmax⟩
  | toValue t =>
    rcases h with h | ⟨_, hmin, hmax⟩
    · rw [has_toValue] at hhas
      simp [reduce, hM, hhas] at h
    · rw [hM] at hmax
      exact Or.inl ⟨hmin, Option.some.inj hmax⟩
  | fromValue f => cases hfrom
  | _ => simp_all [isUnspecified, isUnspecifiedLiteral]

theorem stuck_fromValue {m : ℤ} (hm : b.minBound = some m) (hc : c.Plain)
    (hfrom : c.isFromValue = true) (h : b.Stuck c) :
    m < i64Max ∨ (m = i64Min ∧ b.maxBound = some i64Min) := by
  cases c with
  | fromValue f =>
    rcases h with h | ⟨_, hmin, hmax⟩
    · have hlt : ¬ f ≤ m := fun hle => by simp [reduce, hm, hle] at h
      exact Or.inl ((not_le.mp hlt).trans_le hc.1.2)
    · rw [hm] at hmin
      exact Or.inr ⟨Option.some.inj hmin, hmax⟩
  | _ => cases hfrom

theorem stuck_toValue {M : ℤ} (hM : b.maxBound = some M) (hc : c.Plain)
    (hto : c.isToValue = true) (h : b.Stuck c) :
    i64Min < M ∨ (b.minBound = some i64Max ∧ M = i64Max) := by
  cases c with
  | toValue t =>
    rcases h with h | ⟨_, hmin, hmax⟩
    · have hlt : ¬ M ≤ t := fun hle => by simp [reduce, hM, hle] at h
      exact Or.inl (hc.1.1.trans_lt (not_le.mp hlt))
    · rw [hM] at hmax
      exact Or.inr ⟨hmin, Option.some.inj hmax⟩
  | _ => cases hto

/-- The smallest integer alone is not left over. -/
theorem not_stuck_lowest (hcs : ∀ c ∈ cs, c.Plain) (hx : x.Reducible cs)
    (hxmin : x.getMinimumValue = some i64Min) (hmin : b.minBound = some i64Min)
    (hmax : b.maxBound = some i64Min) (h : ∀ c ∈ cs, b.Stuck c) : False := by
  have hleft : b.Within i64Min := by simp [Within, hmin, hmax]
  obtain ⟨c, hc, hfrom, hhas⟩ := hx.lowest hxmin
  rcases stuck_upper hmax hleft (hcs c hc) hfrom hhas (h c hc) with ⟨htop, _⟩ | ⟨hnone, _⟩
  · rw [hmin] at htop
    exact absurd (Option.some.inj htop) (by decide)
  · rw [hmin] at hnone
    cases hnone

/-- The largest integer alone is not left over. -/
theorem not_stuck_largest (hcs : ∀ c ∈ cs, c.Plain) (hx : x.Reducible cs)
    (hxmax : x.getMaximumValue = some i64Max) (hmin : b.minBound = some i64Max)
    (hmax : b.maxBound = some i64Max) (h : ∀ c ∈ cs, b.Stuck c)
    (hlowered : OnlyLiteral cs → literalLowers x.getMinimumValue cs = true → b.Lowered) :
    False := by
  have hnofrom : ∀ c ∈ cs, c.isFromValue = false := by
    intro c hc
    by_contra hfrom
    rcases stuck_fromValue hmin (hcs c hc) (by simpa using hfrom) (h c hc) with hlt | ⟨heq, _⟩
    · exact absurd hlt (lt_irrefl _)
    · exact absurd heq (by decide)
  have hnorange : ∀ f, range f i64Max ∉ cs := by
    intro f hc
    have hwell := (hcs _ hc).1
    rcases h _ hc with hkeep | hmark
    · rw [reduce_range_snd] at hkeep
      simp [minWithin, hmin, hwell.1.2] at hkeep
    · rcases hmark with ⟨m, hm, hlt⟩ | ⟨M, hM, hlt⟩ | ⟨_, _, hnone⟩ | ⟨_, hnone, _⟩
      · rw [hmin, Option.mem_some_iff] at hm
        omega
      · rw [hmax, Option.mem_some_iff] at hM
        have := hwell.1.2
        omega
      · rw [hmax] at hnone
        cases hnone
      · rw [hmin] at hnone
        cases hnone
  rcases hx.largest hxmax with ⟨c, hc, hfrom⟩ | ⟨f, hc⟩ | hliteral
  · rw [hnofrom c hc] at hfrom
    cases hfrom
  · exact hnorange f hc
  · have honly : OnlyLiteral cs :=
      fun c hc => ⟨hcs c hc, hnofrom c hc, fun f heq => hnorange f (heq ▸ hc)⟩
    obtain ⟨M, hM, hlt⟩ := hlowered honly hliteral
    rw [hmax, Option.mem_some_iff] at hM
    omega

/-- Inside the ends it started from, and with the same ends closed at least. -/
structure Inside (b₀ b : Bounds) : Prop where
  valid : b.Valid
  within : ∀ n, b.Within n → b₀.Within n
  lower : b₀.minBound.isSome = true → b.minBound.isSome = true
  upper : b₀.maxBound.isSome = true → b.maxBound.isSome = true

theorem within_of_reduce (hb : b.Valid) (hc : c.WellFormed) (h : (b.reduce c).1.Within n) :
    b.Within n := by
  have hempty : (b.reduce c).1.isEmpty ≠ true := fun hempty => not_within_of_isEmpty hempty h
  obtain ⟨hlower, hupper, _, _⟩ := shrinks_reduce hb hc hempty
  constructor
  · intro m hm
    obtain ⟨m', hm', hle⟩ := hlower m hm
    exact hle.trans (h.1 m' hm')
  · intro M hM
    obtain ⟨M', hM', hle⟩ := hupper M hM
    exact (h.2 M' hM').trans hle

theorem inside_reduce (h : Inside b₀ b) (hc : c.WellFormed) : Inside b₀ (b.reduce c).1 := by
  refine ⟨valid_reduce h.valid, fun n hn => h.within n (within_of_reduce h.valid hc hn), ?_, ?_⟩
  · intro hsome
    have hb := h.lower hsome
    cases c with
    | range f t =>
      rw [reduce_range_fst]
      dsimp only
      split_ifs
      · rfl
      · exact hb
    | _ =>
      simp only [reduce]
      (try split_ifs) <;> first | exact hb | rfl
  · intro hsome
    have hb := h.upper hsome
    cases c with
    | range f t =>
      rw [reduce_range_fst]
      dsimp only
      split_ifs
      · rfl
      · exact hb
    | _ =>
      simp only [reduce]
      (try split_ifs) <;> first | exact hb | rfl

end Bounds

namespace TInteger

open Bounds

variable {x c : TInteger} {cs : List TInteger} {n : ℤ}

/-- The ends the reduction starts from. -/
def bounds (x : TInteger) : Bounds := ⟨x.getMinimumValue, x.getMaximumValue⟩

theorem has_iff_within (hx : x.Plain) : x.Has n ↔ x.bounds.Within n := by
  obtain ⟨_, hunspecified, hliteral⟩ := hx
  cases x with
  | literal v =>
    simp only [has_literal, bounds, getMinimumValue, getMaximumValue, Within, Option.mem_some_iff,
      forall_eq']
    omega
  | unspecified => cases hunspecified
  | unspecifiedLiteral => cases hliteral
  | _ => simp [bounds, getMinimumValue, getMaximumValue, Within]

theorem valid_bounds (hx : x.Plain) : x.bounds.Valid := by
  obtain ⟨hwell, _, _⟩ := hx
  cases x with
  | range f t =>
    exact ⟨fun m hm => Option.some.inj hm ▸ hwell.1, fun m hm => Option.some.inj hm ▸ hwell.2.2⟩
  | literal v =>
    exact ⟨fun m hm => Option.some.inj hm ▸ hwell, fun m hm => Option.some.inj hm ▸ hwell⟩
  | fromValue f => exact ⟨fun m hm => Option.some.inj hm ▸ hwell, fun m hm => by cases hm⟩
  | toValue t => exact ⟨fun m hm => (by cases hm), fun m hm => Option.some.inj hm ▸ hwell⟩
  | _ => exact ⟨fun m hm => (by cases hm), fun m hm => (by cases hm)⟩

theorem isContainedByAny_literal {v : ℤ} (hv : InI64 v) (hcs : ∀ c ∈ cs, c.Plain) :
    (literal v).isContainedByAny cs = true ↔ (literal v).CoveredBy cs := by
  have hno : ¬ cs.any isUnspecified = true := by
    rw [List.any_eq_true]
    intro hany
    obtain ⟨c, hc, hyes⟩ := hany
    rw [(hcs c hc).2.1] at hyes
    cases hyes
  have hcontains : ∀ c ∈ cs, c.contains (literal v) = true ↔ c.Has v := by
    intro c hc
    obtain ⟨_, hunspecified, hliteral⟩ := hcs c hc
    cases c with
    | unspecified => cases hunspecified
    | unspecifiedLiteral => cases hliteral
    | literal w =>
      simp only [contains, isUnspecified, isUnspecifiedLiteral, Bool.false_eq_true, if_false,
        decide_eq_true_eq]
      exact eq_comm
    | _ => simp [contains, isUnspecified, isUnspecifiedLiteral]
  rw [isContainedByAny, if_neg hno, if_pos (by rfl), List.any_eq_true]
  constructor
  · intro hany n _ hn
    obtain ⟨c, hc, hyes⟩ := hany
    rw [has_literal] at hn
    rw [hn]
    exact ⟨c, hc, (hcontains c hc).mp hyes⟩
  · intro hcovered
    obtain ⟨c, hc, hhas⟩ := hcovered v hv rfl
    exact ⟨c, hc, (hcontains c hc).mpr hhas⟩

/-- For other inputs the reduction decides. -/
theorem isContainedByAny_eq (hx : x.Plain) (hliteral : x.isLiteral = false)
    (hcs : ∀ c ∈ cs, c.Plain) :
    x.isContainedByAny cs = retainLoop reduce isEmpty x.bounds cs := by
  have hno : ¬ cs.any isUnspecified = true := by
    rw [List.any_eq_true]
    intro hany
    obtain ⟨c, hc, hyes⟩ := hany
    rw [(hcs c hc).2.1] at hyes
    cases hyes
  have hall : cs.filter (fun c => !c.isUnspecifiedLiteral) = cs := by
    rw [List.filter_eq_self]
    intro c hc
    rw [(hcs c hc).2.2]
    rfl
  rw [isContainedByAny, if_neg hno, if_neg (by simp [hliteral]), if_neg (by simp [hx.2.2]),
    if_neg (by simp [hx.2.1]), hall]
  rfl

theorem outside_bounds (hx : x.Plain) : Outside x cs x.bounds :=
  fun _ _ hhas hout => absurd ((has_iff_within hx).mp hhas) hout

/-- What is found is covered, and by containers that the ends could be taken away with. -/
theorem reducible_of_contained (hx : x.Plain) (hliteral : x.isLiteral = false)
    (hcs : ∀ c ∈ cs, c.Plain) (h : retainLoop reduce isEmpty x.bounds cs = true) :
    x.Reducible cs := by
  constructor
  · cases x with
    | range f t =>
      obtain ⟨b, hb, hempty⟩ := exists_done (P := Settled (range f t) cs) h
        (Or.inl ⟨outside_bounds hx, outside_bounds hx⟩) fun b hb c hc => settled_reduce hb hc
      rcases hb with ⟨hup, _⟩ | hb
      · exact Or.inl (coveredBy_of_outside hup hempty)
      · exact hb
    | fromValue f =>
      obtain ⟨b, hb, hempty⟩ := exists_done (P := SettledUp (fromValue f) cs) h
        (Or.inl ⟨rfl, outside_bounds hx⟩) fun b hb c hc => settledUp_reduce hb hc
      rcases hb with ⟨hopen, _⟩ | hb
      · obtain ⟨_, _, _, hM, _⟩ := isEmpty_iff.mp hempty
        rw [hopen] at hM
        cases hM
      · exact hb
    | toValue t =>
      obtain ⟨b, hb, hempty⟩ := exists_done (P := SettledDown (toValue t) cs) h
        (Or.inl ⟨rfl, outside_bounds hx⟩) fun b hb c hc => settledDown_reduce hb hc
      rcases hb with ⟨hopen, _⟩ | hb
      · obtain ⟨_, _, hm, _, _⟩ := isEmpty_iff.mp hempty
        rw [hopen] at hm
        cases hm
      · exact hb
    | literal v => cases hliteral
    | unspecified => cases hx.2.1
    | unspecifiedLiteral => cases hx.2.2
  · intro hmin
    by_contra hnone
    have hno : ∀ c ∈ cs, c.isFromValue = true ∨ ¬ c.Has i64Min := by
      intro c hc
      by_contra hyes
      rw [not_or, not_not, Bool.not_eq_true] at hyes
      exact hnone ⟨c, hc, hyes⟩
    obtain ⟨b, ⟨hbmin, hbmax⟩, hempty⟩ :=
      exists_done (P := fun b => b.minBound = some i64Min ∧ ∀ M ∈ b.maxBound, i64Min ≤ M) h
        ⟨hmin, fun M hM => ((valid_bounds hx).upper M hM).1⟩
        fun b hb c hc => lowest_stays (hcs c hc) (hno c hc) hb.1 hb.2
    obtain ⟨m, M, hm, hM, hlt⟩ := isEmpty_iff.mp hempty
    rw [hbmin] at hm
    have := hbmax M hM
    have := Option.some.inj hm
    omega
  · intro hmax
    by_contra hnone
    rw [not_or, not_or, Bool.not_eq_true] at hnone
    obtain ⟨hnofrom, hnorange, hnoliteral⟩ := hnone
    have honly : OnlyLiteral cs := by
      refine fun c hc => ⟨hcs c hc, ?_, fun f heq => hnorange ⟨f, heq ▸ hc⟩⟩
      by_contra hfrom
      exact hnofrom ⟨c, hc, by simpa using hfrom⟩
    have hnotEmpty : ∀ b, Largest cs b → b.isEmpty = false := by
      intro b hb
      by_contra hempty
      obtain ⟨m, M, hm, hM, hlt⟩ := isEmpty_iff.mp (by simpa using hempty)
      have hle := hb.min m hm
      rw [hb.max] at hM
      have := Option.some.inj hM
      omega
    have hmin : ∀ m ∈ x.bounds.minBound, m ≤ i64Max :=
      fun m hm => ((valid_bounds hx).lower m hm).2
    have hstart : x.bounds.maxBound = some i64Max := hmax
    have hfirst := largest_pass hstart hmin honly hnoliteral
    have hnotDone : x.bounds.isEmpty = false := by
      by_contra hempty
      obtain ⟨m, M, hm, hM, hlt⟩ := isEmpty_iff.mp (by simpa using hempty)
      have hle := hmin m hm
      rw [hstart] at hM
      have := Option.some.inj hM
      omega
    have hmissed := retainLoop_eq_false hnotDone hfirst
      (fun b hb c hc => largest_reduce hb honly hc) hnotEmpty
    rw [h] at hmissed
    cases hmissed

/-- What is left where a pass changes nothing. -/
structure Stopped (x : TInteger) (cs : List TInteger) (b : Bounds) : Prop where
  inside : Inside x.bounds b
  left : b.isEmpty = false
  stuck : ∀ c ∈ cs, b.Stuck c
  lowered : x.getMaximumValue = some i64Max → OnlyLiteral cs →
    literalLowers x.getMinimumValue cs = true → b.Lowered

section Stopped

variable {b : Bounds} {m M : ℤ}

theorem Stopped.min_le_max (h : x.Stopped cs b) (hm : b.minBound = some m)
    (hM : b.maxBound = some M) : m ≤ M := by
  by_contra hlt
  have hempty := isEmpty_iff.mpr ⟨m, M, hm, hM, not_le.mp hlt⟩
  rw [h.left] at hempty
  cases hempty

theorem Stopped.within_min (h : x.Stopped cs b) (hm : b.minBound = some m) : b.Within m := by
  refine ⟨fun m' hm' => ?_, fun M hM => h.min_le_max hm hM⟩
  rw [hm, Option.mem_some_iff] at hm'
  omega

theorem Stopped.within_max (h : x.Stopped cs b) (hM : b.maxBound = some M) : b.Within M := by
  refine ⟨fun m hm => h.min_le_max hm hM, fun M' hM' => ?_⟩
  rw [hM, Option.mem_some_iff] at hM'
  omega

/-- A container that has the lower end of what is left. -/
theorem Stopped.lower (h : x.Stopped cs b) (hx : x.Plain) (hcs : ∀ c ∈ cs, c.Plain)
    (hcovered : x.CoveredBy (cs.filter fun c => !c.isToValue)) (hm : b.minBound = some m) :
    m = i64Max ∨ (m = i64Min ∧ b.maxBound = some i64Min) := by
  have hwithin := h.within_min hm
  obtain ⟨c, hc, hhas⟩ := hcovered m (h.inside.valid.lower m hm)
    ((has_iff_within hx).mpr (h.inside.within m hwithin))
  obtain ⟨hc, hto⟩ := mem_notToValue.mp hc
  exact stuck_lower hm hwithin (hcs c hc) hto hhas (h.stuck c hc)

/-- A container that has the upper end of what is left. -/
theorem Stopped.upper (h : x.Stopped cs b) (hx : x.Plain) (hcs : ∀ c ∈ cs, c.Plain)
    (hcovered : x.CoveredBy (cs.filter fun c => !c.isFromValue)) (hM : b.maxBound = some M) :
    (b.minBound = some i64Max ∧ M = i64Max) ∨ (b.minBound = none ∧ M = i64Min) := by
  have hwithin := h.within_max hM
  obtain ⟨c, hc, hhas⟩ := hcovered M (h.inside.valid.upper M hM)
    ((has_iff_within hx).mpr (h.inside.within M hwithin))
  obtain ⟨hc, hfrom⟩ := mem_notFromValue.mp hc
  exact stuck_upper hM hwithin (hcs c hc) hfrom hhas (h.stuck c hc)

theorem Stopped.not_lowest (h : x.Stopped cs b) (hx : x.Plain) (hcs : ∀ c ∈ cs, c.Plain)
    (hr : x.Reducible cs) (hclosed : x.getMinimumValue.isSome = true)
    (hm : b.minBound = some i64Min) (hM : b.maxBound = some i64Min) : False := by
  obtain ⟨m₀, hm₀⟩ := Option.isSome_iff_exists.mp hclosed
  have hle := (h.inside.within _ (h.within_min hm)).1 m₀ hm₀
  have hmin : x.getMinimumValue = some i64Min := by
    rw [hm₀, le_antisymm hle ((valid_bounds hx).lower m₀ hm₀).1]
  exact not_stuck_lowest hcs hr hmin hm hM h.stuck

theorem Stopped.not_largest (h : x.Stopped cs b) (hx : x.Plain) (hcs : ∀ c ∈ cs, c.Plain)
    (hr : x.Reducible cs) (hclosed : x.getMaximumValue.isSome = true)
    (hm : b.minBound = some i64Max) (hM : b.maxBound = some i64Max) : False := by
  obtain ⟨M₀, hM₀⟩ := Option.isSome_iff_exists.mp hclosed
  have hle := (h.inside.within _ (h.within_max hM)).2 M₀ hM₀
  have hmax : x.getMaximumValue = some i64Max := by
    rw [hM₀, le_antisymm ((valid_bounds hx).upper M₀ hM₀).2 hle]
  exact not_stuck_largest hcs hr hmax hm hM h.stuck (h.lowered hmax)

/-- Where the ends can be taken away, nothing is left. -/
theorem not_stopped (hx : x.Plain) (hliteral : x.isLiteral = false) (hcs : ∀ c ∈ cs, c.Plain)
    (hr : x.Reducible cs) : ¬ x.Stopped cs b := by
  intro h
  cases x with
  | range f t =>
    obtain ⟨m, hm⟩ := Option.isSome_iff_exists.mp (h.inside.lower rfl)
    obtain ⟨M, hM⟩ := Option.isSome_iff_exists.mp (h.inside.upper rfl)
    rcases hr.oneSided with hup | hdown
    · rcases h.lower hx hcs hup hm with htop | ⟨hlow, hM'⟩
      · have hMle := (h.inside.valid.upper M hM).2
        have hle := h.min_le_max hm hM
        subst htop
        have hMtop := le_antisymm hMle hle
        exact h.not_largest hx hcs hr rfl hm (by rw [hM, hMtop])
      · exact h.not_lowest hx hcs hr rfl (by rw [hm, hlow]) hM'
    · rcases h.upper hx hcs hdown hM with ⟨hm', htop⟩ | ⟨hnone, _⟩
      · exact h.not_largest hx hcs hr rfl hm' (by rw [hM, htop])
      · rw [hm] at hnone
        cases hnone
  | fromValue f =>
    obtain ⟨m, hm⟩ := Option.isSome_iff_exists.mp (h.inside.lower rfl)
    obtain ⟨⟨c, hc, hfrom⟩, hup⟩ := hr.oneSided
    have hc' := stuck_fromValue hm (hcs c hc) hfrom (h.stuck c hc)
    have hlow : m = i64Min ∧ b.maxBound = some i64Min := by
      rcases h.lower hx hcs hup hm with htop | hlow
      · exact hc'.resolve_left (by omega)
      · exact hlow
    exact h.not_lowest hx hcs hr rfl (by rw [hm, hlow.1]) hlow.2
  | toValue t =>
    obtain ⟨M, hM⟩ := Option.isSome_iff_exists.mp (h.inside.upper rfl)
    obtain ⟨⟨c, hc, hto⟩, hdown⟩ := hr.oneSided
    have hc' := stuck_toValue hM (hcs c hc) hto (h.stuck c hc)
    have htop : b.minBound = some i64Max ∧ M = i64Max := by
      rcases h.upper hx hcs hdown hM with htop | ⟨_, hlow⟩
      · exact htop
      · exact hc'.resolve_left (by omega)
    exact h.not_largest hx hcs hr rfl htop.1 (by rw [hM, htop.2])
  | literal v => cases hliteral
  | unspecified => cases hx.2.1
  | unspecifiedLiteral => cases hx.2.2

end Stopped

/-- Where the ends can be taken away, containment is found. -/
theorem contained_of_reducible (hx : x.Plain) (hliteral : x.isLiteral = false)
    (hcs : ∀ c ∈ cs, c.Plain) (hr : x.Reducible cs) :
    retainLoop reduce isEmpty x.bounds cs = true := by
  by_contra hfalse
  rw [Bool.not_eq_true] at hfalse
  have hwell : ∀ c ∈ cs, c.WellFormed := fun c hc => (hcs c hc).1
  have hinside : Inside x.bounds x.bounds := ⟨valid_bounds hx, fun _ hn => hn, id, id⟩
  obtain ⟨b, hb, hlowered, hempty, hstuck⟩ := exists_stuck (P := Inside x.bounds)
    (Q := fun b => x.getMaximumValue = some i64Max → OnlyLiteral cs →
      literalLowers x.getMinimumValue cs = true → b.Lowered) hfalse hinside
    (fun c hc => Or.inl hc) (fun b hb c hc => inside_reduce hb (hwell c hc))
    (fun b c _ hkeep => reduce_of_kept hkeep)
    (fun b hb c hc hdrop => spent_of_dropped hb.valid (hwell c hc) hdrop)
    (fun b hb c d hd hspent => spent_reduce hb.valid (hwell d hd) hspent)
    (fun hmax honly hl => lowered_pass hmax honly hl)
    (fun b hb hq c hc hmax honly hl => lowered_reduce (hq hmax honly hl) honly hc)
  refine not_stopped hx hliteral hcs hr ⟨hb, hempty, fun c hc => ?_, hlowered⟩
  refine (hstuck c hc).imp_right fun hspent => hspent.resolve_left ?_
  rw [hempty]
  exact Bool.false_ne_true

/-- What is found is covered. -/
theorem coveredBy_of_contained (hx : x.Plain)
    (h : retainLoop reduce isEmpty x.bounds cs = true) : x.CoveredBy cs := by
  obtain ⟨b, hb, hempty⟩ := exists_done (P := Outside x cs) h (outside_bounds hx)
    fun b hb c hc => outside_reduce hb hc
  exact coveredBy_of_outside hb hempty

/-- Containment in several types is decided right exactly where the input is a literal, is not
covered, or is covered by containers that its ends can be taken away with. -/
theorem isContainedByAny_exact_iff (hx : x.Plain) (hcs : ∀ c ∈ cs, c.Plain) :
    (x.isContainedByAny cs = true ↔ x.CoveredBy cs) ↔
      (x.CoveredBy cs → x.isLiteral = true ∨ x.Reducible cs) := by
  cases hliteral : x.isLiteral with
  | true =>
    cases x with
    | literal v =>
      exact iff_of_true (isContainedByAny_literal hx.1 hcs) fun _ => Or.inl rfl
    | _ => cases hliteral
  | false =>
    rw [isContainedByAny_eq hx hliteral hcs]
    constructor
    · intro hexact hcovered
      exact Or.inr (reducible_of_contained hx hliteral hcs (hexact.mpr hcovered))
    · intro hreducible
      constructor
      · exact coveredBy_of_contained hx
      · intro hcovered
        apply contained_of_reducible hx hliteral hcs
        exact (hreducible hcovered).resolve_left Bool.false_ne_true

/-- A range that literals and an upward half-line take away together. -/
theorem isContainedByAny_exact_iff_range :
    (range 1 10).isContainedByAny [fromValue 3, literal 2, literal 1] = true ↔
      (range 1 10).CoveredBy [fromValue 3, literal 2, literal 1] := by
  have hcs : ∀ c ∈ [fromValue 3, literal 2, literal 1], c.Plain := by decide
  refine (isContainedByAny_exact_iff (by decide) hcs).mpr fun hcovered => Or.inr ⟨Or.inl ?_, ?_, ?_⟩
  · intro n hn hhas
    obtain ⟨c, hc, hhas'⟩ := hcovered n hn hhas
    have hto : ∀ c ∈ [fromValue 3, literal 2, literal 1], c.isToValue = false := by decide
    exact ⟨c, mem_notToValue.mpr ⟨hc, hto c hc⟩, hhas'⟩
  · intro hmin
    exact absurd (Option.some.inj hmin) (by decide)
  · intro hmax
    exact absurd (Option.some.inj hmax) (by decide)

/-- Two half-lines cover the range between them, and neither is taken away. -/
theorem half_lines_missed :
    (range 1 10).CoveredBy [toValue 5, fromValue 6] ∧
      (range 1 10).isContainedByAny [toValue 5, fromValue 6] = false := by
  constructor
  · intro n _ _
    rcases le_or_gt n 5 with hle | hlt
    · exact ⟨toValue 5, by simp, hle⟩
    · exact ⟨fromValue 6, by simp, hlt⟩
  · rw [isContainedByAny_eq (by decide) rfl (by decide)]
    apply retainLoop_eq_false (P := fun b => b = ⟨some 1, some 10⟩) rfl rfl
    · intro b hb
      subst hb
      decide
    · intro b hb
      subst hb
      rfl

end TInteger

end Mago.Types
