import Mathlib

/-!
# Writes and deletions in any order

A write overwrites a cell, a deletion empties it and fails on an empty cell. A list of such
effects on many cells splits into one list for each cell, and every choice of an order for
each cell comes from an order of the whole list. So what a cell can hold after some order is
determined by how often it is written and deleted.
-/
namespace Mago.Library

inductive CellEffect (ν : Type*)
  | write (v : ν)
  | delete
  deriving DecidableEq, Repr

namespace CellEffect

variable {ν : Type*}

/-- `none` is a failure. -/
def run : CellEffect ν → Option ν → Option (Option ν)
  | write v, _ => some (some v)
  | delete, some _ => some none
  | delete, none => none

def written : CellEffect ν → Option ν
  | write v => some v
  | delete => none

end CellEffect

open CellEffect

variable {ν : Type*}

def runCell : List (CellEffect ν) → Option ν → Option (Option ν)
  | [], s => some s
  | e :: es, s => (e.run s).bind (runCell es)

/-- The values that are written, in order. -/
def writes (es : List (CellEffect ν)) : List ν := es.filterMap written

def deletions (es : List (CellEffect ν)) : ℕ := es.countP fun e => e.written.isNone

/-- One for a cell that holds a value. -/
def present (s : Option ν) : ℕ := if s.isSome then 1 else 0

@[simp] theorem present_some (v : ν) : present (some v) = 1 := rfl

@[simp] theorem present_none : present (none : Option ν) = 0 := rfl

theorem present_le_one (s : Option ν) : present s ≤ 1 := by
  cases s <;> simp

theorem present_eq_zero {s : Option ν} : present s = 0 ↔ s = none := by
  cases s <;> simp

@[simp] theorem writes_write (v : ν) (es : List (CellEffect ν)) :
    writes (write v :: es) = v :: writes es := rfl

@[simp] theorem writes_delete (es : List (CellEffect ν)) : writes (delete :: es) = writes es := rfl

@[simp] theorem deletions_write (v : ν) (es : List (CellEffect ν)) :
    deletions (write v :: es) = deletions es := by
  simp [deletions, written]

@[simp] theorem deletions_delete (es : List (CellEffect ν)) :
    deletions (delete :: es) = deletions es + 1 := by
  simp [deletions, written]

theorem writes_append (es es' : List (CellEffect ν)) :
    writes (es ++ es') = writes es ++ writes es' := List.filterMap_append

theorem deletions_append (es es' : List (CellEffect ν)) :
    deletions (es ++ es') = deletions es + deletions es' := List.countP_append

theorem writes_perm {es es' : List (CellEffect ν)} (h : es.Perm es') :
    (writes es).Perm (writes es') := h.filterMap _

theorem deletions_perm {es es' : List (CellEffect ν)} (h : es.Perm es') :
    deletions es = deletions es' := h.countP_eq _

theorem runCell_append {es es' : List (CellEffect ν)} {s : Option ν} :
    runCell (es ++ es') s = (runCell es s).bind (runCell es') := by
  induction es generalizing s with
  | nil => rfl
  | cons e es ih =>
    cases h : e.run s <;> simp [runCell, h, ih]

/-! ## One cell -/

theorem exists_mem_writes {es : List (CellEffect ν)} (hes : es ≠ []) (hdel : deletions es = 0) :
    ∃ v, v ∈ writes es := by
  cases es with
  | nil => exact absurd rfl hes
  | cons e es =>
    cases e with
    | write v => exact ⟨v, by simp⟩
    | delete => simp at hdel

/-- Every deletion removes a value that was there or was written. -/
theorem deletions_add_present_le {es : List (CellEffect ν)} {s s' : Option ν}
    (h : runCell es s = some s') : deletions es + present s' ≤ present s + (writes es).length := by
  induction es generalizing s with
  | nil =>
    obtain rfl : s = s' := by simpa [runCell] using h
    simp [deletions, writes]
  | cons e es ih =>
    cases e with
    | write v =>
      have := ih (by simpa [runCell, run] using h)
      simp only [deletions_write, writes_write, List.length_cons, present_some] at this ⊢
      omega
    | delete =>
      cases s with
      | none => simp [runCell, run] at h
      | some v =>
        have := ih (by simpa [runCell, run] using h)
        simp only [deletions_delete, writes_delete, present_some, present_none] at this ⊢
        omega

/-- A cell that is written and never deleted ends with a written value. -/
theorem exists_write_of_runCell {es : List (CellEffect ν)} {s s' : Option ν}
    (h : runCell es s = some s') (hes : es ≠ []) (hdel : deletions es = 0) :
    ∃ v ∈ writes es, s' = some v := by
  induction es generalizing s with
  | nil => exact absurd rfl hes
  | cons e es ih =>
    cases e with
    | delete => simp at hdel
    | write v =>
      have h' : runCell es (some v) = some s' := by simpa [runCell, run] using h
      by_cases hnil : es = []
      · subst hnil
        exact ⟨v, by simp, by simpa [runCell] using h'.symm⟩
      · obtain ⟨w, hw, heq⟩ := ih h' hnil (by simpa using hdel)
        exact ⟨w, by simp [hw], heq⟩

theorem perm_writes_deletions (es : List (CellEffect ν)) :
    es.Perm ((writes es).map write ++ List.replicate (deletions es) delete) := by
  induction es with
  | nil => simp [writes, deletions]
  | cons e es ih =>
    cases e with
    | write v => simpa using ih.cons (write v)
    | delete =>
      rw [writes_delete, deletions_delete, List.replicate_succ]
      exact (ih.cons delete).trans List.perm_middle.symm

theorem perm_of_writes {es es' : List (CellEffect ν)} (hw : (writes es).Perm (writes es'))
    (hd : deletions es = deletions es') : es.Perm es' := by
  refine (perm_writes_deletions es).trans (.trans ?_ (perm_writes_deletions es').symm)
  rw [hd]
  exact (hw.map _).append_right _

/-- Write and delete in turn as long as something is to be deleted. -/
def alternate : List ν → ℕ → List (CellEffect ν)
  | [], n => List.replicate n delete
  | v :: vs, 0 => write v :: alternate vs 0
  | v :: vs, n + 1 => write v :: delete :: alternate vs n

/-- An order that deletes as soon as it can. -/
def arrange (s : Option ν) (vs : List ν) : ℕ → List (CellEffect ν)
  | 0 => alternate vs 0
  | n + 1 => if s.isSome then delete :: alternate vs n else alternate vs (n + 1)

theorem writes_alternate (vs : List ν) (n : ℕ) : writes (alternate vs n) = vs := by
  induction vs generalizing n with
  | nil =>
    induction n with
    | zero => rfl
    | succ n ih => simpa [alternate, List.replicate_succ] using ih
  | cons v vs ih => cases n <;> simp [alternate, ih]

theorem deletions_alternate (vs : List ν) (n : ℕ) : deletions (alternate vs n) = n := by
  induction vs generalizing n with
  | nil =>
    induction n with
    | zero => rfl
    | succ n ih => simpa [alternate, List.replicate_succ] using ih
  | cons v vs ih => cases n <;> simp [alternate, ih]

theorem writes_arrange (s : Option ν) (vs : List ν) (n : ℕ) : writes (arrange s vs n) = vs := by
  cases n with
  | zero => exact writes_alternate vs 0
  | succ n =>
    unfold arrange
    split_ifs <;> simp [writes_alternate]

theorem deletions_arrange (s : Option ν) (vs : List ν) (n : ℕ) :
    deletions (arrange s vs n) = n := by
  cases n with
  | zero => exact deletions_alternate vs 0
  | succ n =>
    unfold arrange
    split_ifs <;> simp [deletions_alternate]

theorem present_pos {s : Option ν} : 0 < present s ↔ s.isSome = true := by
  cases s <;> simp

theorem runCell_alternate {vs : List ν} {n : ℕ} (s : Option ν) (h : n ≤ vs.length)
    (hs : s = none ∨ n = 0) :
    ∃ s', runCell (alternate vs n) s = some s' ∧
      (n < present s + vs.length → s'.isSome = true) := by
  induction vs generalizing n s with
  | nil =>
    obtain rfl : n = 0 := by simpa using h
    exact ⟨s, rfl, fun hpos => present_pos.mp (by simpa using hpos)⟩
  | cons v vs ih =>
    cases n with
    | zero =>
      obtain ⟨s', hrun, hsome⟩ := ih (n := 0) (some v) (by simp) (.inr rfl)
      exact ⟨s', hrun, fun _ => hsome (by simp only [present_some]; omega)⟩
    | succ n =>
      obtain rfl : s = none := by simpa using hs
      rw [List.length_cons] at h
      obtain ⟨s', hrun, hsome⟩ := ih (n := n) none (by omega) (.inl rfl)
      refine ⟨s', hrun, fun hlt => hsome ?_⟩
      simp only [present_none, List.length_cons] at hlt ⊢
      omega

/-- Deletions that are not too many can be ordered so that none of them fails, and a value
is left when there could have been one more. -/
theorem runCell_arrange {s : Option ν} {vs : List ν} {n : ℕ} (h : n ≤ present s + vs.length) :
    ∃ s', runCell (arrange s vs n) s = some s' ∧
      (n < present s + vs.length → s'.isSome = true) := by
  cases n with
  | zero => exact runCell_alternate s (by omega) (.inr rfl)
  | succ n =>
    cases s with
    | none => exact runCell_alternate none (by simpa using h) (.inl rfl)
    | some v =>
      rw [present_some] at h ⊢
      have hfew : n ≤ vs.length := by omega
      obtain ⟨s', hrun, hsome⟩ := runCell_alternate none hfew (.inl rfl)
      refine ⟨s', hrun, fun hlt => hsome ?_⟩
      rw [present_none]
      omega

variable {es : List (CellEffect ν)} {s : Option ν}

theorem exists_order (h : deletions es ≤ present s + (writes es).length) :
    ∃ order, order.Perm es ∧ ∃ s', runCell order s = some s' := by
  obtain ⟨s', hrun, -⟩ := runCell_arrange h
  refine ⟨_, perm_of_writes ?_ ?_, s', hrun⟩
  · rw [writes_arrange]
  · rw [deletions_arrange]

/-- A deletion can come last. -/
theorem exists_order_none (h : deletions es ≤ present s + (writes es).length)
    (hdel : deletions es ≠ 0) : ∃ order, order.Perm es ∧ runCell order s = some none := by
  obtain ⟨n, hn⟩ := Nat.exists_eq_succ_of_ne_zero hdel
  have hfew : n ≤ present s + (writes es).length := by omega
  obtain ⟨s', hrun, hsome⟩ := runCell_arrange hfew
  obtain ⟨v, rfl⟩ := Option.isSome_iff_exists.mp (hsome (by omega))
  refine ⟨arrange s (writes es) n ++ [delete], perm_of_writes ?_ ?_, ?_⟩
  · rw [writes_append, writes_arrange, writes_delete]
    simp [writes]
  · rw [deletions_append, deletions_arrange, hn]
    rfl
  · simp [runCell_append, hrun, runCell, run]

/-- A write can come last when a deletion could still be added. -/
theorem exists_order_some [DecidableEq ν] (h : deletions es < present s + (writes es).length)
    {v : ν} (hv : v ∈ writes es) : ∃ order, order.Perm es ∧ runCell order s = some (some v) := by
  have hlen := List.length_erase_of_mem hv
  have hpos := List.length_pos_of_mem hv
  have hfew : deletions es ≤ present s + ((writes es).erase v).length := by omega
  obtain ⟨s', hrun, -⟩ := runCell_arrange hfew
  refine ⟨arrange s ((writes es).erase v) (deletions es) ++ [write v], perm_of_writes ?_ ?_, ?_⟩
  · rw [writes_append, writes_arrange]
    exact List.perm_append_comm.trans (List.perm_cons_erase hv).symm
  · rw [deletions_append, deletions_arrange]
    rfl
  · simp [runCell_append, hrun, runCell, run]

/-! ## Many cells -/

variable {π : Type*} [DecidableEq π]

/-- The effects on one cell, in order. -/
def effectsAt (p : π) (ops : List (π × CellEffect ν)) : List (CellEffect ν) :=
  ops.filterMap fun op => if op.1 = p then some op.2 else none

def runAll : List (π × CellEffect ν) → (π → Option ν) → Option (π → Option ν)
  | [], cells => some cells
  | op :: ops, cells => (op.2.run (cells op.1)).bind fun s => runAll ops (Function.update cells op.1 s)

theorem effectsAt_cons_self (p : π) (e : CellEffect ν) (ops : List (π × CellEffect ν)) :
    effectsAt p ((p, e) :: ops) = e :: effectsAt p ops := by
  simp [effectsAt]

theorem effectsAt_cons_ne {p q : π} (h : q ≠ p) (e : CellEffect ν)
    (ops : List (π × CellEffect ν)) : effectsAt p ((q, e) :: ops) = effectsAt p ops := by
  simp [effectsAt, h]

theorem effectsAt_perm {ops ops' : List (π × CellEffect ν)} (h : ops.Perm ops') (p : π) :
    (effectsAt p ops).Perm (effectsAt p ops') := h.filterMap _

theorem effectsAt_ne_nil_iff {p : π} {ops : List (π × CellEffect ν)} :
    effectsAt p ops ≠ [] ↔ p ∈ ops.map Prod.fst := by
  simp [effectsAt, List.filterMap_eq_nil_iff]

/-- The cells run independently. -/
theorem runAll_eq_some_iff {ops : List (π × CellEffect ν)} {cells cells' : π → Option ν} :
    runAll ops cells = some cells' ↔
      ∀ p, runCell (effectsAt p ops) (cells p) = some (cells' p) := by
  induction ops generalizing cells with
  | nil => simp [runAll, effectsAt, runCell, funext_iff]
  | cons op ops ih =>
    obtain ⟨q, e⟩ := op
    constructor
    · intro h p
      obtain ⟨s, hs, hrest⟩ := Option.bind_eq_some_iff.mp h
      have hp := ih.mp hrest p
      by_cases hqp : q = p
      · subst hqp
        rw [effectsAt_cons_self, runCell, hs]
        simpa using hp
      · rw [effectsAt_cons_ne hqp]
        rwa [Function.update_of_ne (Ne.symm hqp)] at hp
    · intro h
      have hq := h q
      rw [effectsAt_cons_self, runCell] at hq
      obtain ⟨s, hs, hrest⟩ := Option.bind_eq_some_iff.mp hq
      simp only [runAll, hs, Option.bind_some]
      refine ih.mpr fun p => ?_
      by_cases hqp : q = p
      · subst hqp
        simpa using hrest
      · rw [Function.update_of_ne (Ne.symm hqp), ← effectsAt_cons_ne hqp e]
        exact h p

/-- An order for each cell comes from an order of the whole list. -/
theorem exists_interleaving {ops : List (π × CellEffect ν)} {orders : π → List (CellEffect ν)}
    (h : ∀ p, (orders p).Perm (effectsAt p ops)) :
    ∃ order, order.Perm ops ∧ ∀ p, effectsAt p order = orders p := by
  induction ops generalizing orders with
  | nil => exact ⟨[], .nil, fun p => (List.perm_nil.mp (h p)).symm⟩
  | cons op ops ih =>
    obtain ⟨q, e⟩ := op
    have hq := h q
    rw [effectsAt_cons_self] at hq
    obtain ⟨front, back, hsplit⟩ := List.append_of_mem (hq.mem_iff.mpr List.mem_cons_self)
    have hothers : ∀ p, (Function.update orders q (front ++ back) p).Perm (effectsAt p ops) := by
      intro p
      by_cases hqp : q = p
      · subst hqp
        rw [Function.update_self]
        rw [hsplit] at hq
        exact (List.perm_cons e).mp (List.perm_middle.symm.trans hq)
      · rw [Function.update_of_ne (Ne.symm hqp), ← effectsAt_cons_ne hqp e]
        exact h p
    -- the order of the other effects, into which `e` goes behind `front`
    obtain ⟨order, hperm, horder⟩ := ih hothers
    have hself := horder q
    rw [Function.update_self] at hself
    obtain ⟨before, behind, rfl, hbefore, hbehind⟩ := List.filterMap_eq_append_iff.mp hself
    refine ⟨before ++ (q, e) :: behind, List.perm_middle.trans (hperm.cons _), fun p => ?_⟩
    by_cases hqp : q = p
    · subst hqp
      rw [hsplit, ← hbefore, ← hbehind]
      simp [effectsAt]
    · have := horder p
      rw [Function.update_of_ne (Ne.symm hqp)] at this
      rw [← this]
      simp [effectsAt, hqp]

/-- Cells that can each be run can be run together, with one of them in a chosen order. -/
theorem exists_runAll {ops : List (π × CellEffect ν)} {cells : π → Option ν}
    (h : ∀ p, deletions (effectsAt p ops) ≤ present (cells p) + (writes (effectsAt p ops)).length)
    {q : π} {chosen : List (CellEffect ν)} (hchosen : chosen.Perm (effectsAt q ops))
    {s : Option ν} (hrun : runCell chosen (cells q) = some s) :
    ∃ order, order.Perm ops ∧ ∃ cells', runAll order cells = some cells' ∧ cells' q = s := by
  choose orders hperm finals hfinals using fun p => exists_order (h p)
  have horders : ∀ p, (Function.update orders q chosen p).Perm (effectsAt p ops) := by
    intro p
    by_cases hqp : q = p
    · subst hqp
      rwa [Function.update_self]
    · rw [Function.update_of_ne (Ne.symm hqp)]
      exact hperm p
  obtain ⟨order, horder, hat⟩ := exists_interleaving horders
  refine ⟨order, horder, Function.update finals q s, runAll_eq_some_iff.mpr fun p => ?_, by simp⟩
  rw [hat p]
  by_cases hqp : q = p
  · subst hqp
    simpa using hrun
  · simpa [Function.update_of_ne (Ne.symm hqp)] using hfinals p

/-- Every order of the effects that runs leaves each affected cell as `wanted` says: with
every value it lists, or without one when it lists none. -/
def EveryOrderLeaves (ops : List (π × CellEffect ν)) (cells : π → Option ν)
    (wanted : π → List ν) : Prop :=
  ∀ order, order.Perm ops → ∀ cells', runAll order cells = some cells' →
    ∀ p ∈ ops.map Prod.fst, (∀ v ∈ wanted p, cells' p = some v) ∧ (wanted p = [] → cells' p = none)

/-- The effects on a cell that end alike in every order: writes of the one value that is
wanted, or as many deletions as can ever succeed when none is. -/
def EndsAlike (es : List (CellEffect ν)) (s : Option ν) (wanted : List ν) : Prop :=
  (deletions es = 0 ∧ wanted ≠ [] ∧ ∀ v ∈ wanted, ∀ w ∈ writes es, w = v) ∨
    (deletions es = present s + (writes es).length ∧ wanted = [])

theorem EndsAlike.leaves {es : List (CellEffect ν)} {s s' : Option ν} {wanted : List ν}
    (h : EndsAlike es s wanted) (hes : es ≠ []) (hrun : runCell es s = some s') :
    (∀ v ∈ wanted, s' = some v) ∧ (wanted = [] → s' = none) := by
  rcases h with ⟨hdel, hne, hall⟩ | ⟨hdel, hnil⟩
  · obtain ⟨w, hw, rfl⟩ := exists_write_of_runCell hrun hes hdel
    exact ⟨fun v hv => by rw [hall v hv w hw], fun hnil => absurd hnil hne⟩
  · have := deletions_add_present_le hrun
    have hzero : s' = none := present_eq_zero.mp (by omega)
    exact ⟨by simp [hnil], fun _ => hzero⟩

theorem EndsAlike.perm {es es' : List (CellEffect ν)} {s : Option ν} {wanted : List ν}
    (h : EndsAlike es s wanted) (hperm : es.Perm es') : EndsAlike es' s wanted := by
  unfold EndsAlike at h ⊢
  rw [← deletions_perm hperm, ← (writes_perm hperm).length_eq]
  simpa only [(writes_perm hperm).mem_iff] using h

theorem everyOrderLeaves_iff [DecidableEq ν] {ops : List (π × CellEffect ν)}
    {cells : π → Option ν} {wanted : π → List ν} :
    EveryOrderLeaves ops cells wanted ↔
      (∃ p, present (cells p) + (writes (effectsAt p ops)).length < deletions (effectsAt p ops)) ∨
        ∀ p ∈ ops.map Prod.fst, EndsAlike (effectsAt p ops) (cells p) (wanted p) := by
  constructor
  · intro h
    by_cases hmany : ∃ p, present (cells p) + (writes (effectsAt p ops)).length <
        deletions (effectsAt p ops)
    · exact .inl hmany
    push Not at hmany
    refine .inr fun p hp => ?_
    have hne := effectsAt_ne_nil_iff.mpr hp
    -- every order of the effects on `p` that runs is part of an order that runs
    have hends : ∀ {chosen s}, chosen.Perm (effectsAt p ops) → runCell chosen (cells p) = some s →
        (∀ v ∈ wanted p, s = some v) ∧ (wanted p = [] → s = none) := by
      intro chosen s hperm hrun
      obtain ⟨order, horder, cells', hall, rfl⟩ := exists_runAll hmany hperm hrun
      exact h order horder cells' hall p hp
    have hlast : ∀ w ∈ writes (effectsAt p ops), deletions (effectsAt p ops) <
        present (cells p) + (writes (effectsAt p ops)).length →
        (∀ v ∈ wanted p, w = v) ∧ wanted p ≠ [] := by
      intro w hw hlt
      obtain ⟨chosen, hperm, hrun⟩ := exists_order_some hlt hw
      have := hends hperm hrun
      exact ⟨fun v hv => Option.some_inj.mp (this.1 v hv), fun hnil => by simpa using this.2 hnil⟩
    by_cases hdel : deletions (effectsAt p ops) = 0
    · obtain ⟨w, hw⟩ := exists_mem_writes hne hdel
      have hpos := List.length_pos_of_mem hw
      refine .inl ⟨hdel, (hlast w hw (by omega)).2, fun v hv w' hw' => ?_⟩
      exact (hlast w' hw' (by omega)).1 v hv
    · obtain ⟨chosen, hperm, hrun⟩ := exists_order_none (hmany p) hdel
      have hnil : wanted p = [] :=
        List.eq_nil_iff_forall_not_mem.mpr fun v hv => by simpa using (hends hperm hrun).1 v hv
      refine .inr ⟨?_, hnil⟩
      by_contra hfew
      have hlt := lt_of_le_of_ne (hmany p) hfew
      have hle := present_le_one (cells p)
      obtain ⟨w, hw⟩ := List.exists_mem_of_length_pos (l := writes (effectsAt p ops)) (by omega)
      exact (hlast w hw hlt).2 hnil
  · intro h order hperm cells' hrun p hp
    have hcell := runAll_eq_some_iff.mp hrun
    have heffects := effectsAt_perm hperm
    rcases h with ⟨q, hmany⟩ | halike
    · have := deletions_add_present_le (hcell q)
      rw [deletions_perm (heffects q), (writes_perm (heffects q)).length_eq] at this
      omega
    · refine ((halike p hp).perm (heffects p).symm).leaves ?_ (hcell p)
      exact fun hnil => effectsAt_ne_nil_iff.mpr hp (List.perm_nil.mp (hnil ▸ heffects p).symm)

end Mago.Library
