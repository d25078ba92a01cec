import Mago.Algebra.Clause
import Mathlib

/-!
# Clauses about variables of mixed types

The clauses about parts of a variable that has become mixed are replaced by wedges, unless the
clause is about the variable itself. The list of variables is narrowed from clause to clause, so
a clause about a variable protects the clauses after it.
-/
namespace Mago.Algebra
open Library

/-- The variable is the root or a part of it. -/
def varHasRoot (varId rootVarId : Word) : Bool :=
  if varId == rootVarId then true
  else if !rootVarId.isPrefixOf varId then false
  else
    let afterRoot := varId.drop rootVarId.length
    (word "->").isPrefixOf afterRoot || (word "::").isPrefixOf afterRoot ||
      (word "[").isPrefixOf afterRoot

variable {Atomic Union : Type} (S : FixedState)

namespace Clause

/-- The variables that are left once the clause was seen. -/
def retainMixed (c : Clause Atomic Union) (mixedVarIds : List Word) : List Word :=
  mixedVarIds.filter fun id => !c.possibilities.containsKey id

/-- A variable of the clause has a mixed root. -/
def hasMixedRoot (c : Clause Atomic Union) (mixedVarIds : List Word) : Bool :=
  c.possibilities.keys.any fun key => mixedVarIds.any fun id => varHasRoot key id

def wedgeAt (condObjectId : Span) : Clause Atomic Union :=
  new S .empty condObjectId condObjectId (some true) none none

end Clause

/-- The closure of the source, with the variables that are left for the next clause. -/
def removeMixed (condObjectId : Span) (mixedVarIds : List Word) (c : Clause Atomic Union) :
    List Word × Clause Atomic Union :=
  let mixedVarIds := c.retainMixed mixedVarIds
  (mixedVarIds, if c.hasMixedRoot mixedVarIds then .wedgeAt S condObjectId else c)

def removeClausesWithMixedVariables (clauses : List (Clause Atomic Union))
    (mixedVarIds : List Word) (condObjectId : Span) : List (Clause Atomic Union) :=
  match clauses with
  | [] => []
  | c :: clauses =>
    let r := removeMixed S condObjectId mixedVarIds c
    r.2 :: removeClausesWithMixedVariables clauses r.1 condObjectId

variable {S} {clauses before after : List (Clause Atomic Union)} {c d : Clause Atomic Union}
  {ids ids' : List Word} {objectId : Span}

namespace Clause

theorem mem_retainMixed {id : Word} :
    id ∈ c.retainMixed ids ↔ id ∈ ids ∧ id ∉ c.possibilities.keys := by
  simp [retainMixed, ← OrderedMap.containsKey_iff]

theorem hasMixedRoot_iff : c.hasMixedRoot ids = true ↔
    ∃ key ∈ c.possibilities.keys, ∃ id ∈ ids, varHasRoot key id = true := by
  simp [hasMixedRoot]

theorem hasMixedRoot_mono (hsub : ids ⊆ ids') (h : c.hasMixedRoot ids = true) :
    c.hasMixedRoot ids' = true := by
  rw [hasMixedRoot_iff] at h ⊢
  obtain ⟨key, hkey, id, hid, hroot⟩ := h
  exact ⟨key, hkey, id, hsub hid, hroot⟩

/-- A wedge is about no variable, so no clause that is replaced is one. -/
theorem ne_wedgeAt_of_hasMixedRoot (h : c.hasMixedRoot ids = true) : c ≠ wedgeAt S objectId := by
  intro heq
  rw [heq, hasMixedRoot_iff] at h
  obtain ⟨key, hkey, _⟩ := h
  cases hkey

end Clause

/-- The variables left after some clauses. -/
def retained (ids : List Word) (clauses : List (Clause Atomic Union)) : List Word :=
  clauses.foldl (fun ids c => c.retainMixed ids) ids

theorem mem_retained {id : Word} :
    id ∈ retained ids clauses ↔ id ∈ ids ∧ ∀ c ∈ clauses, id ∉ c.possibilities.keys := by
  induction clauses generalizing ids with
  | nil => simp [retained]
  | cons c clauses ih =>
    change id ∈ retained (c.retainMixed ids) clauses ↔ _
    rw [ih, Clause.mem_retainMixed]
    simp [and_assoc]

theorem removeClauses_append :
    removeClausesWithMixedVariables S (before ++ after) ids objectId =
      removeClausesWithMixedVariables S before ids objectId ++
        removeClausesWithMixedVariables S after (retained ids before) objectId := by
  induction before generalizing ids with
  | nil => rfl
  | cons c before ih =>
    rw [List.cons_append, removeClausesWithMixedVariables, ih]
    rfl

/-- What happens to the clause when it stands alone. -/
def removeAlone (S : FixedState) (ids : List Word) (objectId : Span) (c : Clause Atomic Union) :
    Clause Atomic Union := (removeMixed S objectId ids c).2

/-- In every order of the clauses each is treated as if it stood alone. -/
def ClauseWise (S : FixedState) (clauses : List (Clause Atomic Union)) (ids : List Word)
    (objectId : Span) : Prop :=
  ∀ clauses', clauses'.Perm clauses → removeClausesWithMixedVariables S clauses' ids objectId =
    clauses'.map (removeAlone S ids objectId)

/-- A clause that is replaced when it stands alone is about a part of a mixed variable that no
clause of the list is about. -/
def Unprotected (clauses : List (Clause Atomic Union)) (ids : List Word) : Prop :=
  ∀ c ∈ clauses, c.hasMixedRoot (c.retainMixed ids) = true →
    c.hasMixedRoot (retained ids clauses) = true

theorem removeClauses_eq_map (h : ∀ c ∈ clauses, c.hasMixedRoot (c.retainMixed ids) = true →
      c.hasMixedRoot (retained ids' clauses) = true) (hsub : ids' ⊆ ids) :
    removeClausesWithMixedVariables S clauses ids' objectId =
      clauses.map (removeAlone S ids objectId) := by
  induction clauses generalizing ids' with
  | nil => rfl
  | cons c clauses ih =>
    have hnarrow : c.retainMixed ids' ⊆ c.retainMixed ids := by
      intro id hid
      rw [Clause.mem_retainMixed] at hid ⊢
      exact ⟨hsub hid.1, hid.2⟩
    have hnext : c.retainMixed ids' ⊆ ids :=
      fun id hid => (Clause.mem_retainMixed.mp (hnarrow hid)).1
    have hhead : c.hasMixedRoot (c.retainMixed ids') = c.hasMixedRoot (c.retainMixed ids) := by
      apply Bool.eq_iff_iff.mpr
      constructor
      · exact Clause.hasMixedRoot_mono hnarrow
      · intro hroot
        refine Clause.hasMixedRoot_mono (fun id hid => ?_) (h c (by simp) hroot)
        obtain ⟨hid, hkeys⟩ := mem_retained.mp hid
        exact Clause.mem_retainMixed.mpr ⟨hid, hkeys c (by simp)⟩
    rw [removeClausesWithMixedVariables, List.map_cons]
    congr 1
    · simp only [removeMixed, removeAlone, hhead]
    · exact ih (fun d hd hroot => h d (by simp [hd]) hroot) hnext

/-- The law holds of a list exactly where no clause is protected by another one. -/
theorem clauseWise_iff (S : FixedState) (clauses : List (Clause Atomic Union)) (ids : List Word)
    (objectId : Span) : ClauseWise S clauses ids objectId ↔ Unprotected clauses ids := by
  constructor
  · intro h c hc hroot
    by_contra hprotected
    obtain ⟨before, after, rfl⟩ := List.append_of_mem hc
    -- with the clause in the last place all others come before it
    have hperm : ((before ++ after) ++ [c]).Perm (before ++ c :: after) := by
      rw [List.append_assoc]
      exact (List.perm_append_comm.append_left before)
    have hlast := h _ hperm
    rw [removeClauses_append, List.map_append] at hlast
    have hwise := (List.append_inj' hlast rfl).2
    simp only [removeClausesWithMixedVariables, removeMixed, removeAlone, List.map_cons,
      List.map_nil, List.cons.injEq, and_true, hroot, if_true] at hwise
    split_ifs at hwise with hleft
    · refine hprotected (Clause.hasMixedRoot_mono (fun id hid => ?_) hleft)
      obtain ⟨hid, hkeys⟩ := Clause.mem_retainMixed.mp hid
      obtain ⟨hid, hothers⟩ := mem_retained.mp hid
      refine mem_retained.mpr ⟨hid, fun d hd => ?_⟩
      rcases List.mem_append.mp hd with hd | hd
      · exact hothers d (List.mem_append_left _ hd)
      · rcases List.mem_cons.mp hd with rfl | hd
        · exact hkeys
        · exact hothers d (List.mem_append_right _ hd)
    · exact Clause.ne_wedgeAt_of_hasMixedRoot hroot hwise
  · intro h clauses' hperm
    refine removeClauses_eq_map (fun c hc hroot => ?_) (List.Subset.refl ids)
    refine Clause.hasMixedRoot_mono (fun id hid => ?_) (h c (hperm.mem_iff.mp hc) hroot)
    obtain ⟨hid, hkeys⟩ := mem_retained.mp hid
    exact mem_retained.mpr ⟨hid, fun d hd => hkeys d (hperm.mem_iff.mp hd)⟩

/-- A clause about a variable and one about a part of it. -/
def variableAndPart : List (Clause Word Word) :=
  [truthClause byteHash [("$a", true)], truthClause byteHash [("$a->b", true)]]

/-- The part is replaced when it comes first and kept when it comes second. -/
theorem part_protected_by_order :
    ¬ ClauseWise byteHash variableAndPart [word "$a"] ⟨7, 9⟩ := by
  intro h
  have hkept := h variableAndPart (List.Perm.refl _)
  revert hkept
  decide

end Mago.Algebra
