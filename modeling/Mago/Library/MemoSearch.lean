import Mathlib.Data.Finset.Card
import Mathlib.Data.Finset.SDiff
import Mathlib.Logic.Function.Basic
import Mathlib.Logic.Relation

/-!
# Depth-first searches with a cache

A depth-first search for the source of a vertex, which gives up on the vertices of the active path
and so depends on the path where the graph has cycles. The search with a cache keeps the sources
that no cycle influenced. It finds what the search without one finds, unless it takes a source from
the cache that was found by way of a vertex of the active path.
-/
namespace Mago.Library.MemoSearch

variable {α : Type*} [DecidableEq α]

structure Graph (α : Type*) where
  sources : α → List α
  declared : α → Bool
  /-- Whether a source that was found may give way to another vertex. -/
  replaces : α → α → Bool

namespace Graph

variable (g : Graph α)

/-- A found source that does not give way. -/
def skips (source : Option α) (ancestor : α) : Bool :=
  source.any fun current => !g.replaces current ancestor

end Graph

/-! ## The search without a cache -/

/-- What a search found, whether it met the active path, and the vertices it asked about. -/
structure Outcome (α : Type*) where
  source : Option α
  cyclic : Bool
  asked : List α

namespace Graph

variable (g : Graph α)

/-- A declared vertex is a source itself. -/
def inherited (recurse : α → Outcome α) (ancestor : α) : Outcome α :=
  if g.declared ancestor then ⟨some ancestor, false, []⟩ else recurse ancestor

def visit (recurse : α → Outcome α) (path : List α) (found : Outcome α) (ancestor : α) :
    Outcome α :=
  if g.skips found.source ancestor then found
  else if ancestor ∈ path then
    { found with cyclic := true, asked := found.asked ++ [ancestor] }
  else
    let inherited := g.inherited recurse ancestor
    { source := inherited.source.or found.source
      cyclic := found.cyclic || inherited.cyclic
      asked := found.asked ++ ancestor :: inherited.asked }

def search : ℕ → List α → α → Outcome α
  | 0, _, _ => ⟨none, true, []⟩
  | fuel + 1, path, a =>
    if a ∈ path then ⟨none, true, []⟩
    else (g.sources a).foldl (g.visit (search fuel (a :: path)) (a :: path)) ⟨none, false, []⟩

end Graph

/-! ## The search with a cache -/

abbrev Cache (α : Type*) := α → Option (Option α)

structure Found (α : Type*) where
  source : Option α
  cyclic : Bool
  cache : Cache α

/-- A source that a cycle may have influenced is not kept. -/
def Found.keep (a : α) (found : Found α) : Found α :=
  if found.cyclic then found
  else { found with cache := Function.update found.cache a (some found.source) }

namespace Graph

variable (g : Graph α)

def inheritedFrom (recurse : α → Cache α → Found α) (ancestor : α) (cache : Cache α) : Found α :=
  if g.declared ancestor then ⟨some ancestor, false, cache⟩ else recurse ancestor cache

def lookUp (recurse : α → Cache α → Found α) (path : List α) (found : Found α) (ancestor : α) :
    Found α :=
  if g.skips found.source ancestor then found
  else if ancestor ∈ path then { found with cyclic := true }
  else
    let inherited := g.inheritedFrom recurse ancestor found.cache
    { source := inherited.source.or found.source
      cyclic := found.cyclic || inherited.cyclic
      cache := inherited.cache }

def find : ℕ → List α → α → Cache α → Found α
  | 0, _, _, cache => ⟨none, true, cache⟩
  | fuel + 1, path, a, cache =>
    match cache a with
    | some source => ⟨source, false, cache⟩
    | none =>
      if a ∈ path then ⟨none, true, cache⟩
      else
        ((g.sources a).foldl (g.lookUp (find fuel (a :: path)) (a :: path))
          ⟨none, false, cache⟩).keep a

end Graph

/-! ## Searches that meet no active vertex -/

section Clean

variable {g : Graph α}

theorem search_succ {fuel : ℕ} {path : List α} {a : α} (h : a ∉ path) :
    g.search (fuel + 1) path a =
      (g.sources a).foldl (g.visit (g.search fuel (a :: path)) (a :: path)) ⟨none, false, []⟩ := by
  rw [Graph.search, if_neg h]

theorem asked_visit {recurse : α → Outcome α} {path : List α} {found : Outcome α} {ancestor b : α}
    (h : b ∈ found.asked) : b ∈ (g.visit recurse path found ancestor).asked := by
  unfold Graph.visit
  split_ifs
  · exact h
  · exact List.mem_append_left _ h
  · exact List.mem_append_left _ h

theorem asked_foldl {recurse : α → Outcome α} {path : List α} {ancestors : List α}
    {found : Outcome α} {b : α} (h : b ∈ found.asked) :
    b ∈ (ancestors.foldl (g.visit recurse path) found).asked := by
  induction ancestors generalizing found with
  | nil => exact h
  | cons ancestor ancestors ih => exact ih (asked_visit h)

theorem cyclic_visit {recurse : α → Outcome α} {path : List α} {found : Outcome α} {ancestor : α}
    (h : (g.visit recurse path found ancestor).cyclic = false) : found.cyclic = false := by
  unfold Graph.visit at h
  split_ifs at h
  · exact h
  · exact (Bool.or_eq_false_iff.mp h).1

theorem cyclic_foldl {recurse : α → Outcome α} {path : List α} {ancestors : List α}
    {found : Outcome α} (h : (ancestors.foldl (g.visit recurse path) found).cyclic = false) :
    found.cyclic = false := by
  induction ancestors generalizing found with
  | nil => exact h
  | cons ancestor ancestors ih => exact cyclic_visit (ih h)

/-- What a step of the loop does when it meets no active vertex. -/
theorem visit_cases {recurse : α → Outcome α} {path : List α} {found : Outcome α} {ancestor : α}
    (h : (g.visit recurse path found ancestor).cyclic = false) :
    g.skips found.source ancestor = true ∧ g.visit recurse path found ancestor = found ∨
      g.skips found.source ancestor = false ∧ ancestor ∉ path ∧
        (g.inherited recurse ancestor).cyclic = false := by
  unfold Graph.visit at h ⊢
  split_ifs at h ⊢ with hskip hpath
  · exact Or.inl ⟨hskip, rfl⟩
  · exact Or.inr ⟨by simpa using hskip, hpath, (Bool.or_eq_false_iff.mp h).2⟩

theorem asked_visit_cases {recurse : α → Outcome α} {path : List α} {found : Outcome α}
    {ancestor b : α} (h : b ∈ (g.visit recurse path found ancestor).asked) :
    b ∈ found.asked ∨ b = ancestor ∨ b ∈ (g.inherited recurse ancestor).asked := by
  unfold Graph.visit at h
  split_ifs at h with hskip hpath
  · exact Or.inl h
  · rcases List.mem_append.mp h with h | h
    · exact Or.inl h
    · exact Or.inr (Or.inl (List.mem_singleton.mp h))
  · rcases List.mem_append.mp h with h | h
    · exact Or.inl h
    · exact Or.inr (List.mem_cons.mp h)

/-- A search that is not cyclic asked about no vertex of the path. -/
theorem asked_not_mem (fuel : ℕ) (path : List α) (a : α)
    (h : (g.search fuel path a).cyclic = false) :
    a ∉ path ∧ ∀ b ∈ (g.search fuel path a).asked, b ∉ a :: path := by
  induction fuel generalizing path a with
  | zero => cases h
  | succ fuel ih =>
    rw [Graph.search] at h ⊢
    split at h
    · cases h
    · rename_i hpath
      rw [if_neg hpath]
      refine ⟨hpath, ?_⟩
      have hloop : ∀ (ancestors : List α) (found : Outcome α),
          (∀ b ∈ found.asked, b ∉ a :: path) →
          (ancestors.foldl (g.visit (g.search fuel (a :: path)) (a :: path)) found).cyclic =
            false →
          ∀ b ∈ (ancestors.foldl (g.visit (g.search fuel (a :: path)) (a :: path)) found).asked,
            b ∉ a :: path := by
        intro ancestors
        induction ancestors with
        | nil => exact fun found hfound _ => hfound
        | cons ancestor ancestors ihloop =>
          intro found hfound hcyclic
          refine ihloop _ (fun b hb => ?_) hcyclic
          rcases visit_cases (cyclic_foldl hcyclic) with ⟨-, heq⟩ | ⟨-, hnot, hinherited⟩
          · exact hfound b (heq ▸ hb)
          · rcases asked_visit_cases hb with hb | rfl | hb
            · exact hfound b hb
            · exact hnot
            · rw [Graph.inherited] at hb hinherited
              split at hb
              · cases hb
              · rename_i hdeclared
                rw [if_neg hdeclared] at hinherited
                exact fun hmem => (ih _ _ hinherited).2 b hb (List.mem_cons_of_mem _ hmem)
      exact hloop _ _ (fun b hb => nomatch hb) h

/-- Such a search finds the same on every path that it asks nothing of, with any more fuel. -/
theorem search_of_not_cyclic {fuel more : ℕ} (hle : fuel ≤ more) (path other : List α) (a : α)
    (h : (g.search fuel path a).cyclic = false) (ha : a ∉ other)
    (hasked : ∀ b ∈ (g.search fuel path a).asked, b ∉ other) :
    g.search more other a = g.search fuel path a := by
  induction fuel generalizing more path other a with
  | zero => cases h
  | succ fuel ih =>
    obtain ⟨more, rfl⟩ := Nat.exists_eq_add_of_le' (Nat.le_trans (Nat.succ_pos fuel) hle)
    have hself := asked_not_mem (fuel + 1) path a h
    have hpath := hself.1
    have hnot := hself.2
    rw [search_succ hpath] at h hasked hnot ⊢
    rw [search_succ ha]
    have hloop : ∀ (ancestors : List α) (found : Outcome α),
        (ancestors.foldl (g.visit (g.search fuel (a :: path)) (a :: path)) found).cyclic = false →
        (∀ b ∈ (ancestors.foldl (g.visit (g.search fuel (a :: path)) (a :: path)) found).asked,
          b ∉ a :: other) →
        ancestors.foldl (g.visit (g.search more (a :: other)) (a :: other)) found =
          ancestors.foldl (g.visit (g.search fuel (a :: path)) (a :: path)) found := by
      intro ancestors
      induction ancestors with
      | nil => exact fun found _ _ => rfl
      | cons ancestor ancestors ihloop =>
        intro found hcyclic hall
        have hstep : g.visit (g.search more (a :: other)) (a :: other) found ancestor =
            g.visit (g.search fuel (a :: path)) (a :: path) found ancestor := by
          rcases visit_cases (cyclic_foldl hcyclic) with ⟨hskip, heq⟩ | ⟨hskip, hin, hclean⟩
          · rw [heq, Graph.visit, if_pos hskip]
          · have hfalse : ¬g.skips found.source ancestor = true := by simp [hskip]
            have hstepAsked : ∀ b, b = ancestor ∨
                b ∈ (g.inherited (g.search fuel (a :: path)) ancestor).asked → b ∉ a :: other := by
              intro b hb
              have hvisit : b ∈
                  (g.visit (g.search fuel (a :: path)) (a :: path) found ancestor).asked := by
                rw [Graph.visit, if_neg hfalse, if_neg hin]
                exact List.mem_append_right _ (List.mem_cons.mpr hb)
              rw [List.foldl_cons] at hall
              exact hall b (asked_foldl hvisit)
            have hout := hstepAsked ancestor (Or.inl rfl)
            have hinherited : g.inherited (g.search more (a :: other)) ancestor =
                g.inherited (g.search fuel (a :: path)) ancestor := by
              unfold Graph.inherited at hclean hstepAsked ⊢
              split
              · rfl
              · rename_i hdeclared
                rw [if_neg hdeclared] at hclean
                refine ih (by omega) _ _ _ hclean hout fun b hb => hstepAsked b (Or.inr ?_)
                rw [if_neg hdeclared]
                exact hb
            rw [Graph.visit, Graph.visit, if_neg hfalse, if_neg hfalse, if_neg hin, if_neg hout,
              hinherited]
        rw [List.foldl_cons, List.foldl_cons, hstep]
        exact ihloop _ hcyclic hall
    refine hloop _ _ h fun b hb hmem => ?_
    rcases List.mem_cons.mp hmem with rfl | hmem
    · exact hnot b hb List.mem_cons_self
    · exact hasked b hb hmem

/-- What a search asks about is reached by steps to a source. -/
theorem asked_reached (fuel : ℕ) (path : List α) (a : α) :
    ∀ b ∈ (g.search fuel path a).asked, Relation.TransGen (fun x y => y ∈ g.sources x) a b := by
  induction fuel generalizing path a with
  | zero => exact fun b hb => nomatch hb
  | succ fuel ih =>
    by_cases hpath : a ∈ path
    · rw [Graph.search, if_pos hpath]
      exact fun b hb => nomatch hb
    · rw [search_succ hpath]
      have hloop : ∀ (ancestors : List α) (found : Outcome α),
          (∀ x ∈ ancestors, x ∈ g.sources a) →
          (∀ b ∈ found.asked, Relation.TransGen (fun x y => y ∈ g.sources x) a b) →
          ∀ b ∈ (ancestors.foldl (g.visit (g.search fuel (a :: path)) (a :: path)) found).asked,
            Relation.TransGen (fun x y => y ∈ g.sources x) a b := by
        intro ancestors
        induction ancestors with
        | nil => exact fun found _ hfound => hfound
        | cons ancestor ancestors ihloop =>
          intro found hmem hfound
          have hedge := hmem ancestor List.mem_cons_self
          refine ihloop _ (fun x hx => hmem x (List.mem_cons_of_mem _ hx)) fun b hb => ?_
          rcases asked_visit_cases hb with hb | rfl | hb
          · exact hfound b hb
          · exact .single hedge
          · unfold Graph.inherited at hb
            split at hb
            · cases hb
            · exact Relation.TransGen.head hedge (ih _ _ b hb)
      exact hloop _ _ (fun x hx => hx) fun b hb => nomatch hb

end Clean

/-! ## Fuel -/

section Fuel

variable {g : Graph α} {vertices : Finset α}

/-- The sources of a vertex of the set are in the set. -/
def Graph.Closed (g : Graph α) (vertices : Finset α) : Prop :=
  ∀ a ∈ vertices, ∀ b ∈ g.sources a, b ∈ vertices

/-- More fuel than vertices that are not active. -/
def Enough (vertices : Finset α) (fuel : ℕ) (path : List α) : Prop :=
  (vertices \ path.toFinset).card < fuel

theorem Enough.cons {fuel : ℕ} {path : List α} {a : α} (h : Enough vertices (fuel + 1) path)
    (ha : a ∈ vertices) (hpath : a ∉ path) : Enough vertices fuel (a :: path) := by
  have hmem : a ∈ vertices \ path.toFinset :=
    Finset.mem_sdiff.mpr ⟨ha, fun hin => hpath (List.mem_toFinset.mp hin)⟩
  have hless : (vertices \ (a :: path).toFinset).card < (vertices \ path.toFinset).card := by
    refine Finset.card_lt_card (Finset.ssubset_iff_of_subset ?_ |>.mpr ⟨a, hmem, ?_⟩)
    · refine Finset.sdiff_subset_sdiff le_rfl fun x hx => ?_
      rw [List.mem_toFinset] at hx ⊢
      exact List.mem_cons_of_mem a hx
    · intro hin
      exact (Finset.mem_sdiff.mp hin).2 (List.mem_toFinset.mpr List.mem_cons_self)
  unfold Enough at h ⊢
  omega

theorem enough_nil {fuel : ℕ} (h : vertices.card < fuel) : Enough vertices fuel [] := by
  unfold Enough
  rw [List.toFinset_nil, Finset.sdiff_empty]
  exact h

theorem foldl_visit_congr {recurse other : α → Outcome α} {path : List α} {ancestors : List α}
    (h : ∀ x ∈ ancestors, recurse x = other x) (found : Outcome α) :
    ancestors.foldl (g.visit recurse path) found = ancestors.foldl (g.visit other path) found := by
  induction ancestors generalizing found with
  | nil => rfl
  | cons ancestor ancestors ih =>
    have hstep : g.visit recurse path found ancestor = g.visit other path found ancestor := by
      rw [Graph.visit, Graph.visit, Graph.inherited, Graph.inherited,
        h ancestor List.mem_cons_self]
    rw [List.foldl_cons, List.foldl_cons, hstep]
    exact ih (fun x hx => h x (List.mem_cons_of_mem _ hx)) _

/-- More fuel than enough changes nothing. -/
theorem search_of_enough (hclosed : g.Closed vertices) {fuel more : ℕ} (hle : fuel ≤ more)
    {path : List α} {a : α} (ha : a ∈ vertices) (henough : Enough vertices fuel path) :
    g.search more path a = g.search fuel path a := by
  induction fuel generalizing more path a with
  | zero => exact absurd henough (Nat.not_lt_zero _)
  | succ fuel ih =>
    obtain ⟨more, rfl⟩ := Nat.exists_eq_add_of_le' (Nat.le_trans (Nat.succ_pos fuel) hle)
    by_cases hpath : a ∈ path
    · rw [Graph.search, Graph.search, if_pos hpath, if_pos hpath]
    · rw [search_succ hpath, search_succ hpath]
      apply foldl_visit_congr
      intro x hx
      exact ih (by omega) (hclosed a ha x hx) (henough.cons ha hpath)

theorem foldl_lookUp_congr {recurse other : α → Cache α → Found α} {path : List α}
    {ancestors : List α} (h : ∀ x ∈ ancestors, recurse x = other x) (found : Found α) :
    ancestors.foldl (g.lookUp recurse path) found =
      ancestors.foldl (g.lookUp other path) found := by
  induction ancestors generalizing found with
  | nil => rfl
  | cons ancestor ancestors ih =>
    have hstep : g.lookUp recurse path found ancestor = g.lookUp other path found ancestor := by
      rw [Graph.lookUp, Graph.lookUp, Graph.inheritedFrom, Graph.inheritedFrom,
        h ancestor List.mem_cons_self]
    rw [List.foldl_cons, List.foldl_cons, hstep]
    exact ih (fun x hx => h x (List.mem_cons_of_mem _ hx)) _

theorem find_of_enough (hclosed : g.Closed vertices) {fuel more : ℕ} (hle : fuel ≤ more)
    {path : List α} {a : α} (ha : a ∈ vertices) (henough : Enough vertices fuel path) :
    g.find more path a = g.find fuel path a := by
  induction fuel generalizing more path a with
  | zero => exact absurd henough (Nat.not_lt_zero _)
  | succ fuel ih =>
    obtain ⟨more, rfl⟩ := Nat.exists_eq_add_of_le' (Nat.le_trans (Nat.succ_pos fuel) hle)
    funext cache
    rw [Graph.find, Graph.find]
    cases cache a with
    | some source => rfl
    | none =>
      by_cases hpath : a ∈ path
      · simp only [if_pos hpath]
      · simp only [if_neg hpath]
        congr 1
        apply foldl_lookUp_congr
        intro x hx
        exact ih (by omega) (hclosed a ha x hx) (henough.cons ha hpath)

end Fuel

/-! ## Both searches agree -/

section Agreement

variable (g : Graph α) (vertices : Finset α) (total : ℕ)

/-- What a vertex asks about when no vertex is active. -/
def Graph.asked (a : α) : List α := (g.search total [] a).asked

/-- The vertices among these that it searches for a source. -/
def Graph.searched (a : α) : Set α := {b | b ∈ g.asked total a ∧ g.declared b = false}

/-- The search finds the same on every path that it asks nothing of. -/
def Settled (a : α) (source : Option α) (asked : List α) : Prop :=
  a ∈ vertices ∧ ∀ fuel path, Enough vertices fuel path → a ∉ path → (∀ b ∈ asked, b ∉ path) →
    g.search fuel path a = ⟨source, false, asked⟩

/-- Cached sources are settled, and so is everything undeclared they were found by way of. -/
def Sound (cache : Cache α) : Prop :=
  ∀ a source, cache a = some source → ∃ asked, Settled g vertices a source asked ∧
    ∀ b ∈ asked, g.declared b = false → cache b ≠ none

/-- Only sources of vertices that ask nothing of the path are added to the cache. -/
structure Grows (path : List α) (cache later : Cache α) : Prop where
  kept : ∀ a, cache a ≠ none → later a = cache a
  inactive : ∀ a, cache a = none → later a ≠ none → a ∉ path
  apart : ∀ a, cache a = none → later a ≠ none → ∀ b ∈ g.asked total a, b ∉ path

/-- No active vertex is cached, and only the first one may be declared. -/
def Active (target : α) (path : List α) (cache : Cache α) : Prop :=
  ∀ a ∈ path, cache a = none ∧ (a ≠ target → g.declared a = false)

/-- No cached source of the region was found by way of the target. -/
def Fresh (target : α) (region : Set α) (cache : Cache α) : Prop :=
  ∀ a ∈ region, cache a ≠ none → target ∉ g.asked total a

structure Agrees (o : Outcome α) (f : Found α) : Prop where
  source : f.source = o.source
  cyclic : f.cyclic = o.cyclic
  sound : Sound g vertices f.cache
  cached : o.cyclic = false → ∀ b ∈ o.asked, g.declared b = false → f.cache b ≠ none

variable {g vertices total} {target : α} {region : Set α} {path : List α} {cache later : Cache α}

theorem Settled.asked_eq (htotal : vertices.card < total) {a : α} {source : Option α}
    {asked : List α} (h : Settled g vertices a source asked) : g.asked total a = asked := by
  rw [Graph.asked, h.2 total [] (enough_nil htotal) List.not_mem_nil
    fun b _ => List.not_mem_nil]

theorem settled_of_search (hclosed : g.Closed vertices) {fuel : ℕ} {a : α} (ha : a ∈ vertices)
    (h : (g.search fuel path a).cyclic = false) :
    Settled g vertices a (g.search fuel path a).source (g.search fuel path a).asked := by
  refine ⟨ha, fun more other henough hother hasked => ?_⟩
  have hfound : g.search (max fuel more) other a = g.search fuel path a :=
    search_of_not_cyclic (le_max_left _ _) path other a h hother hasked
  rw [← search_of_enough hclosed (le_max_right fuel more) ha henough, hfound]
  rw [← h]

theorem Grows.refl (path : List α) (cache : Cache α) : Grows g total path cache cache where
  kept _ _ := rfl
  inactive _ hnone hsome := absurd hnone hsome
  apart _ hnone hsome := absurd hnone hsome

theorem Grows.ne_none (h : Grows g total path cache later) {a : α} (ha : cache a ≠ none) :
    later a ≠ none := by
  rw [h.kept a ha]
  exact ha

theorem Grows.trans {last : Cache α} (h : Grows g total path cache later)
    (hlast : Grows g total path later last) : Grows g total path cache last where
  kept a ha := by
    rw [hlast.kept a (h.ne_none ha), h.kept a ha]
  inactive a hnone hsome := by
    by_cases hlater : later a = none
    · exact hlast.inactive a hlater hsome
    · exact h.inactive a hnone hlater
  apart a hnone hsome := by
    by_cases hlater : later a = none
    · exact hlast.apart a hlater hsome
    · exact h.apart a hnone hlater

theorem Grows.of_cons {a : α} (h : Grows g total (a :: path) cache later) :
    Grows g total path cache later where
  kept := h.kept
  inactive b hnone hsome hmem := h.inactive b hnone hsome (List.mem_cons_of_mem a hmem)
  apart b hnone hsome c hc hmem := h.apart b hnone hsome c hc (List.mem_cons_of_mem a hmem)

theorem Active.grows (h : Active g target path cache) (hgrows : Grows g total path cache later) :
    Active g target path later := by
  intro a ha
  refine ⟨?_, (h a ha).2⟩
  by_contra hsome
  exact hgrows.inactive a (h a ha).1 hsome ha

theorem Fresh.grows (h : Fresh g total target region cache)
    (hgrows : Grows g total path cache later) (htarget : target ∈ path) :
    Fresh g total target region later := by
  intro a ha hsome hasked
  by_cases hnone : cache a = none
  · exact hgrows.apart a hnone hsome target hasked htarget
  · exact h a ha hnone hasked

/-- What both searches do for the ancestors of a vertex is the same when it is for each. -/
theorem foldl_agrees {recurse : α → Outcome α} {lookUp : α → Cache α → Found α}
    (htarget : target ∈ path)
    (hrec : ∀ a cache, a ∈ vertices → a ∉ path → g.declared a = false → a ∈ region →
      (∀ b ∈ (recurse a).asked, g.declared b = false → b ∈ region) → Sound g vertices cache →
      Active g target path cache → Fresh g total target region cache →
      Agrees g vertices (recurse a) (lookUp a cache) ∧
        Grows g total path cache (lookUp a cache).cache ∧
        ((recurse a).cyclic = false → (lookUp a cache).cache a ≠ none))
    (ancestors : List α) (hancestors : ∀ a ∈ ancestors, a ∈ vertices) (o : Outcome α)
    (f : Found α) (hagrees : Agrees g vertices o f) (hactive : Active g target path f.cache)
    (hfresh : Fresh g total target region f.cache)
    (hregion : ∀ b ∈ (ancestors.foldl (g.visit recurse path) o).asked,
      g.declared b = false → b ∈ region) :
    Agrees g vertices (ancestors.foldl (g.visit recurse path) o)
        (ancestors.foldl (g.lookUp lookUp path) f) ∧
      Grows g total path f.cache (ancestors.foldl (g.lookUp lookUp path) f).cache := by
  induction ancestors generalizing o f with
  | nil => exact ⟨hagrees, Grows.refl path f.cache⟩
  | cons ancestor ancestors ih =>
    rw [List.foldl_cons] at hregion
    have hvisited : ∀ b ∈ (g.visit recurse path o ancestor).asked,
        g.declared b = false → b ∈ region := fun b hb => hregion b (asked_foldl hb)
    have hstep : Agrees g vertices (g.visit recurse path o ancestor)
        (g.lookUp lookUp path f ancestor) ∧
        Grows g total path f.cache (g.lookUp lookUp path f ancestor).cache := by
      unfold Graph.visit at hvisited ⊢
      unfold Graph.lookUp
      rw [hagrees.source]
      split_ifs at hvisited ⊢ with hskip hpath
      · exact ⟨hagrees, Grows.refl path f.cache⟩
      · refine ⟨⟨rfl, rfl, hagrees.sound, fun h => ?_⟩, Grows.refl path f.cache⟩
        cases h
      · have hin : g.declared ancestor = false → ancestor ∈ region :=
          hvisited ancestor (List.mem_append_right _ List.mem_cons_self)
        unfold Graph.inherited Graph.inheritedFrom at *
        by_cases hdeclared : g.declared ancestor = true
        · rw [if_pos hdeclared, if_pos hdeclared]
          refine ⟨⟨rfl, ?_, hagrees.sound, fun h b hb hundeclared => ?_⟩, Grows.refl path f.cache⟩
          · exact congrArg (or · false) hagrees.cyclic
          · rcases List.mem_append.mp hb with hb | hb
            · exact hagrees.cached (Bool.or_eq_false_iff.mp h).1 b hb hundeclared
            · rw [List.mem_singleton.mp hb, hdeclared] at hundeclared
              cases hundeclared
        · rw [if_neg hdeclared, if_neg hdeclared] at *
          have hundeclared : g.declared ancestor = false := by simpa using hdeclared
          have hbelow : ∀ b ∈ (recurse ancestor).asked, g.declared b = false → b ∈ region :=
            fun b hb => hvisited b (List.mem_append_right _ (List.mem_cons_of_mem _ hb))
          obtain ⟨hinner, hgrows, hcached⟩ := hrec ancestor f.cache
            (hancestors ancestor List.mem_cons_self) hpath hundeclared (hin hundeclared) hbelow
            hagrees.sound hactive hfresh
          refine ⟨⟨?_, ?_, hinner.sound, fun h b hb hundeclared => ?_⟩, hgrows⟩
          · exact congrArg (Option.or · o.source) hinner.source
          · exact congrArg₂ or hagrees.cyclic hinner.cyclic
          · obtain ⟨hfirst, hsecond⟩ := Bool.or_eq_false_iff.mp h
            rcases List.mem_append.mp hb with hb | hb
            · exact hgrows.ne_none (hagrees.cached hfirst b hb hundeclared)
            · rcases List.mem_cons.mp hb with rfl | hb
              · exact hcached hsecond
              · exact hinner.cached hsecond b hb hundeclared
    obtain ⟨hfirst, hgrows⟩ := hstep
    obtain ⟨hlast, hmore⟩ := ih (fun a ha => hancestors a (List.mem_cons_of_mem _ ha)) _ _ hfirst
      (hactive.grows hgrows) (hfresh.grows hgrows htarget) hregion
    exact ⟨hlast, hgrows.trans hmore⟩

/-- A cached source is what the search finds on the active path. -/
theorem search_of_cached {fuel : ℕ} {a : α} {source : Option α} (hsound : Sound g vertices cache)
    (henough : Enough vertices fuel path) (hactive : Active g target path cache)
    (htarget : target ∈ path → target ∉ g.asked total a) (htotal : vertices.card < total)
    (hcached : cache a = some source) :
    ∃ asked, g.search fuel path a = ⟨source, false, asked⟩ ∧
      ∀ b ∈ asked, g.declared b = false → cache b ≠ none := by
  obtain ⟨asked, hsettled, hclosed⟩ := hsound a source hcached
  refine ⟨asked, hsettled.2 fuel path henough (fun hpath => ?_) fun b hb hpath => ?_, hclosed⟩
  · rw [(hactive a hpath).1] at hcached
    cases hcached
  · by_cases heq : b = target
    · rw [hsettled.asked_eq htotal, ← heq] at htarget
      exact htarget (heq ▸ hpath) hb
    · exact hclosed b hb ((hactive b hpath).2 heq) (hactive b hpath).1

theorem Sound.update (h : Sound g vertices cache) {a : α} {source : Option α} {asked : List α}
    (hsettled : Settled g vertices a source asked)
    (hclosed : ∀ b ∈ asked, g.declared b = false → cache b ≠ none) :
    Sound g vertices (Function.update cache a (some source)) := by
  have hsome : ∀ b, cache b ≠ none → Function.update cache a (some source) b ≠ none := by
    intro b hb
    rw [Function.update_apply]
    split
    · exact Option.some_ne_none source
    · exact hb
  intro b found hb
  rw [Function.update_apply] at hb
  split at hb
  · rename_i heq
    injection hb with hb
    rw [heq, ← hb]
    exact ⟨asked, hsettled, fun c hc hundeclared => hsome c (hclosed c hc hundeclared)⟩
  · obtain ⟨asked, hsettled, hclosed⟩ := h b found hb
    exact ⟨asked, hsettled, fun c hc hundeclared => hsome c (hclosed c hc hundeclared)⟩

theorem Grows.update {a : α} (h : Grows g total path cache later) {source : Option α}
    (hnone : cache a = none) (hpath : a ∉ path) (hasked : ∀ b ∈ g.asked total a, b ∉ path) :
    Grows g total path cache (Function.update later a (some source)) := by
  refine ⟨fun b hb => ?_, fun b hb hsome => ?_, fun b hb hsome => ?_⟩
  · have hne : b ≠ a := by
      rintro rfl
      exact hb hnone
    rw [Function.update_of_ne hne]
    exact h.kept b hb
  · by_cases heq : b = a
    · rw [heq]
      exact hpath
    · rw [Function.update_of_ne heq] at hsome
      exact h.inactive b hb hsome
  · by_cases heq : b = a
    · rw [heq]
      exact hasked
    · rw [Function.update_of_ne heq] at hsome
      exact h.apart b hb hsome

/-- The search with a cache does what the search without one does. -/
theorem find_agrees (hclosed : g.Closed vertices) (htotal : vertices.card < total) (fuel : ℕ)
    (path : List α) (a : α) (cache : Cache α) (ha : a ∈ vertices)
    (henough : Enough vertices fuel path) (hsound : Sound g vertices cache)
    (hactive : Active g target path cache) (hfresh : Fresh g total target region cache)
    (htarget : target ∈ path ∧ g.declared a = false ∧ a ∈ region ∨ path = [] ∧ a = target)
    (hregion : ∀ b ∈ (g.search fuel path a).asked, g.declared b = false → b ∈ region) :
    Agrees g vertices (g.search fuel path a) (g.find fuel path a cache) ∧
      Grows g total path cache (g.find fuel path a cache).cache ∧
      ((g.search fuel path a).cyclic = false → (g.find fuel path a cache).cache a ≠ none) := by
  induction fuel generalizing path a cache with
  | zero => exact absurd henough (Nat.not_lt_zero _)
  | succ fuel ih =>
    rw [Graph.find]
    cases hcached : cache a with
    | some source =>
      have htargetAsked : target ∈ path → target ∉ g.asked total a := by
        intro hin
        rcases htarget with ⟨-, -, hmem⟩ | ⟨hnil, -⟩
        · exact hfresh a hmem (by rw [hcached]; exact Option.some_ne_none source)
        · rw [hnil] at hin
          cases hin
      obtain ⟨asked, hsearch, hasked⟩ :=
        search_of_cached hsound henough hactive htargetAsked htotal hcached
      rw [hsearch]
      refine ⟨⟨rfl, rfl, hsound, fun _ => hasked⟩, Grows.refl path cache, fun _ => ?_⟩
      have hsome : cache a ≠ none := by
        rw [hcached]
        exact Option.some_ne_none source
      exact hsome
    | none =>
      by_cases hpath : a ∈ path
      · rw [Graph.search, if_pos hpath]
        simp only [if_pos hpath]
        exact ⟨⟨rfl, rfl, hsound, fun h => by cases h⟩, Grows.refl path cache,
          fun h => by cases h⟩
      · rw [search_succ hpath] at hregion ⊢
        simp only [if_neg hpath]
        have hactiveCons : Active g target (a :: path) cache := by
          intro b hb
          rcases List.mem_cons.mp hb with rfl | hb
          · refine ⟨hcached, fun hne => ?_⟩
            rcases htarget with ⟨-, hundeclared, -⟩ | ⟨-, heq⟩
            · exact hundeclared
            · exact absurd heq hne
          · exact hactive b hb
        have htargetCons : target ∈ a :: path := by
          rcases htarget with ⟨hin, -, -⟩ | ⟨-, heq⟩
          · exact List.mem_cons_of_mem a hin
          · rw [heq]
            exact List.mem_cons_self
        obtain ⟨hagrees, hgrows⟩ := foldl_agrees htargetCons
          (fun b later hb hnot hundeclared hin hbelow hsoundLater hactiveLater hfreshLater =>
            ih (a :: path) b later hb (henough.cons ha hpath) hsoundLater hactiveLater hfreshLater
              (Or.inl ⟨htargetCons, hundeclared, hin⟩) hbelow)
          (g.sources a) (hclosed a ha) ⟨none, false, []⟩ ⟨none, false, cache⟩
          ⟨rfl, rfl, hsound, fun _ b hb => nomatch hb⟩ hactiveCons hfresh hregion
        have hsettled : (g.search (fuel + 1) path a).cyclic = false →
            Settled g vertices a (g.search (fuel + 1) path a).source
              (g.search (fuel + 1) path a).asked := settled_of_search hclosed ha
        have hasked : (g.search (fuel + 1) path a).cyclic = false → a ∉ path ∧
            ∀ b ∈ (g.search (fuel + 1) path a).asked, b ∉ a :: path :=
          asked_not_mem (fuel + 1) path a
        rw [search_succ hpath] at hsettled hasked
        generalize (g.sources a).foldl (g.visit (g.search fuel (a :: path)) (a :: path))
          ⟨none, false, []⟩ = o at hagrees hsettled hasked ⊢
        generalize (g.sources a).foldl (g.lookUp (g.find fuel (a :: path)) (a :: path))
          ⟨none, false, cache⟩ = f at hagrees hgrows ⊢
        rw [Found.keep, hagrees.cyclic]
        cases hcyclic : o.cyclic with
        | true =>
          rw [if_pos rfl]
          exact ⟨hagrees, hgrows.of_cons, fun h => by cases h⟩
        | false =>
          have hbelow := hagrees.cached hcyclic
          have hnot := (hasked hcyclic).2
          have hsettledSelf := hsettled hcyclic
          have hout : ∀ b ∈ g.asked total a, b ∉ path := by
            intro b hb hmem
            rw [hsettledSelf.asked_eq htotal] at hb
            exact hnot b hb (List.mem_cons_of_mem a hmem)
          rw [if_neg Bool.false_ne_true, hagrees.source]
          have hself : Function.update f.cache a (some o.source) a ≠ none := by
            rw [Function.update_self]
            exact Option.some_ne_none o.source
          refine ⟨⟨rfl, hcyclic.symm, hagrees.sound.update hsettledSelf hbelow, ?_⟩,
            hgrows.of_cons.update hcached hpath hout, fun _ => hself⟩
          intro _ b hb hundeclared
          by_cases heq : b = a
          · rw [heq]
            exact hself
          · change Function.update f.cache a (some o.source) b ≠ none
            rw [Function.update_of_ne heq]
            exact hbelow b hb hundeclared

/-- A search for a target finds what the search without a cache finds, when it searches no vertex
with a cached source that was found by way of the target. -/
theorem find_source (hclosed : g.Closed vertices) (htotal : vertices.card < total)
    (hsound : Sound g vertices cache) (htarget : target ∈ vertices)
    (hfresh : Fresh g total target (g.searched total target) cache) :
    (g.find total [] target cache).source = (g.search total [] target).source ∧
      Sound g vertices (g.find total [] target cache).cache := by
  have hactive : Active g target [] cache := fun a ha => nomatch ha
  obtain ⟨hagrees, -, -⟩ := find_agrees hclosed htotal total [] target cache htarget
    (enough_nil htotal) hsound hactive hfresh (Or.inr ⟨rfl, rfl⟩)
    fun b hb hundeclared => ⟨hb, hundeclared⟩
  exact ⟨hagrees.source, hagrees.sound⟩

/-- Without cycles no source is found by way of a vertex that leads to it. -/
theorem fresh_of_acyclic
    (hacyclic : ∀ a, ¬Relation.TransGen (fun x y => y ∈ g.sources x) a a) :
    Fresh g total target (g.searched total target) cache := by
  intro a ha _ htarget
  have hdown := asked_reached total [] target a ha.1
  have hup := asked_reached total [] a target htarget
  exact hacyclic target (hdown.trans hup)

end Agreement

/-! ## Runs of searches -/

section Run

variable (g : Graph α) (total : ℕ)

/-- One search after the other with a cache that stays. -/
def Graph.findAll (cache : Cache α) : List α → List (α × Option α)
  | [] => []
  | target :: targets =>
    let found := g.find total [] target cache
    (target, found.source) :: findAll found.cache targets

/-- No search takes a source from the cache that was found by way of its target. -/
def Graph.FreshRun (cache : Cache α) : List α → Prop
  | [] => True
  | target :: targets =>
    Fresh g total target (g.searched total target) cache ∧
      FreshRun (g.find total [] target cache).cache targets

variable {g total} {vertices : Finset α}

theorem sound_empty : Sound g vertices (fun _ => none) := by
  intro a source h
  cases h

theorem fst_findAll (cache : Cache α) (targets : List α) :
    (g.findAll total cache targets).map Prod.fst = targets := by
  induction targets generalizing cache with
  | nil => rfl
  | cons target targets ih =>
    rw [Graph.findAll, List.map_cons, ih]

theorem findAll_of_enough (hclosed : g.Closed vertices) (htotal : vertices.card < total) {more : ℕ}
    (hle : total ≤ more) (cache : Cache α) (targets : List α)
    (htargets : ∀ a ∈ targets, a ∈ vertices) :
    g.findAll more cache targets = g.findAll total cache targets := by
  induction targets generalizing cache with
  | nil => rfl
  | cons target targets ih =>
    rw [Graph.findAll, Graph.findAll, find_of_enough hclosed hle
      (htargets target List.mem_cons_self) (enough_nil htotal),
      ih _ fun a ha => htargets a (List.mem_cons_of_mem _ ha)]

theorem findAll_eq_map (hclosed : g.Closed vertices) (htotal : vertices.card < total)
    {cache : Cache α} (hsound : Sound g vertices cache) (targets : List α)
    (htargets : ∀ a ∈ targets, a ∈ vertices) (hfresh : g.FreshRun total cache targets) :
    g.findAll total cache targets = targets.map fun a => (a, (g.search total [] a).source) := by
  induction targets generalizing cache with
  | nil => rfl
  | cons target targets ih =>
    obtain ⟨hsource, hlater⟩ := find_source hclosed htotal hsound
      (htargets target List.mem_cons_self) hfresh.1
    rw [Graph.findAll, List.map_cons, hsource,
      ih hlater (fun a ha => htargets a (List.mem_cons_of_mem _ ha)) hfresh.2]

theorem freshRun_of_acyclic
    (hacyclic : ∀ a, ¬Relation.TransGen (fun x y => y ∈ g.sources x) a a) (cache : Cache α)
    (targets : List α) : g.FreshRun total cache targets := by
  induction targets generalizing cache with
  | nil => trivial
  | cons target targets ih => exact ⟨fresh_of_acyclic hacyclic, ih _⟩

end Run

end Mago.Library.MemoSearch
