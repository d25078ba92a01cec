import Mathlib

/-!
# Depth-first visits

A depth-first visit of a graph that marks a vertex when it enters it and lists the vertex when
it leaves it. Within a finite set that the edges do not leave, the visit needs no more fuel than
there are unmarked vertices. The vertices that are marked but not listed are those on the stack,
and each of them leads to the vertex visited, so without cycles every edge leads backwards in
the list.
-/
namespace Mago.Library.DepthFirst

variable {α : Type*}

structure State (α : Type*) where
  seen : Finset α
  sorted : List α

/-! ## What a visit adds -/

/-- A later state lists more vertices, once each, that were not marked before; with `roots`
marked. -/
structure Grows (vertices : Finset α) (roots : List α) (s s' : State α) (new : List α) :
    Prop where
  sorted_eq : s'.sorted = s.sorted ++ new
  mem_seen : ∀ x, x ∈ s'.seen ↔ x ∈ s.seen ∨ x ∈ new
  nodup : new.Nodup
  fresh : ∀ x ∈ new, x ∉ s.seen
  inside : ∀ x ∈ new, x ∈ vertices
  roots_seen : ∀ x ∈ roots, x ∈ s'.seen

variable {edges : α → List α} {vertices : Finset α}

theorem Grows.refl (s : State α) : Grows vertices [] s s [] where
  sorted_eq := by simp
  mem_seen := by simp
  nodup := List.nodup_nil
  fresh := by simp
  inside := by simp
  roots_seen := by simp

theorem Grows.trans {a : α} {roots : List α} {s t u : State α} {new new' : List α}
    (h : Grows vertices [a] s t new) (h' : Grows vertices roots t u new') :
    Grows vertices (a :: roots) s u (new ++ new') where
  sorted_eq := by rw [h'.sorted_eq, h.sorted_eq, List.append_assoc]
  mem_seen x := by
    rw [h'.mem_seen, h.mem_seen, List.mem_append, or_assoc]
  nodup := by
    refine List.nodup_append.mpr ⟨h.nodup, h'.nodup, ?_⟩
    intro x hx y hy hxy
    exact h'.fresh y hy ((h.mem_seen y).mpr (.inr (hxy ▸ hx)))
  fresh x hx := by
    intro hseen
    rcases List.mem_append.mp hx with hx | hx
    · exact h.fresh x hx hseen
    · exact h'.fresh x hx ((h.mem_seen x).mpr (.inl hseen))
  inside x hx := by
    rcases List.mem_append.mp hx with hx | hx
    · exact h.inside x hx
    · exact h'.inside x hx
  roots_seen x hx := by
    cases hx with
    | head => exact (h'.mem_seen a).mpr (.inl (h.roots_seen a List.mem_cons_self))
    | tail _ hx => exact h'.roots_seen x hx

/-! ## The order of the list -/

variable (edges vertices) in
/-- An edge that starts inside the set. -/
def Edge (a b : α) : Prop := a ∈ vertices ∧ b ∈ edges a

variable (edges vertices) in
def Acyclic : Prop := ∀ a, ¬ Relation.TransGen (Edge edges vertices) a a

variable (edges) in
/-- Every listed vertex comes after all vertices its edges lead to. -/
def Closed (sorted : List α) : Prop :=
  ∀ before x after, sorted = before ++ x :: after → ∀ b ∈ edges x, b ∈ before

theorem closed_nil : Closed edges [] := by
  intro before x after h
  simp at h

theorem Closed.snoc {sorted : List α} (h : Closed edges sorted) {a : α}
    (ha : ∀ b ∈ edges a, b ∈ sorted) : Closed edges (sorted ++ [a]) := by
  intro before x after heq b hb
  rcases List.eq_nil_or_concat after with hnil | ⟨after', z, hconcat⟩
  · subst hnil
    obtain ⟨hbefore, hx⟩ := List.append_inj' heq rfl
    rw [← hbefore]
    exact ha b (by simpa using (List.cons.inj hx).1 ▸ hb)
  · rw [hconcat, List.concat_eq_append, ← List.cons_append, ← List.append_assoc] at heq
    exact h before x after' (List.append_inj' heq rfl).1 b hb

variable (edges vertices) in
/-- Every vertex on the stack leads to `a`. -/
def Leads (s : State α) (a : α) : Prop :=
  ∀ g ∈ s.seen, g ∉ s.sorted → Relation.TransGen (Edge edges vertices) g a

variable (edges vertices) in
/-- A visit of vertices the stack leads to keeps the order and lists them. -/
def Orders (roots : List α) (s s' : State α) : Prop :=
  (∀ a ∈ roots, Leads edges vertices s a) → Closed edges s.sorted →
    Closed edges s'.sorted ∧ ∀ a ∈ roots, a ∈ s'.sorted

theorem Orders.refl (s : State α) : Orders edges vertices [] s s :=
  fun _ hclosed => ⟨hclosed, by simp⟩

/-- A visit leaves the stack as it was. -/
theorem Grows.leads {roots : List α} {s t : State α} {new : List α}
    (h : Grows vertices roots s t new) {a : α} (ha : Leads edges vertices s a) :
    Leads edges vertices t a := by
  intro g hg hsorted
  rw [h.sorted_eq, List.mem_append, not_or] at hsorted
  exact ha g (((h.mem_seen g).mp hg).resolve_right hsorted.2) hsorted.1

theorem Orders.trans {a : α} {roots : List α} {s t u : State α} {new new' : List α}
    (hst : Grows vertices [a] s t new) (htu : Grows vertices roots t u new')
    (h : Orders edges vertices [a] s t) (h' : Orders edges vertices roots t u) :
    Orders edges vertices (a :: roots) s u := by
  intro hleads hclosed
  obtain ⟨hclosed', ha⟩ := h (fun b hb => by
    rw [List.mem_singleton.mp hb]
    exact hleads a List.mem_cons_self) hclosed
  obtain ⟨hclosed'', hroots⟩ := h'
    (fun b hb => hst.leads (hleads b (List.mem_cons_of_mem a hb))) hclosed'
  refine ⟨hclosed'', fun b hb => ?_⟩
  cases hb with
  | head =>
    rw [htu.sorted_eq]
    exact List.mem_append_left _ (ha a List.mem_cons_self)
  | tail _ hb => exact hroots b hb

/-- A marked vertex the stack leads to is listed already, for it would lead to itself. -/
theorem orders_of_seen (hacyclic : Acyclic edges vertices) {a : α} {s : State α}
    (hseen : a ∈ s.seen) : Orders edges vertices [a] s s := by
  intro hleads hclosed
  refine ⟨hclosed, fun b hb => ?_⟩
  rw [List.mem_singleton.mp hb]
  by_contra hsorted
  exact hacyclic a (hleads a List.mem_cons_self a hseen hsorted)

/-! ## Visits -/

section Visit

variable [DecidableEq α]

variable (edges) in
/-- Visits a vertex; `none` when the fuel runs out. -/
def visit : ℕ → α → State α → Option (State α)
  | 0, _, _ => none
  | fuel + 1, a, s =>
    if a ∈ s.seen then some s
    else
      ((edges a).foldlM (fun s b => visit fuel b s) { s with seen := insert a s.seen }).map
        fun s => { s with sorted := s.sorted ++ [a] }

variable (edges) in
/-- Visits vertices one after another. -/
def visitAll (fuel : ℕ) (vertices : List α) (s : State α) : Option (State α) :=
  vertices.foldlM (fun s a => visit edges fuel a s) s

theorem visit_succ (fuel : ℕ) (a : α) (s : State α) :
    visit edges (fuel + 1) a s = if a ∈ s.seen then some s
      else (visitAll edges fuel (edges a) { s with seen := insert a s.seen }).map
        fun s => { s with sorted := s.sorted ++ [a] } := rfl

theorem visitAll_cons (fuel : ℕ) (a : α) (vertices : List α) (s : State α) :
    visitAll edges fuel (a :: vertices) s =
      (visit edges fuel a s).bind (visitAll edges fuel vertices) := rfl

/-- A vertex that was not marked is listed after what its edges lead to. -/
theorem Grows.leave {a : α} {roots : List α} {s t : State α} {new : List α} (ha : a ∈ vertices)
    (hseen : a ∉ s.seen) (h : Grows vertices roots { s with seen := insert a s.seen } t new) :
    Grows vertices [a] s { t with sorted := t.sorted ++ [a] } (new ++ [a]) where
  sorted_eq := by rw [h.sorted_eq, List.append_assoc]
  mem_seen x := by
    rw [h.mem_seen, Finset.mem_insert, List.mem_append, List.mem_singleton]
    tauto
  nodup := by
    refine List.nodup_append.mpr ⟨h.nodup, List.nodup_singleton a, ?_⟩
    intro x hx y hy hxy
    rw [List.mem_singleton.mp hy] at hxy
    exact h.fresh x hx (hxy ▸ Finset.mem_insert_self a s.seen)
  fresh x hx := by
    rcases List.mem_append.mp hx with hx | hx
    · exact fun hs => h.fresh x hx (Finset.mem_insert_of_mem hs)
    · rw [List.mem_singleton.mp hx]
      exact hseen
  inside x hx := by
    rcases List.mem_append.mp hx with hx | hx
    · exact h.inside x hx
    · rw [List.mem_singleton.mp hx]
      exact ha
  roots_seen x hx := by
    rw [List.mem_singleton.mp hx]
    exact (h.mem_seen a).mpr (.inl (Finset.mem_insert_self a s.seen))

/-- A vertex that is entered is on the stack while its edges are followed. -/
theorem Orders.leave {a : α} (ha : a ∈ vertices) {s t : State α}
    (h : Orders edges vertices (edges a) { s with seen := insert a s.seen } t) :
    Orders edges vertices [a] s { t with sorted := t.sorted ++ [a] } := by
  intro hleads hclosed
  have hedges : ∀ b ∈ edges a, Leads edges vertices { s with seen := insert a s.seen } b := by
    intro b hb g hg hsorted
    have hedge : Edge edges vertices a b := ⟨ha, hb⟩
    rcases Finset.mem_insert.mp hg with hg | hg
    · rw [hg]
      exact .single hedge
    · exact (hleads a List.mem_cons_self g hg hsorted).tail hedge
  obtain ⟨hclosed', hlisted⟩ := h hedges hclosed
  refine ⟨hclosed'.snoc hlisted, fun b hb => ?_⟩
  rw [List.mem_singleton.mp hb]
  exact List.mem_append_right _ List.mem_cons_self

/-! ## Runs -/

theorem card_sdiff_insert_lt {a : α} (ha : a ∈ vertices) {seen : Finset α} (hseen : a ∉ seen) :
    (vertices \ insert a seen).card < (vertices \ seen).card := by
  refine Finset.card_lt_card ⟨Finset.sdiff_subset_sdiff le_rfl (Finset.subset_insert a seen), ?_⟩
  intro hsub
  have hmem := hsub (Finset.mem_sdiff.mpr ⟨ha, hseen⟩)
  exact (Finset.mem_sdiff.mp hmem).2 (Finset.mem_insert_self a seen)

/-- With more fuel than unmarked vertices a visit ends, lists what it marks and, without cycles,
keeps the order. -/
theorem visitAll_ends (hedges : ∀ a ∈ vertices, ∀ b ∈ edges a, b ∈ vertices) (fuel : ℕ)
    (roots : List α) (s : State α) (hroots : ∀ a ∈ roots, a ∈ vertices)
    (hfuel : (vertices \ s.seen).card < fuel) :
    ∃ s' new, visitAll edges fuel roots s = some s' ∧ Grows vertices roots s s' new ∧
      (Acyclic edges vertices → Orders edges vertices roots s s') := by
  induction fuel generalizing roots s with
  | zero => exact absurd hfuel (Nat.not_lt_zero _)
  | succ fuel ih =>
    induction roots generalizing s with
    | nil => exact ⟨s, [], rfl, Grows.refl s, fun _ => Orders.refl s⟩
    | cons a roots ihroots =>
      have ha : a ∈ vertices := hroots a List.mem_cons_self
      have hvisit : ∃ s' new, visit edges (fuel + 1) a s = some s' ∧
          Grows vertices [a] s s' new ∧
          (Acyclic edges vertices → Orders edges vertices [a] s s') := by
        rw [visit_succ]
        by_cases hseen : a ∈ s.seen
        · refine ⟨s, [], if_pos hseen, ?_, fun hacyclic => orders_of_seen hacyclic hseen⟩
          exact { Grows.refl s with roots_seen := by simpa using hseen }
        · have hfewer : (vertices \ insert a s.seen).card < fuel :=
            (card_sdiff_insert_lt ha hseen).trans_le (Nat.lt_succ_iff.mp hfuel)
          obtain ⟨t, new, ht, hgrows, horders⟩ :=
            ih (edges a) { s with seen := insert a s.seen } (hedges a ha) hfewer
          exact ⟨_, _, by rw [if_neg hseen, ht]; rfl, hgrows.leave ha hseen,
            fun hacyclic => (horders hacyclic).leave ha⟩
      obtain ⟨t, new, ht, hgrows, horders⟩ := hvisit
      have hless : (vertices \ t.seen).card < fuel + 1 := by
        refine (Finset.card_le_card (Finset.sdiff_subset_sdiff le_rfl ?_)).trans_lt hfuel
        exact fun x hx => (hgrows.mem_seen x).mpr (.inl hx)
      obtain ⟨u, new', hu, hgrows', horders'⟩ :=
        ihroots t (fun b hb => hroots b (List.mem_cons_of_mem a hb)) hless
      exact ⟨u, new ++ new', by rw [visitAll_cons, ht]; exact hu, hgrows.trans hgrows',
        fun hacyclic => .trans hgrows hgrows' (horders hacyclic) (horders' hacyclic)⟩

/-- More fuel does not change the result. -/
theorem visitAll_succ {fuel : ℕ} {roots : List α} {s t : State α}
    (h : visitAll edges fuel roots s = some t) : visitAll edges (fuel + 1) roots s = some t := by
  induction fuel generalizing roots s t with
  | zero =>
    cases roots with
    | nil => exact h
    | cons a roots => simp [visitAll_cons, visit] at h
  | succ fuel ih =>
    induction roots generalizing s with
    | nil => exact h
    | cons a roots ihroots =>
      rw [visitAll_cons] at h ⊢
      obtain ⟨u, hu, ht⟩ := Option.bind_eq_some_iff.mp h
      have hvisit : visit edges (fuel + 1 + 1) a s = some u := by
        rw [visit_succ] at hu ⊢
        by_cases hseen : a ∈ s.seen
        · rwa [if_pos hseen] at hu ⊢
        · rw [if_neg hseen] at hu ⊢
          obtain ⟨v, hv, hu⟩ := Option.map_eq_some_iff.mp hu
          rw [ih hv, Option.map_some, hu]
      rw [hvisit]
      exact ihroots ht

theorem visitAll_of_le {fuel fuel' : ℕ} (hle : fuel ≤ fuel') {roots : List α} {s t : State α}
    (h : visitAll edges fuel roots s = some t) : visitAll edges fuel' roots s = some t := by
  induction hle with
  | refl => exact h
  | step _ ih => exact visitAll_succ ih

/-- A visit of all vertices of a set lists each of them once and nothing else; without cycles
every vertex comes after those its edges lead to. -/
theorem visitAll_sorts (order : List α)
    (hedges : ∀ a ∈ order.toFinset, ∀ b ∈ edges a, b ∈ order.toFinset) :
    ∃ s, (∀ fuel, order.toFinset.card < fuel → visitAll edges fuel order ⟨∅, []⟩ = some s) ∧
      s.sorted.Nodup ∧ (∀ x, x ∈ s.sorted ↔ x ∈ order) ∧
      (Acyclic edges order.toFinset → Closed edges s.sorted) := by
  obtain ⟨s, new, hs, hgrows, horders⟩ := visitAll_ends hedges (order.toFinset.card + 1) order
    ⟨∅, []⟩ (fun a ha => List.mem_toFinset.mpr ha) (by simp)
  have hsorted : s.sorted = new := hgrows.sorted_eq
  refine ⟨s, fun fuel hfuel => visitAll_of_le hfuel hs, hsorted ▸ hgrows.nodup, ?_, ?_⟩
  · intro x
    rw [hsorted]
    constructor
    · exact fun hx => List.mem_toFinset.mp (hgrows.inside x hx)
    · intro hx
      have hseen := (hgrows.mem_seen x).mp (hgrows.roots_seen x hx)
      exact hseen.resolve_left (Finset.notMem_empty x)
  · intro hacyclic
    have hleads : ∀ a ∈ order, Leads edges order.toFinset ⟨∅, []⟩ a :=
      fun a _ g hg => absurd hg (Finset.notMem_empty g)
    exact (horders hacyclic hleads closed_nil).1

end Visit

end Mago.Library.DepthFirst
