import Mago.Codebase.Differ
import Mago.Library.EditGraph

/-!
# Shortest edit scripts

Each round of the search finds the furthest points of its cost, so the round that ends at both
ends of the lists is the first one that can. The walk back follows the same points.
-/
namespace Mago.Codebase.Differ
open Library

variable {ω : Type} [DecidableEq ω]

/-- Equal nodes at two positions. -/
def Same (a b : List (DefSignatureNode ω)) (x y : ℕ) : Prop :=
  ∃ p q, a[x]? = some p ∧ b[y]? = some q ∧ isEqual p q = true

abbrev Reaches (a b : List (DefSignatureNode ω)) : ℕ → ℕ → ℕ → Prop :=
  Reach a.length b.length (Same a b)

abbrev FurthestOn (a b : List (DefSignatureNode ω)) : ℕ → ℤ → ℕ → Prop :=
  Furthest a.length b.length (Same a b)

/-- What a round begins with: the furthest points of the round before, on its diagonals. -/
def Ready (a b : List (DefSignatureNode ω)) : ℕ → Frontier → Prop
  | 0, v => v.get? 1 = some 0
  | d + 1, v => ∀ k : ℤ, -d ≤ k → k ≤ d → k % 2 = d % 2 →
      ∃ x, v.get? k = some x ∧ FurthestOn a b d k x

section Search

variable {a b : List (DefSignatureNode ω)}

theorem matches_iff {x y : ℕ} : Matches a.length b.length (Same a b) x y ↔ Same a b x y := by
  refine ⟨fun h => h.2.2, fun h => ⟨?_, ?_, h⟩⟩
  · obtain ⟨p, q, hp, -, -⟩ := h
    exact (List.getElem?_eq_some_iff.mp hp).1
  · obtain ⟨p, q, -, hq, -⟩ := h
    exact (List.getElem?_eq_some_iff.mp hq).1

/-- The run of equal nodes is followed to its end. -/
theorem follow_spec (x y : ℕ) : ∃ x' y', follow a b x y = .ok (x', y') ∧
    Snake a.length b.length (Same a b) x y x' y' ∧
      ¬ Matches a.length b.length (Same a b) x' y' := by
  induction hsize : a.length - x generalizing x y with
  | zero =>
    rw [follow, if_neg (by omega)]
    exact ⟨x, y, rfl, .refl x y, fun h => by have := h.1; omega⟩
  | succ size ih =>
    by_cases hrange : x < a.length ∧ y < b.length
    · rw [follow, if_pos hrange, List.getElem?_eq_getElem hrange.1,
        List.getElem?_eq_getElem hrange.2]
      dsimp only
      split_ifs with hequal
      · obtain ⟨x', y', hfollow, hsnake, hstuck⟩ := ih (x + 1) (y + 1) (by omega)
        refine ⟨x', y', hfollow, hsnake.prepend (matches_iff.mpr ?_), hstuck⟩
        exact ⟨_, _, List.getElem?_eq_getElem hrange.1, List.getElem?_eq_getElem hrange.2, hequal⟩
      · refine ⟨x, y, rfl, .refl x y, fun hmatch => hequal ?_⟩
        obtain ⟨p, q, hp, hq, hpq⟩ := hmatch.2.2
        rw [List.getElem?_eq_getElem hrange.1, Option.some_inj] at hp
        rw [List.getElem?_eq_getElem hrange.2, Option.some_inj] at hq
        rwa [hp, hq]
    · rw [follow, if_neg hrange]
      exact ⟨x, y, rfl, .refl x y, fun h => hrange ⟨h.1, h.2.1⟩⟩

theorem entry_of_get? {v : Frontier} {k : ℤ} {x : ℕ} (h : v.get? k = some x) :
    entry v k = .ok x := by
  rw [entry, h]

theorem positionOn_of_sub {x y : ℕ} {k : ℤ} (h : (x : ℤ) - y = k) : positionOn x k = .ok y := by
  rw [positionOn, if_neg (by omega), h.symm]
  congr 1
  omega

/-- How a diagonal is entered: from above or from the left, at its furthest start. -/
structure Entered (a b : List (DefSignatureNode ω)) (v : Frontier) (d : ℕ) (k : ℤ) (down : Bool)
    (x₀ y₀ : ℕ) : Prop where
  goesDown : goesDown v d k = .ok down
  sub : (x₀ : ℤ) - y₀ = k
  starts : Starts a.length b.length (Same a b) d x₀ y₀
  furthest : ∀ x₁ y₁ : ℕ, Starts a.length b.length (Same a b) d x₁ y₁ → (x₁ : ℤ) - y₁ = k → x₁ ≤ x₀
  fromAbove : down = true → v.get? (k + 1) = some x₀ ∧
    ∀ d', d = d' + 1 → FurthestOn a b d' (k + 1) x₀
  fromLeft : down = false → ∃ p, x₀ = p + 1 ∧ v.get? (k - 1) = some p ∧
    ∀ d', d = d' + 1 → FurthestOn a b d' (k - 1) p

theorem Entered.enter_eq {v : Frontier} {d : ℕ} {k : ℤ} {down : Bool} {x₀ y₀ : ℕ}
    (h : Entered a b v d k down x₀ y₀) : enter v d k = .ok x₀ := by
  rw [enter, h.goesDown, ok_bind]
  cases down with
  | true => exact entry_of_get? (h.fromAbove rfl).1
  | false =>
    obtain ⟨p, rfl, hp, -⟩ := h.fromLeft rfl
    rw [if_neg Bool.false_ne_true, entry_of_get? hp, ok_bind, pure_eq_ok]

/-- The start on a diagonal is the furthest one when it is behind both neighbours. -/
theorem furthest_start {d : ℕ} {k : ℤ} {x₀ : ℕ}
    (hleft : ∀ p q : ℕ, Reaches a b d p q → (p : ℤ) - q = k - 1 → p + 1 ≤ x₀)
    (hright : ∀ p q : ℕ, Reaches a b d p q → (p : ℤ) - q = k + 1 → p ≤ x₀) (x₁ y₁ : ℕ)
    (hstarts : Starts a.length b.length (Same a b) (d + 1) x₁ y₁) (hk : (x₁ : ℤ) - y₁ = k) :
    x₁ ≤ x₀ := by
  obtain ⟨p, q, hreach, ⟨rfl, rfl⟩ | ⟨rfl, rfl⟩⟩ := hstarts
  · exact hleft p y₁ hreach (by push_cast at hk; omega)
  · exact hright x₁ q hreach (by push_cast at hk; omega)

theorem entered_fromAbove {v : Frontier} {d : ℕ} {k : ℤ} {x : ℕ}
    (hdown : goesDown v (d + 1) k = .ok true) (hx : v.get? (k + 1) = some x)
    (hfurthest : FurthestOn a b d (k + 1) x)
    (hleft : ∀ p q : ℕ, Reaches a b d p q → (p : ℤ) - q = k - 1 → p + 1 ≤ x) :
    ∃ down x₀ y₀, Entered a b v (d + 1) k down x₀ y₀ := by
  obtain ⟨y, hk, hreach⟩ := hfurthest.reach
  refine ⟨true, x, y + 1, hdown, by push_cast; omega, ⟨x, y, hreach, .inr ⟨rfl, rfl⟩⟩, ?_,
    fun _ => ⟨hx, fun d' hd => ?_⟩, fun h => by simp at h⟩
  · exact furthest_start hleft fun p q hp hpk => hfurthest.le p q hp hpk
  · obtain rfl : d = d' := Nat.succ.inj hd
    exact hfurthest

theorem entered_fromLeft {v : Frontier} {d : ℕ} {k : ℤ} {x : ℕ}
    (hdown : goesDown v (d + 1) k = .ok false) (hx : v.get? (k - 1) = some x)
    (hfurthest : FurthestOn a b d (k - 1) x)
    (hright : ∀ p q : ℕ, Reaches a b d p q → (p : ℤ) - q = k + 1 → p ≤ x + 1) :
    ∃ down x₀ y₀, Entered a b v (d + 1) k down x₀ y₀ := by
  obtain ⟨y, hk, hreach⟩ := hfurthest.reach
  refine ⟨false, x + 1, y, hdown, by push_cast; omega, ⟨x, y, hreach, .inl ⟨rfl, rfl⟩⟩, ?_,
    fun h => by simp at h, fun _ => ⟨x, rfl, hx, fun d' hd => ?_⟩⟩
  · exact furthest_start (fun p q hp hpk => Nat.succ_le_succ (hfurthest.le p q hp hpk)) hright
  · obtain rfl : d = d' := Nat.succ.inj hd
    exact hfurthest

theorem exists_entered {v : Frontier} {d : ℕ} (h : Ready a b d v) {k : ℤ} (hlow : -d ≤ k)
    (hhigh : k ≤ d) (hparity : k % 2 = d % 2) :
    ∃ down x₀ y₀, Entered a b v d k down x₀ y₀ := by
  cases d with
  | zero =>
    obtain rfl : k = 0 := by omega
    refine ⟨true, 0, 0, by simp [goesDown], by simp, ⟨rfl, rfl⟩, ?_, fun _ => ⟨h, ?_⟩, by simp⟩
    · intro x₁ y₁ hstarts _
      exact hstarts.1.le
    · intro d' hd
      exact absurd hd (Nat.succ_ne_zero d').symm
  | succ d =>
    push_cast at hlow hhigh hparity
    have hleft : -(d + 1 : ℤ) < k → ∃ x, v.get? (k - 1) = some x ∧ FurthestOn a b d (k - 1) x :=
      fun hk => h (k - 1) (by omega) (by omega) (by omega)
    have hright : k < d + 1 → ∃ x, v.get? (k + 1) = some x ∧ FurthestOn a b d (k + 1) x :=
      fun hk => h (k + 1) (by omega) (by omega) (by omega)
    by_cases hbottom : k = -(d + 1 : ℤ)
    · obtain ⟨x, hx, hfurthest⟩ := hright (by omega)
      refine entered_fromAbove ?_ hx hfurthest fun p q hp hk => ?_
      · rw [goesDown, if_pos (by push_cast; exact hbottom)]
      · have := hp.diagonal_bounds
        omega
    · obtain ⟨x, hx, hfurthest⟩ := hleft (by omega)
      by_cases htop : k = (d + 1 : ℤ)
      · refine entered_fromLeft ?_ hx hfurthest fun p q hp hk => ?_
        · rw [goesDown, if_neg (by push_cast; exact hbottom),
            if_neg (by push_cast; exact not_not.mpr htop)]
        · have := hp.diagonal_bounds
          omega
      · obtain ⟨x', hx', hfurthest'⟩ := hright (by omega)
        have hdown : goesDown v (d + 1) k = .ok (decide (x < x')) := by
          rw [goesDown, if_neg (by push_cast; exact hbottom), if_pos (by push_cast; exact htop),
            entry_of_get? hx, entry_of_get? hx']
          rfl
        by_cases hlt : x < x'
        · rw [decide_eq_true hlt] at hdown
          refine entered_fromAbove hdown hx' hfurthest' fun p q hp hk => ?_
          have := hfurthest.le p q hp hk
          omega
        · rw [decide_eq_false hlt] at hdown
          refine entered_fromLeft hdown hx hfurthest fun p q hp hk => ?_
          have := hfurthest'.le p q hp hk
          omega

/-- A diagonal is followed to its furthest point. -/
theorem advance_spec {v : Frontier} {d : ℕ} (h : Ready a b d v) {k : ℤ} (hlow : -d ≤ k)
    (hhigh : k ≤ d) (hparity : k % 2 = d % 2) : ∃ x y, advance a b v d k = .ok (x, y) ∧
      (x : ℤ) - y = k ∧ Reaches a b d x y ∧ FurthestOn a b d k x := by
  obtain ⟨down, x₀, y₀, hentered⟩ := exists_entered h hlow hhigh hparity
  obtain ⟨x, y, hfollow, hsnake, hstuck⟩ := follow_spec (a := a) (b := b) x₀ y₀
  have hsub : (x : ℤ) - y = k := by
    obtain ⟨j, rfl, rfl, -⟩ := hsnake
    have := hentered.sub
    push_cast
    omega
  refine ⟨x, y, ?_, hsub, hentered.starts.reach.snake hsnake, ?_⟩
  · rw [advance, hentered.enter_eq, ok_bind, positionOn_of_sub hentered.sub, ok_bind, hfollow]
  · have hfurthest := Furthest.of_starts hentered.starts
      (fun x₁ y₁ hstarts hk => hentered.furthest x₁ y₁ hstarts (hk.trans hentered.sub))
      hsnake hstuck
    rwa [hentered.sub] at hfurthest

/-- A round has followed its diagonals in front of one, and none of them to both ends. -/
structure Followed (a b : List (DefSignatureNode ω)) (d : ℕ) (k : ℤ) (v : Frontier) : Prop where
  ready : Ready a b d v
  furthest : ∀ j : ℤ, -d ≤ j → j < k → j % 2 = d % 2 → ∃ x, v.get? j = some x ∧
    FurthestOn a b d j x ∧ ¬ (a.length ≤ x ∧ (b.length : ℤ) ≤ x - j)

/-- The entries of a round are on other diagonals than those of the round before. -/
theorem Ready.insert {d : ℕ} {v : Frontier} (h : Ready a b d v) {k : ℤ}
    (hparity : k % 2 = d % 2) (x : ℕ) : Ready a b d (v.insert k x) := by
  cases d with
  | zero =>
    rw [Ready, OrderedMap.get?_insert, if_neg (by omega)]
    exact h
  | succ d =>
    intro j hlow hhigh hj
    rw [OrderedMap.get?_insert, if_neg (by push_cast at hparity; omega)]
    exact h j hlow hhigh hj

theorem Followed.insert {d : ℕ} {k : ℤ} {v : Frontier} (h : Followed a b d k v)
    (hparity : k % 2 = d % 2) {x : ℕ} (hfurthest : FurthestOn a b d k x)
    (hgoOn : ¬ (a.length ≤ x ∧ (b.length : ℤ) ≤ x - k)) :
    Followed a b d (k + 2) (v.insert k x) := by
  refine ⟨h.ready.insert hparity x, fun j hlow hhigh hj => ?_⟩
  rw [OrderedMap.get?_insert]
  split_ifs with hjk
  · subst hjk
    exact ⟨x, rfl, hfurthest, hgoOn⟩
  · exact h.furthest j hlow (by omega) hj

/-- A round follows all its diagonals or finds both ends. -/
theorem round_spec {d : ℕ} {k : ℤ} {v : Frontier} (h : Followed a b d k v) (hlow : -d ≤ k)
    (hparity : k % 2 = d % 2) :
    (∃ v' k', round a b d k v = .ok (.next v') ∧ (d : ℤ) < k' ∧ Followed a b d k' v') ∨
      ∃ x y, round a b d k v = .ok (.found x y) ∧ Reaches a b d x y ∧ a.length ≤ x ∧
        b.length ≤ y := by
  induction hsize : (d + 1 - k).toNat using Nat.strong_induction_on generalizing k v with
  | _ size ih =>
    rw [round]
    split_ifs with hk
    · obtain ⟨x, y, hadvance, hsub, hreach, hfurthest⟩ := advance_spec h.ready hlow hk hparity
      rw [hadvance, ok_bind]
      dsimp only
      split_ifs with hend
      · exact .inr ⟨x, y, rfl, hreach, hend⟩
      · have hgoOn : ¬ (a.length ≤ x ∧ (b.length : ℤ) ≤ x - k) := by
          intro hboth
          exact hend ⟨hboth.1, by omega⟩
        exact ih _ (by omega) (h.insert hparity hfurthest hgoOn) (by omega) (by omega) rfl
    · exact .inl ⟨v, k, rfl, by omega, h⟩

/-- After a whole round the next one can begin, and the round does not lead to the end. -/
theorem Followed.next {d : ℕ} {k : ℤ} {v : Frontier} (h : Followed a b d k v) (hk : (d : ℤ) < k) :
    Ready a b (d + 1) v ∧ ¬ Reaches a b d a.length b.length := by
  constructor
  · intro j hlow hhigh hj
    obtain ⟨x, hx, hfurthest, -⟩ := h.furthest j hlow (by omega) hj
    exact ⟨x, hx, hfurthest⟩
  · intro hreach
    have hbounds := hreach.diagonal_bounds
    obtain ⟨x, -, hfurthest, hgoOn⟩ := h.furthest _ hbounds.1 (by omega) hreach.diagonal_parity
    have hle := hfurthest.le _ _ hreach rfl
    exact hgoOn ⟨hle, by omega⟩

/-- Both ends are first met at the corner of the grid. -/
theorem corner_of_first {d x y : ℕ} (hreach : Reaches a b d x y) (hx : a.length ≤ x)
    (hy : b.length ≤ y) (hfirst : ∀ d' < d, ¬ Reaches a b d' a.length b.length) :
    x = a.length ∧ y = b.length := by
  obtain ⟨d', hd, hclamped⟩ := hreach.clamp
  rw [min_eq_right hx, min_eq_right hy] at hclamped
  by_contra hne
  exact hfirst d' (by omega) hclamped

/-- What the search returns: the frontiers that its rounds began with, up to the first round
that leads to the end. -/
structure Traced (a b : List (DefSignatureNode ω)) (d : ℕ) (trace : List Frontier) : Prop where
  length : trace.length = d + 1
  ready : ∀ i v, (trace)[i]? = some v → Ready a b i v
  reach : Reaches a b d a.length b.length
  first : ∀ d' < d, ¬ Reaches a b d' a.length b.length

theorem Traced.furthest {d : ℕ} {trace : List Frontier} (h : Traced a b d trace) :
    FurthestOn a b d ((a.length : ℤ) - b.length) a.length := by
  refine ⟨⟨b.length, rfl, h.reach⟩, fun x y hreach hk => ?_⟩
  by_contra hlt
  have := corner_of_first hreach (by omega) (by omega) h.first
  omega

theorem rounds_spec {left d : ℕ} {v : Frontier} {trace : List Frontier}
    (hleft : left + d = a.length + b.length + 1) (hready : Ready a b d v)
    (hfirst : ∀ d' < d, ¬ Reaches a b d' a.length b.length) (hlength : trace.length = d)
    (htrace : ∀ i w, (trace)[i]? = some w → Ready a b i w) :
    ∃ d' trace', rounds a b left d v trace = .ok (trace', a.length, b.length) ∧
      Traced a b d' trace' := by
  induction left generalizing d v trace with
  | zero =>
    have hall := Reach.all_steps a.length b.length (Same a b)
    exact absurd hall (hfirst _ (by omega))
  | succ left ih =>
    have hpushed : ∀ i w, (trace ++ [v])[i]? = some w → Ready a b i w := by
      intro i w hi
      by_cases hlt : i < trace.length
      · rw [List.getElem?_append_left hlt] at hi
        exact htrace i w hi
      · obtain ⟨hi', -⟩ := List.getElem?_eq_some_iff.mp hi
        rw [List.length_append, List.length_singleton] at hi'
        obtain rfl : i = trace.length := by omega
        rw [List.getElem?_concat_length, Option.some_inj] at hi
        rw [← hi, hlength]
        exact hready
    have hstart : Followed a b d (-d) v := ⟨hready, fun j hlow hj => by omega⟩
    rw [rounds]
    rcases round_spec hstart le_rfl (by omega) with hround | hround
    · obtain ⟨v', k', hround, hk', hfollowed⟩ := hround
      obtain ⟨hready', hno⟩ := hfollowed.next hk'
      rw [hround, ok_bind]
      refine ih (by omega) hready' (fun d' hd' => ?_) (by simp [hlength]) hpushed
      rcases Nat.lt_succ_iff_lt_or_eq.mp hd' with hlt | rfl
      · exact hfirst d' hlt
      · exact hno
    · obtain ⟨x, y, hround, hreach, hx, hy⟩ := hround
      obtain ⟨rfl, rfl⟩ := corner_of_first hreach hx hy hfirst
      rw [hround, ok_bind]
      exact ⟨d, trace ++ [v], rfl, by simp [hlength], hpushed, hreach, hfirst⟩

theorem calculateTrace_spec (a b : List (DefSignatureNode ω)) :
    ∃ d trace, calculateTrace a b = .ok (trace, a.length, b.length) ∧ Traced a b d trace :=
  rounds_spec rfl (by rfl) (fun d' hd' => absurd hd' (Nat.not_lt_zero d')) rfl (by simp)

end Search

/-! ## The script -/

namespace AstDiffElem

/-- The node that an element reads off the old list. -/
def oldNode : AstDiffElem ω → Option (DefSignatureNode ω)
  | keep a _ => some a
  | remove a => some a
  | add _ => none

/-- The node that an element reads off the new list. -/
def newNode : AstDiffElem ω → Option (DefSignatureNode ω)
  | keep _ b => some b
  | remove _ => none
  | add b => some b

def isEdit : AstDiffElem ω → Bool
  | keep _ _ => false
  | remove _ => true
  | add _ => true

end AstDiffElem

/-- A script reads off both lists in order, and keeps only nodes that are matched. -/
structure IsScript (a b : List (DefSignatureNode ω)) (script : List (AstDiffElem ω)) : Prop where
  old : script.filterMap AstDiffElem.oldNode = a
  new : script.filterMap AstDiffElem.newNode = b
  keeps : ∀ p q, .keep p q ∈ script → p.name = q.name ∧ p.isFunction = q.isFunction

/-- The number of removed and added nodes. -/
def cost (script : List (AstDiffElem ω)) : ℕ := script.countP AstDiffElem.isEdit

theorem isEqual_iff {p q : DefSignatureNode ω} :
    isEqual p q = true ↔ p.name = q.name ∧ p.isFunction = q.isFunction := by
  simp [isEqual]

omit [DecidableEq ω] in
theorem drop_of_get? {nodes : List (DefSignatureNode ω)} {x : ℕ} {p : DefSignatureNode ω}
    (h : nodes[x]? = some p) : nodes.drop x = p :: nodes.drop (x + 1) := by
  obtain ⟨hlt, rfl⟩ := List.getElem?_eq_some_iff.mp h
  exact List.drop_eq_getElem_cons hlt

omit [DecidableEq ω] in
theorem before_of_get? {nodes : List (DefSignatureNode ω)} {x : ℕ} {p : DefSignatureNode ω}
    (h : nodes[x]? = some p) : before nodes (x + 1) = .ok p := by
  rw [before, h]

section Script

variable {a b : List (DefSignatureNode ω)}

theorem isScript_keep {script : List (AstDiffElem ω)} {p q : DefSignatureNode ω} :
    IsScript a b (.keep p q :: script) ↔
      ∃ a' b', a = p :: a' ∧ b = q :: b' ∧ isEqual p q = true ∧ IsScript a' b' script := by
  constructor
  · intro h
    refine ⟨_, _, h.old.symm, h.new.symm, isEqual_iff.mpr (h.keeps p q List.mem_cons_self),
      rfl, rfl, fun p' q' hmem => h.keeps p' q' (List.mem_cons_of_mem _ hmem)⟩
  · intro h
    obtain ⟨_, _, rfl, rfl, hequal, hscript⟩ := h
    refine ⟨congrArg (p :: ·) hscript.old, congrArg (q :: ·) hscript.new, fun p' q' hmem => ?_⟩
    rcases List.mem_cons.mp hmem with heq | hmem
    · obtain ⟨rfl, rfl⟩ := AstDiffElem.keep.inj heq
      exact isEqual_iff.mp hequal
    · exact hscript.keeps p' q' hmem

omit [DecidableEq ω] in
theorem isScript_remove {script : List (AstDiffElem ω)} {p : DefSignatureNode ω} :
    IsScript a b (.remove p :: script) ↔ ∃ a', a = p :: a' ∧ IsScript a' b script := by
  constructor
  · intro h
    exact ⟨_, h.old.symm, rfl, h.new, fun p' q' hmem => h.keeps p' q' (List.mem_cons_of_mem _ hmem)⟩
  · intro h
    obtain ⟨_, rfl, hscript⟩ := h
    refine ⟨congrArg (p :: ·) hscript.old, hscript.new, fun p' q' hmem => ?_⟩
    exact hscript.keeps p' q' (List.mem_of_ne_of_mem (by simp) hmem)

omit [DecidableEq ω] in
theorem isScript_add {script : List (AstDiffElem ω)} {q : DefSignatureNode ω} :
    IsScript a b (.add q :: script) ↔ ∃ b', b = q :: b' ∧ IsScript a b' script := by
  constructor
  · intro h
    exact ⟨_, h.new.symm, h.old, rfl, fun p' q' hmem => h.keeps p' q' (List.mem_cons_of_mem _ hmem)⟩
  · intro h
    obtain ⟨_, rfl, hscript⟩ := h
    refine ⟨hscript.old, congrArg (q :: ·) hscript.new, fun p' q' hmem => ?_⟩
    exact hscript.keeps p' q' (List.mem_of_ne_of_mem (by simp) hmem)

/-- What the walk back has read from a position on. The elements are pushed in reverse. -/
def Read (a b : List (DefSignatureNode ω)) (x y : ℕ) (result : List (AstDiffElem ω)) : Prop :=
  IsScript (a.drop x) (b.drop y) result.reverse

theorem Read.keep {x y : ℕ} {result : List (AstDiffElem ω)} (h : Read a b (x + 1) (y + 1) result)
    {p q : DefSignatureNode ω} (hp : a[x]? = some p) (hq : b[y]? = some q)
    (hequal : isEqual p q = true) : Read a b x y (result ++ [.keep p q]) := by
  rw [Read, List.reverse_append, List.reverse_singleton, List.singleton_append]
  exact isScript_keep.mpr ⟨_, _, drop_of_get? hp, drop_of_get? hq, hequal, h⟩

omit [DecidableEq ω] in
theorem Read.remove {x y : ℕ} {result : List (AstDiffElem ω)} (h : Read a b (x + 1) y result)
    {p : DefSignatureNode ω} (hp : a[x]? = some p) : Read a b x y (result ++ [.remove p]) := by
  rw [Read, List.reverse_append, List.reverse_singleton, List.singleton_append]
  exact isScript_remove.mpr ⟨_, drop_of_get? hp, h⟩

omit [DecidableEq ω] in
theorem Read.add {x y : ℕ} {result : List (AstDiffElem ω)} (h : Read a b x (y + 1) result)
    {q : DefSignatureNode ω} (hq : b[y]? = some q) : Read a b x y (result ++ [.add q]) := by
  rw [Read, List.reverse_append, List.reverse_singleton, List.singleton_append]
  exact isScript_add.mpr ⟨_, drop_of_get? hq, h⟩

/-- The unchanged nodes are read back to where the diagonal was entered. -/
theorem keeps_spec (prevX : ℕ) (prevY : ℤ) {x₀ y₀ x y : ℕ} {result : List (AstDiffElem ω)}
    (hx : prevX ≤ x₀) (hy : prevY ≤ y₀) (hstop : ¬ (prevX < x₀ ∧ prevY < y₀))
    (hsnake : Snake a.length b.length (Same a b) x₀ y₀ x y) (hread : Read a b x y result) :
    ∃ result', keeps a b prevX prevY x y result = .ok (x₀, y₀, result') ∧
      Read a b x₀ y₀ result' ∧ cost result' = cost result := by
  obtain ⟨j, rfl, rfl, hmatch⟩ := hsnake
  induction j generalizing result with
  | zero =>
    rw [Nat.add_zero, Nat.add_zero] at *
    rw [keeps, if_neg hstop]
    exact ⟨result, rfl, hread, rfl⟩
  | succ j ih =>
    obtain ⟨p, q, hp, hq, hequal⟩ := (hmatch j (by omega)).2.2
    have hgoOn : prevX < x₀ + (j + 1) ∧ prevY < (y₀ + (j + 1) : ℕ) := by
      push_cast
      omega
    obtain ⟨result', hkeeps, hread', hcost⟩ :=
      ih (fun i hi => hmatch i (by omega)) (hread.keep hp hq hequal)
    refine ⟨result', ?_, hread', ?_⟩
    · rw [keeps, if_pos hgoOn, ← Nat.add_assoc, ← Nat.add_assoc, before_of_get? hp, ok_bind,
        before_of_get? hq, ok_bind]
      exact hkeeps
    · rw [hcost, cost, cost, List.countP_append]
      rfl

/-- The diagonal that a round comes from. -/
def previous (down : Bool) (k : ℤ) : ℤ := if down then k + 1 else k - 1

omit [DecidableEq ω] in
/-- One step of the walk back, once its round is known to be entered. -/
theorem walkBack_eq {trace : List Frontier} {v : Frontier} {d x y : ℕ} {down : Bool} {prevX : ℕ}
    {prevK : ℤ} {result : List (AstDiffElem ω)} (hv : (trace)[d]? = some v)
    (hdown : goesDown v d ((x : ℤ) - y) = .ok down) (hprevK : previous down ((x : ℤ) - y) = prevK)
    (hprev : v.get? prevK = some prevX) {x₀ y₀ : ℕ} {result' : List (AstDiffElem ω)}
    (hkeeps : keeps a b prevX (prevX - prevK) x y result = .ok (x₀, y₀, result')) :
    walkBack trace a b (d + 1) x y result =
      if d = 0 then .ok result'
      else removals a prevX x₀ result' >>= fun removed =>
        additions b (prevX - prevK) y₀ removed.2 >>= fun added =>
          walkBack trace a b d removed.1 added.1 added.2 := by
  subst hprevK
  rw [walkBack, hv]
  dsimp only
  rw [hdown, ok_bind, ← previous, entry_of_get? hprev, ok_bind, hkeeps, ok_bind]
  dsimp only
  split_ifs <;> rfl

omit [DecidableEq ω] in
theorem removals_done (x : ℕ) (result : List (AstDiffElem ω)) :
    removals a x x result = .ok (x, result) := by
  rw [removals, if_neg (lt_irrefl x)]

omit [DecidableEq ω] in
theorem removals_one {x : ℕ} {p : DefSignatureNode ω} (hp : a[x]? = some p)
    (result : List (AstDiffElem ω)) :
    removals a x (x + 1) result = .ok (x, result ++ [.remove p]) := by
  rw [removals, if_pos (Nat.lt_succ_self x), before_of_get? hp, ok_bind]
  exact removals_done x _

omit [DecidableEq ω] in
theorem additions_done (y : ℕ) (result : List (AstDiffElem ω)) :
    additions b y y result = .ok (y, result) := by
  cases y with
  | zero => rw [additions, if_neg (by simp)]
  | succ y => rw [additions, if_neg (lt_irrefl _)]

omit [DecidableEq ω] in
theorem additions_one {y : ℕ} {q : DefSignatureNode ω} (hq : b[y]? = some q)
    (result : List (AstDiffElem ω)) :
    additions b y (y + 1) result = .ok (y, result ++ [.add q]) := by
  rw [additions, if_pos (by push_cast; omega), before_of_get? hq, ok_bind]
  exact additions_done y _

/-- A point that is the furthest of its round lies behind the entry of its diagonal. -/
theorem Entered.snake {v : Frontier} {d x y : ℕ} {down : Bool} {x₀ y₀ : ℕ}
    (h : Entered a b v d ((x : ℤ) - y) down x₀ y₀)
    (hfurthest : FurthestOn a b d ((x : ℤ) - y) x) :
    Snake a.length b.length (Same a b) x₀ y₀ x y := by
  obtain ⟨x', y', -, hsnake, hstuck⟩ := follow_spec (a := a) (b := b) x₀ y₀
  have hfurthest' := Furthest.of_starts h.starts
    (fun x₁ y₁ hstarts hk => h.furthest x₁ y₁ hstarts (hk.trans h.sub)) hsnake hstuck
  rw [h.sub] at hfurthest'
  obtain rfl := hfurthest.unique hfurthest'
  have hsub := h.sub
  obtain ⟨j, hx, hy, hmatch⟩ := hsnake
  exact ⟨j, hx, by omega, hmatch⟩

/-- The walk back completes the script and pays one for every round but the first. -/
theorem walkBack_spec {trace : List Frontier} (htrace : ∀ i v, (trace)[i]? = some v →
    Ready a b i v) {d : ℕ} (hd : d < trace.length) {x y : ℕ} (hreach : Reaches a b d x y)
    (hfurthest : FurthestOn a b d ((x : ℤ) - y) x) (hx : x ≤ a.length) (hy : y ≤ b.length)
    {result : List (AstDiffElem ω)} (hread : Read a b x y result) :
    ∃ result', walkBack trace a b (d + 1) x y result = .ok result' ∧ Read a b 0 0 result' ∧
      cost result' = cost result + d := by
  induction d generalizing x y result with
  | zero =>
    have hv := List.getElem?_eq_getElem hd
    have hbounds := hreach.diagonal_bounds
    have hk : (x : ℤ) - y = 0 := by push_cast at hbounds; omega
    obtain ⟨x₀, y₀, hstarts, hsnake⟩ := hreach.exists_starts
    obtain ⟨rfl, rfl⟩ := hstarts
    have hdown : goesDown (trace)[0] 0 ((x : ℤ) - y) = .ok true := by
      rw [goesDown, if_pos (by simpa using hk)]
    have hprevK : previous true ((x : ℤ) - y) = 1 := by rw [hk]; rfl
    obtain ⟨result', hkeeps, hread', hcost⟩ := keeps_spec 0 ((0 : ℕ) - 1)
      le_rfl (by norm_num) (fun h => absurd h.1 (lt_irrefl 0)) hsnake hread
    refine ⟨result', ?_, hread', hcost⟩
    rw [walkBack_eq hv hdown hprevK (htrace 0 _ hv) hkeeps, if_pos rfl]
  | succ d ih =>
    have hv := List.getElem?_eq_getElem hd
    have hbounds := hreach.diagonal_bounds
    obtain ⟨down, x₀, y₀, hentered⟩ := exists_entered (htrace _ _ hv) hbounds.1 hbounds.2
      hreach.diagonal_parity
    have hsnake := hentered.snake hfurthest
    have hsub := hentered.sub
    have hle : x₀ ≤ x ∧ y₀ ≤ y := by
      obtain ⟨j, rfl, rfl, -⟩ := hsnake
      omega
    cases down with
    | true =>
      obtain ⟨hprev, hfurthest₀⟩ := hentered.fromAbove rfl
      have hfurthest' := hfurthest₀ d rfl
      obtain ⟨y', hk, hreach'⟩ := hfurthest'.reach
      obtain rfl : y₀ = y' + 1 := by omega
      obtain ⟨q, hq⟩ : ∃ q, b[y']? = some q :=
        ⟨_, List.getElem?_eq_getElem (by omega)⟩
      have hprevY : (x₀ : ℤ) - (x - y + 1) = y' := by omega
      obtain ⟨result', hkeeps, hread', hcost⟩ := keeps_spec x₀ y' le_rfl
        (by push_cast; omega) (fun h => absurd h.1 (lt_irrefl x₀)) hsnake hread
      rw [← hprevY] at hkeeps
      rw [← hk] at hfurthest'
      obtain ⟨result'', hwalk, hread'', hcost'⟩ := ih (by omega) hreach' hfurthest' (by omega)
        (by omega) (hread'.add hq)
      have hprevK : previous true ((x : ℤ) - y) = x - y + 1 := rfl
      refine ⟨result'', ?_, hread'', ?_⟩
      · rw [walkBack_eq hv hentered.goesDown hprevK hprev hkeeps, if_neg (Nat.succ_ne_zero d),
          removals_done, ok_bind]
        dsimp only
        rw [hprevY, additions_one hq, ok_bind]
        exact hwalk
      · have hone : cost (result' ++ [.add q]) = cost result' + 1 := List.countP_append
        omega
    | false =>
      obtain ⟨p, rfl, hprev, hfurthest₀⟩ := hentered.fromLeft rfl
      have hfurthest' := hfurthest₀ d rfl
      obtain ⟨y', hk, hreach'⟩ := hfurthest'.reach
      obtain rfl : y₀ = y' := by push_cast at hsub; omega
      obtain ⟨r, hr⟩ : ∃ r, a[p]? = some r := ⟨_, List.getElem?_eq_getElem (by omega)⟩
      have hprevY : (p : ℤ) - (x - y - 1) = y₀ := by omega
      obtain ⟨result', hkeeps, hread', hcost⟩ := keeps_spec p y₀
        (Nat.le_succ p) le_rfl (fun h => absurd h.2 (lt_irrefl _)) hsnake hread
      rw [← hprevY] at hkeeps
      rw [← hk] at hfurthest'
      obtain ⟨result'', hwalk, hread'', hcost'⟩ := ih (by omega) hreach' hfurthest' (by omega)
        (by omega) (hread'.remove hr)
      have hprevK : previous false ((x : ℤ) - y) = x - y - 1 := rfl
      refine ⟨result'', ?_, hread'', ?_⟩
      · rw [walkBack_eq hv hentered.goesDown hprevK hprev hkeeps, if_neg (Nat.succ_ne_zero d),
          removals_one hr, ok_bind]
        dsimp only
        rw [hprevY, additions_done, ok_bind]
        exact hwalk
      · have hone : cost (result' ++ [.remove r]) = cost result' + 1 := List.countP_append
        omega

/-- A script leads from its start to the end of the lists at its cost. -/
theorem reaches_of_isScript {script : List (AstDiffElem ω)} {d x y : ℕ} (hx : x ≤ a.length)
    (hy : y ≤ b.length) (hreach : Reaches a b d x y)
    (hscript : IsScript (a.drop x) (b.drop y) script) :
    Reaches a b (d + cost script) a.length b.length := by
  induction script generalizing d x y with
  | nil =>
    have hold : a.drop x = [] := hscript.old.symm
    have hnew : b.drop y = [] := hscript.new.symm
    rw [List.drop_eq_nil_iff] at hold hnew
    rw [le_antisymm hx hold, le_antisymm hy hnew] at hreach
    exact hreach
  | cons e script ih =>
    have hfront : ∀ {nodes rest : List (DefSignatureNode ω)} {i : ℕ} {p : DefSignatureNode ω},
        nodes.drop i = p :: rest →
          i + 1 ≤ nodes.length ∧ nodes[i]? = some p ∧ nodes.drop (i + 1) = rest := by
      intro nodes rest i p hdrop
      have hget : nodes[i]? = some p := by
        rw [← Nat.add_zero i, ← List.getElem?_drop, hdrop]
        rfl
      obtain ⟨hlt, -⟩ := List.getElem?_eq_some_iff.mp hget
      refine ⟨hlt, hget, ?_⟩
      rw [← List.drop_drop, hdrop]
      rfl
    cases e with
    | keep p q =>
      obtain ⟨a', b', ha, hb, hequal, hrest⟩ := isScript_keep.mp hscript
      obtain ⟨hx', hp, ha'⟩ := hfront ha
      obtain ⟨hy', hq, hb'⟩ := hfront hb
      rw [← ha', ← hb'] at hrest
      exact ih hx' hy' (hreach.diagonal (matches_iff.mpr ⟨p, q, hp, hq, hequal⟩)) hrest
    | remove p =>
      obtain ⟨a', ha, hrest⟩ := isScript_remove.mp hscript
      obtain ⟨hx', hp, ha'⟩ := hfront ha
      rw [← ha'] at hrest
      have hcost : cost (.remove p :: script) = cost script + 1 := List.countP_cons_of_pos rfl
      have hend := ih hx' hy hreach.right hrest
      rwa [hcost, ← Nat.add_assoc, Nat.add_right_comm]
    | add q =>
      obtain ⟨b', hb, hrest⟩ := isScript_add.mp hscript
      obtain ⟨hy', hq, hb'⟩ := hfront hb
      rw [← hb'] at hrest
      have hcost : cost (.add q :: script) = cost script + 1 := List.countP_cons_of_pos rfl
      have hend := ih hx hy' hreach.down hrest
      rwa [hcost, ← Nat.add_assoc, Nat.add_right_comm]

end Script

/-- The search and the walk back never fail, and the script that they find is a shortest one. -/
theorem shortest_script (a b : List (DefSignatureNode ω)) : ∃ trace x y script,
    calculateTrace a b = .ok (trace, x, y) ∧ extractDiff trace x y a b = .ok script ∧
      IsScript a b script ∧ ∀ script', IsScript a b script' → cost script ≤ cost script' := by
  obtain ⟨d, trace, hsearch, htraced⟩ := calculateTrace_spec a b
  have hread : Read a b a.length b.length [] := by
    rw [Read, List.drop_length, List.drop_length]
    exact ⟨rfl, rfl, fun p q hmem => absurd hmem List.not_mem_nil⟩
  obtain ⟨result, hwalk, hscript, hcost⟩ := walkBack_spec htraced.ready
    (by rw [htraced.length]; exact Nat.lt_succ_self d) htraced.reach htraced.furthest le_rfl le_rfl
    hread
  refine ⟨trace, a.length, b.length, result.reverse, hsearch, ?_, hscript, fun other hother => ?_⟩
  · rw [extractDiff, htraced.length, hwalk, ok_bind, pure_eq_ok]
  · have hend := reaches_of_isScript (Nat.zero_le _) (Nat.zero_le _) .origin hother
    have hle : d ≤ cost other := by
      by_contra hlt
      exact htraced.first (cost other) (by omega) (by simpa using hend)
    rw [cost, List.countP_reverse]
    have hcost' : result.countP AstDiffElem.isEdit = 0 + d := hcost
    omega

end Mago.Codebase.Differ
