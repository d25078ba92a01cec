import Mago.Guard.Text
import Mathlib

/-!
# What a pattern means

A pattern matches the names that one of its full expansions matches. The matcher finds these, and
for a constant some more, whose last segment differs in case: where an expansion goes on at its
end, with two stars or as a namespace, and stops with the name.
-/
namespace Mago.Guard
open Library.Ascii (lower eqIgnoreCase)

/-- The names that an expansion matches. -/
def Means (isConstant : Bool) (expansion name : Bytes) : Prop :=
  NameMatches isConstant (segments (trimSeparator expansion)) (segments (trimSeparator name)) ∨
    (star ∉ expansion ∧ expansion.getLast? = some separator ∧
      ∃ inside rest, segments (trimSeparator name) = inside ++ rest ∧ rest ≠ [] ∧
        NameMatches false (segments (trimSeparator expansion)) inside)

def IsExpansion (pattern expansion : Bytes) : Prop :=
  ∃ p : Braces, p.render = pattern ∧ expansion ∈ p.choices

def PatternMatches (isConstant : Bool) (pattern name : Bytes) : Prop :=
  ∃ expansion, IsExpansion pattern expansion ∧ Means isConstant expansion name

/-- An expansion that goes on at its end matches all of a name but for case. -/
def LosesCase (expansion name : Bytes) : Prop :=
  (star ∉ expansion ∧ expansion.getLast? = some separator ∧
      NameMatches false (segments (trimSeparator expansion)) (segments (trimSeparator name))) ∨
    ((segments (trimSeparator expansion)).getLast? = some [star, star] ∧
      NameMatches false (dropAny (segments (trimSeparator expansion)))
        (segments (trimSeparator name)))

/-! ## Outer separators -/

theorem mem_trimSeparator {b : UInt8} {s : Bytes} (hb : b ≠ separator) :
    b ∈ trimSeparator s ↔ b ∈ s := by
  have hdrop : ∀ t : Bytes, b ∈ t.dropWhile (· == separator) ↔ b ∈ t := by
    intro t
    induction t with
    | nil => rfl
    | cons c t ih =>
      rw [List.dropWhile_cons]
      split
      · next hc =>
        rw [beq_iff_eq] at hc
        rw [ih, List.mem_cons, hc]
        exact ⟨.inr, fun h => h.resolve_left hb⟩
      · rfl
  rw [trimSeparator, List.rdropWhile, List.mem_reverse, hdrop, List.mem_reverse, hdrop]

theorem head?_trimSeparator (s : Bytes) : (trimSeparator s).head? ≠ some separator := by
  intro h
  obtain ⟨after, happend⟩ := List.rdropWhile_prefix (· == separator)
    (s.dropWhile (· == separator))
  have hdrop : (s.dropWhile (· == separator)).head? = some separator := by
    rw [trimSeparator] at h
    rw [← happend, List.head?_append, h]
    rfl
  have hnot := List.head?_dropWhile_not (· == separator) s
  rw [hdrop] at hnot
  simp at hnot

theorem head_segments_ne {s : Bytes} (hne : s ≠ []) (hhead : s.head? ≠ some separator) :
    (segments s).head? ≠ some [] := by
  cases s with
  | nil => exact absurd rfl hne
  | cons b s =>
    rw [List.head?_cons, ne_eq, Option.some.injEq] at hhead
    rw [segments_cons, if_neg hhead]
    cases hsegments : segments s with
    | nil => exact absurd hsegments (segments_ne_nil s)
    | cons head tail => simp

theorem segments_nil : segments [] = [[]] := rfl

theorem not_nameMatches_empty {isConstant : Bool} {names : List Bytes}
    (h : names.head? ≠ some []) : ¬NameMatches isConstant [[]] names := by
  have hne : ([] : Bytes) ≠ [star, star] := by simp
  cases names with
  | nil => exact not_matchesBy_nil hne
  | cons name names =>
    intro hmatch
    have hglob := ((matchesBy_cons hne).mp hmatch).1
    rw [Library.glob_plain star _ List.not_mem_nil, List.map_nil, List.map_eq_nil_iff] at hglob
    exact h (congrArg some hglob)

/-! ## Patterns without braces -/

section Expanded

variable {name expansion : Bytes} {isConstant : Bool}

theorem not_losesCase_of_plain (hstar : star ∉ expansion)
    (hlast : expansion.getLast? ≠ some separator) : ¬LosesCase expansion name := by
  rintro (⟨-, hend, -⟩ | ⟨hany, -⟩)
  · exact hlast hend
  · have hplain : star ∉ trimSeparator expansion := fun h =>
      hstar ((mem_trimSeparator (by decide)).mp h)
    exact star_not_mem_segments hplain _ (List.mem_of_getLast? hany) (List.mem_cons_self ..)

theorem means_of_plain (hlast : ¬(star ∉ expansion ∧ expansion.getLast? = some separator)) :
    Means isConstant expansion name ↔
      NameMatches isConstant (segments (trimSeparator expansion))
        (segments (trimSeparator name)) := by
  rw [Means]
  exact or_iff_left fun h => hlast ⟨h.1, h.2.1⟩

/-- An expansion with nothing between its separators matches no name. -/
theorem not_means_of_empty (hname : trimSeparator name ≠ [])
    (hempty : trimSeparator expansion = []) :
    ¬(Means isConstant expansion name ∨ isConstant = true ∧ LosesCase expansion name) := by
  have hhead := head_segments_ne hname (head?_trimSeparator name)
  rw [Means, LosesCase, hempty, segments_nil]
  rintro ((h | ⟨-, -, inside, rest, heq, -, h⟩) | ⟨-, ⟨-, -, h⟩ | ⟨hany, -⟩⟩)
  · exact not_nameMatches_empty hhead h
  · refine not_nameMatches_empty (fun hinside => hhead ?_) h
    rw [heq, List.head?_append, hinside]
    rfl
  · exact not_nameMatches_empty hhead h
  · simp at hany

/-- As a namespace, the matcher never asks for the case of a segment. -/
theorem namespace_means (hstar : star ∉ expansion)
    (hlast : expansion.getLast? = some separator) :
    (∃ inside rest, segments (trimSeparator name) = inside ++ rest ∧
        NameMatches false (segments (trimSeparator expansion)) inside) ↔
      Means isConstant expansion name ∨ isConstant = true ∧ LosesCase expansion name := by
  constructor
  · rintro ⟨inside, rest, heq, h⟩
    by_cases hrest : rest = []
    · rw [hrest, List.append_nil] at heq
      rw [← heq] at h
      cases isConstant with
      | false => exact .inl (.inl h)
      | true => exact .inr ⟨rfl, .inl ⟨hstar, hlast, h⟩⟩
    · exact .inl (.inr ⟨hstar, hlast, inside, rest, heq, hrest, h⟩)
  · have hwhole : NameMatches false (segments (trimSeparator expansion))
        (segments (trimSeparator name)) →
        ∃ inside rest, segments (trimSeparator name) = inside ++ rest ∧
          NameMatches false (segments (trimSeparator expansion)) inside :=
      fun h => ⟨_, [], (List.append_nil _).symm, h⟩
    rintro ((h | ⟨-, -, inside, rest, heq, -, h⟩) | ⟨-, ⟨-, -, h⟩ | ⟨hany, -⟩⟩)
    · cases isConstant with
      | false => exact hwhole h
      | true => exact hwhole (nameMatches_insensitive h)
    · exact ⟨inside, rest, heq, h⟩
    · exact hwhole h
    · have hplain : star ∉ trimSeparator expansion := fun h =>
        hstar ((mem_trimSeparator (by decide)).mp h)
      exact absurd (List.mem_cons_self ..)
        (star_not_mem_segments hplain _ (List.mem_of_getLast? hany))

theorem matchesExpanded_plain (hname : trimSeparator name ≠ []) (hstar : star ∉ expansion) :
    matchesExpanded name expansion isConstant false = true ↔
      Means isConstant expansion name ∨ isConstant = true ∧ LosesCase expansion name := by
  have hplain : star ∉ trimSeparator expansion := fun h =>
    hstar ((mem_trimSeparator (by decide)).mp h)
  rw [matchesExpanded, if_pos hstar]
  dsimp only
  split
  · next hempty =>
    rw [List.isEmpty_iff] at hempty
    refine iff_of_false ?_ (not_means_of_empty hname hempty)
    rw [List.isEmpty_iff]
    exact hname
  rw [Bool.false_or]
  split
  · next hlast =>
    rw [beq_iff_eq] at hlast
    rw [namespace_iff hplain]
    exact namespace_means hstar hlast
  next hlast =>
  rw [beq_iff_eq] at hlast
  rw [means_of_plain fun h => hlast h.2, or_iff_left fun h =>
    not_losesCase_of_plain hstar hlast h.2]
  cases isConstant with
  | false =>
    rw [if_neg Bool.false_ne_true, eqIgnoreCase_iff_segments,
      nameMatches_false_plain (star_not_mem_segments hplain)]
  | true =>
    rw [if_pos rfl]
    exact constant_iff hplain

theorem matchesExpanded_starred (hname : trimSeparator name ≠ []) (hstar : star ∈ expansion) :
    matchesExpanded name expansion isConstant false = true ↔
      Means isConstant expansion name ∨ isConstant = true ∧ LosesCase expansion name := by
  have hin : star ∈ trimSeparator expansion := (mem_trimSeparator (by decide)).mpr hstar
  have hnonempty : trimSeparator expansion ≠ [] := List.ne_nil_of_mem hin
  rw [matchesExpanded, if_neg (not_not_intro hstar), means_of_plain fun h => h.1 hstar]
  dsimp only
  split
  · next hany =>
    refine iff_of_true rfl (.inl ?_)
    rw [hany]
    exact matchesBy_any.mpr ⟨_, [], (List.append_nil _).symm, rfl⟩
  split
  · next hany hone =>
    have hrule : (segments (trimSeparator expansion)) = [[star]] := by rw [hone]; rfl
    have hne : [star] ≠ [star, star] := by simp
    have hloses : ¬LosesCase expansion name := by
      rintro (⟨h, -⟩ | ⟨h, -⟩)
      · exact h hstar
      · rw [hrule] at h
        simp at h
    rw [hrule, or_iff_left fun h => hloses h.2, Bool.not_eq_true', ← Bool.not_eq_true,
      List.contains_iff_mem]
    constructor
    · intro hnot
      rw [segments_of_not_mem hnot]
      refine (matchesBy_cons hne).mpr ⟨?_, rfl⟩
      rw [Library.Glob, if_pos rfl]
      exact ⟨_, [], (List.append_nil _).symm, rfl⟩
    · intro hmatch
      obtain ⟨segment, tail, heq⟩ := List.exists_cons_of_ne_nil
        (segments_ne_nil (trimSeparator name))
      rw [heq] at hmatch
      have hrest := ((matchesBy_cons hne).mp hmatch).2
      rw [MatchesBy] at hrest
      rw [hrest] at heq
      have hjoined := congrArg (List.intercalate [separator]) heq
      rw [segments, List.intercalate_splitOn, List.intercalate_singleton] at hjoined
      rw [hjoined]
      exact separator_not_mem_segments (heq ▸ List.mem_singleton_self segment)
  rw [if_neg (by simp [hname, hnonempty]), doMatch_iff]
  have hsegments : ∀ s : Bytes, segmentsOf (some s) = segments s := fun _ => rfl
  rw [hsegments, hsegments]
  cases isConstant with
  | false =>
    rw [matcherMatches_false]
    simp
  | true =>
    rw [matcherMatches_true, LosesCase]
    simp [hstar]

/-- The names an expansion matches, and for a constant those for which it loses the case. -/
theorem matchesExpanded_iff (hname : trimSeparator name ≠ []) :
    matchesExpanded name expansion isConstant false = true ↔
      Means isConstant expansion name ∨ isConstant = true ∧ LosesCase expansion name := by
  by_cases hstar : star ∈ expansion
  · exact matchesExpanded_starred hname hstar
  · exact matchesExpanded_plain hname hstar

end Expanded

/-! ## Patterns -/

theorem anyM_eq_some {xs : List Bytes} {call : Bytes → Option Bool} {f : Bytes → Bool}
    (h : ∀ x ∈ xs, call x = some (f x)) : xs.anyM call = some (xs.any f) := by
  induction xs with
  | nil => rfl
  | cons x xs ih =>
    have hrest := ih fun y hy => h y (List.mem_cons_of_mem x hy)
    rw [List.anyM_cons, List.any_cons, h x (List.mem_cons_self ..), hrest]
    cases f x <;> rfl

/-- Two nested calls are enough: the expansions of a rendered tree have no braces. -/
theorem matchesPattern_render (p : Braces) (name : Bytes) (isConstant treatAsNamespace : Bool)
    (fuel : ℕ) :
    matchesPattern (fuel + 2) name p.render isConstant treatAsNamespace =
      some (p.choices.any fun expansion =>
        matchesExpanded name expansion isConstant treatAsNamespace) := by
  have hcall : ∀ expansion ∈ p.choices,
      matchesPattern (fuel + 1) name expansion isConstant treatAsNamespace =
        some (matchesExpanded name expansion isConstant treatAsNamespace) := by
    intro expansion hmem
    rw [matchesPattern, if_neg (not_mem_choices p expansion hmem)]
  rw [matchesPattern]
  split
  · rw [expandBraces_render]
    exact anyM_eq_some hcall
  · next hopen =>
    have hchoices := expandBraces_render p
    rw [expandBraces_of_not_mem hopen] at hchoices
    rw [← hchoices, List.any_cons, List.any_nil, Bool.or_false]

theorem exists_tree {pattern : Bytes} (h : isValidPattern pattern = true) :
    ∃ p : Braces, p.render = pattern := by
  refine (exists_render ?_ pattern.length pattern le_rfl 0 h).1 rfl
  intro b hb
  constructor <;> rintro rfl <;> exact absurd hb (by decide)

theorem isExpansion_render {p : Braces} {expansion : Bytes} :
    IsExpansion p.render expansion ↔ expansion ∈ p.choices := by
  constructor
  · rintro ⟨q, heq, hmem⟩
    rw [← expandBraces_render] at hmem ⊢
    rwa [← heq]
  · intro hmem
    exact ⟨p, rfl, hmem⟩

/-- A call returns, and it finds what the pattern means unless it loses the case of a constant's
last segment where nothing else matches. -/
theorem matchesPattern_iff_meaning {name pattern : Bytes} (hname : trimSeparator name ≠ [])
    (hpattern : isValidPattern pattern = true) (isConstant : Bool) :
    ∃ result, (∀ fuel, 2 ≤ fuel → matchesPattern fuel name pattern isConstant false = some result) ∧
      ((result = true ↔ PatternMatches isConstant pattern name) ↔
        ¬(isConstant = true ∧ ¬PatternMatches isConstant pattern name ∧
          ∃ expansion, IsExpansion pattern expansion ∧ LosesCase expansion name)) := by
  obtain ⟨p, rfl⟩ := exists_tree hpattern
  refine ⟨p.choices.any fun expansion => matchesExpanded name expansion isConstant false,
    ?_, ?_⟩
  · intro fuel hfuel
    obtain ⟨more, rfl⟩ := Nat.exists_eq_add_of_le' hfuel
    exact matchesPattern_render p name isConstant false more
  have hcode : (p.choices.any fun expansion => matchesExpanded name expansion isConstant false) =
      true ↔ PatternMatches isConstant p.render name ∨
        (isConstant = true ∧ ∃ expansion, IsExpansion p.render expansion ∧
          LosesCase expansion name) := by
    rw [List.any_eq_true, PatternMatches]
    simp only [isExpansion_render, matchesExpanded_iff hname]
    constructor
    · rintro ⟨expansion, hmem, h | ⟨hconstant, h⟩⟩
      · exact .inl ⟨expansion, hmem, h⟩
      · exact .inr ⟨hconstant, expansion, hmem, h⟩
    · rintro (⟨expansion, hmem, h⟩ | ⟨hconstant, expansion, hmem, h⟩)
      · exact ⟨expansion, hmem, .inl h⟩
      · exact ⟨expansion, hmem, .inr ⟨hconstant, h⟩⟩
  rw [hcode, or_iff_left_iff_imp]
  constructor
  · rintro himp ⟨hconstant, hnot, hloses⟩
    exact hnot (himp ⟨hconstant, hloses⟩)
  · rintro hnot ⟨hconstant, hloses⟩
    by_contra hmatch
    exact hnot ⟨hconstant, hmatch, hloses⟩

/-- `App\Bar` is found by the second expansion of `App\{Foo,B*}`. -/
theorem matchesPattern_iff_meaning_braces :
    ∃ result, (∀ fuel, 2 ≤ fuel → matchesPattern fuel [65, 112, 112, 92, 66, 97, 114]
        [65, 112, 112, 92, 123, 70, 111, 111, 44, 66, 42, 125] true false = some result) ∧
      ((result = true ↔ PatternMatches true
          [65, 112, 112, 92, 123, 70, 111, 111, 44, 66, 42, 125]
          [65, 112, 112, 92, 66, 97, 114]) ↔
        ¬(true = true ∧ ¬PatternMatches true
            [65, 112, 112, 92, 123, 70, 111, 111, 44, 66, 42, 125]
            [65, 112, 112, 92, 66, 97, 114] ∧
          ∃ expansion,
            IsExpansion [65, 112, 112, 92, 123, 70, 111, 111, 44, 66, 42, 125] expansion ∧
              LosesCase expansion [65, 112, 112, 92, 66, 97, 114])) :=
  matchesPattern_iff_meaning (by decide) (by decide) true

/-- The constant `App\FOO` is taken for one of `App\foo\**`, whose last segment differs from it
in case. -/
theorem not_patternMatches_fooCase :
    isValidPattern [65, 112, 112, 92, 102, 111, 111, 92, 42, 42] = true ∧
      trimSeparator [65, 112, 112, 92, 70, 79, 79] ≠ [] ∧
      (∀ fuel, matchesPattern (fuel + 1) [65, 112, 112, 92, 70, 79, 79]
        [65, 112, 112, 92, 102, 111, 111, 92, 42, 42] true false = some true) ∧
      ¬PatternMatches true [65, 112, 112, 92, 102, 111, 111, 92, 42, 42]
        [65, 112, 112, 92, 70, 79, 79] := by
  have hname : trimSeparator [65, 112, 112, 92, 70, 79, 79] ≠ [] := by decide
  have happ : ([65, 112, 112] : Bytes) ≠ [star, star] := by decide
  have hfoo : ([102, 111, 111] : Bytes) ≠ [star, star] := by decide
  refine ⟨by decide, hname, fun fuel => ?_, ?_⟩
  · rw [matchesPattern, if_neg (by decide), Option.some.injEq, matchesExpanded_iff hname]
    refine .inr ⟨rfl, .inr ⟨rfl, ?_⟩⟩
    refine (matchesBy_cons happ).mpr ⟨?_, (matchesBy_cons hfoo).mpr ⟨?_, rfl⟩⟩
    · rw [Library.glob_plain star _ (by decide)]
      rfl
    · rw [Library.glob_plain star _ (by decide)]
      rfl
  · rintro ⟨expansion, ⟨p, hp, hmem⟩, hmeans⟩
    have hchoices := expandBraces_render p
    rw [hp, expandBraces_of_not_mem (by decide)] at hchoices
    rw [← hchoices, List.mem_singleton] at hmem
    rw [hmem, means_of_plain fun h => h.1 (by decide)] at hmeans
    have hrest := ((matchesBy_cons happ).mp hmeans).2
    have hglob := ((matchesBy_cons hfoo).mp hrest).1
    rw [Library.glob_plain star _ (by decide)] at hglob
    exact absurd hglob (by decide)

end Mago.Guard
