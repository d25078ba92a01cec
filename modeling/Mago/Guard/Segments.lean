import Mago.Guard.Matcher
import Mathlib

/-!
# Names segment by segment

What a pattern without braces means: one segment after another, with any number of segments for
two stars. Which segment is compared as it is, and not in small letters, is a rule of its own:
the meaning has one rule and the matcher another.
-/
namespace Mago.Guard
open Library (Glob InOrder findAll findAll_iff glob_plain glob_chunk glob_after_star)
open Library.Ascii (toLowercase lower eqIgnoreCase eqIgnoreCase_iff)

theorem sameText_iff {caseSensitive : Bool} {s t : Bytes} :
    sameText caseSensitive s t = true ↔
      s.map (caseKey caseSensitive) = t.map (caseKey caseSensitive) := by
  cases caseSensitive with
  | false => exact eqIgnoreCase_iff
  | true =>
    have hid : caseKey true = id := rfl
    simp [sameText, hid]

/-! ## One segment -/

/-- Text of a known length at the left end is cut off there. -/
theorem cut_left {key : UInt8 → UInt8} {chunk text : Bytes} {Q : Bytes → Prop} :
    (∃ found tail, text = found ++ tail ∧ found.map key = chunk.map key ∧ Q tail) ↔
      ¬text.length < chunk.length ∧
        (text.take chunk.length).map key = chunk.map key ∧ Q (text.drop chunk.length) := by
  constructor
  · rintro ⟨found, tail, rfl, hfound, htail⟩
    have hlength : found.length = chunk.length := by
      have := congrArg List.length hfound
      rwa [List.length_map, List.length_map] at this
    rw [← hlength, List.take_left, List.drop_left, List.length_append]
    exact ⟨by omega, hfound, htail⟩
  · rintro ⟨-, hfound, htail⟩
    exact ⟨_, _, (List.take_append_drop _ _).symm, hfound, htail⟩

theorem cut_right {key : UInt8 → UInt8} {chunk text : Bytes} {Q : Bytes → Prop} :
    (∃ before last, text = before ++ last ∧ last.map key = chunk.map key ∧ Q before) ↔
      ¬text.length < chunk.length ∧
        (text.drop (text.length - chunk.length)).map key = chunk.map key ∧
        Q (text.take (text.length - chunk.length)) := by
  constructor
  · rintro ⟨before, last, rfl, hlast, hbefore⟩
    have hlength : last.length = chunk.length := by
      have := congrArg List.length hlast
      rwa [List.length_map, List.length_map] at this
    rw [← hlength, List.length_append, Nat.add_sub_cancel, List.take_left, List.drop_left]
    exact ⟨by omega, hlast, hbefore⟩
  · rintro ⟨-, hlast, hbefore⟩
    exact ⟨_, _, (List.take_append_drop _ _).symm, hlast, hbefore⟩

theorem guarded_iff {fails : Prop} [Decidable fails] {same rest : Bool} :
    (if fails then false else if !same then false else rest) = true ↔
      ¬fails ∧ same = true ∧ rest = true := by
  by_cases h : fails <;> cases same <;> simp [h]

/-- A segment matches exactly as its stars say. -/
theorem segmentMatches_iff (part pattern : Bytes) (caseSensitive : Bool) :
    segmentMatches part pattern caseSensitive = true ↔
      Glob star (caseKey caseSensitive) pattern part := by
  rw [segmentMatches]
  split
  · next h =>
    refine iff_of_true rfl ?_
    rw [h, Glob, if_pos rfl]
    exact ⟨part, [], (List.append_nil part).symm, rfl⟩
  split
  · next h => rw [sameText_iff, glob_plain star _ h]
  · next hstar =>
    obtain ⟨firstChunk, rest, rfl, hfirst⟩ :=
      List.eq_append_cons_of_mem (Decidable.not_not.mp hstar)
    rw [List.splitOn_append_cons_self_of_not_mem hfirst]
    simp only [List.head?_cons, Option.getD_some, List.tail_cons]
    have hmeaning : Glob star (caseKey caseSensitive) (firstChunk ++ star :: rest) part ↔
        ∃ found tail, part = found ++ tail ∧
          found.map (caseKey caseSensitive) = firstChunk.map (caseKey caseSensitive) ∧
          ∃ before last, tail = before ++ last ∧
            last.map (caseKey caseSensitive) =
              ((rest.splitOn star).getLast?.getD []).map (caseKey caseSensitive) ∧
            InOrder (caseKey caseSensitive) (rest.splitOn star).dropLast before := by
      rw [glob_chunk star _ hfirst]
      constructor
      · rintro ⟨found, skipped, tail, rfl, hfound, htail⟩
        exact ⟨found, skipped ++ tail, List.append_assoc _ _ _, hfound,
          (glob_after_star star _ rest _).mp ⟨skipped, tail, rfl, htail⟩⟩
      · rintro ⟨found, tail, rfl, hfound, htail⟩
        obtain ⟨skipped, last, rfl, hlast⟩ := (glob_after_star star _ rest _).mpr htail
        exact ⟨found, skipped, last, (List.append_assoc _ _ _).symm, hfound, hlast⟩
    rw [hmeaning]
    simp only [cut_right]
    rw [cut_left]
    simp only [← sameText_iff, ← findAll_iff]
    exact guarded_iff.trans (and_congr Iff.rfl (and_congr Iff.rfl guarded_iff))

/-! ## All segments -/

/-- The segments of a pattern against those of a name. Two stars stand for any number. The rule says from the segments after
these whether they are compared as they are. -/
def MatchesBy (rule : List Bytes → List Bytes → Bool) : List Bytes → List Bytes → Prop
  | [], names => names = []
  | p :: patterns, names =>
    if p = [star, star] then
      ∃ skipped rest, names = skipped ++ rest ∧ MatchesBy rule patterns rest
    else
      ∃ name rest, names = name :: rest ∧ Glob star (caseKey (rule rest patterns)) p name ∧
        MatchesBy rule patterns rest

/-- The last segment of a constant's name is compared as it is, and no other. -/
def NameMatches (isConstant : Bool) (patterns names : List Bytes) : Prop :=
  MatchesBy (fun rest _ => isConstant && rest.isEmpty) patterns names

/-- The matcher compares it as it is only against the last segment of the pattern. -/
def MatcherMatches (isConstant : Bool) (patterns names : List Bytes) : Prop :=
  MatchesBy (fun rest patterns => isConstant && (rest.isEmpty && patterns.isEmpty)) patterns names

def segments (s : Bytes) : List Bytes := s.splitOn separator

def segmentsOf : Option Bytes → List Bytes
  | none => []
  | some s => segments s

theorem segments_eq (s : Bytes) :
    segments s = (splitFirstSeparator s).1 :: segmentsOf (splitFirstSeparator s).2 := by
  induction s with
  | nil => rfl
  | cons b s ih =>
    rw [segments, List.splitOn_cons_eq_if_modifyHead, splitFirstSeparator]
    by_cases hb : b = separator
    · rw [if_pos (by simpa using hb), if_pos hb]
      rfl
    · rw [if_neg (by simpa using hb), if_neg hb]
      rw [segments] at ih
      rw [ih]
      rfl

theorem segmentsOf_eq_nil {s : Option Bytes} : segmentsOf s = [] ↔ s = none := by
  cases s with
  | none => exact iff_of_true rfl rfl
  | some s => exact iff_of_false (List.splitOn_ne_nil separator s) (by simp)

theorem isEmpty_segmentsOf (s : Option Bytes) : (segmentsOf s).isEmpty = s.isNone := by
  cases s with
  | none => rfl
  | some s => rw [segmentsOf, segments_eq]; rfl

/-- Any number of segments are none, or one and any number more. -/
theorem exists_skipped {names : List Bytes} {Q : List Bytes → Prop} :
    (∃ skipped rest, names = skipped ++ rest ∧ Q rest) ↔
      Q names ∨ ∃ name tail, names = name :: tail ∧
        ∃ skipped rest, tail = skipped ++ rest ∧ Q rest := by
  constructor
  · rintro ⟨skipped, rest, rfl, h⟩
    cases skipped with
    | nil => exact .inl h
    | cons name skipped => exact .inr ⟨name, skipped ++ rest, rfl, skipped, rest, rfl, h⟩
  · rintro (h | ⟨name, tail, rfl, skipped, rest, rfl, h⟩)
    · exact ⟨[], names, rfl, h⟩
    · exact ⟨name :: skipped, rest, rfl, h⟩

/-- The recursion of the matcher goes through the segments. -/
theorem doMatch_iff (fqcn pattern : Option Bytes) (isConstant : Bool) :
    doMatch fqcn pattern isConstant = true ↔
      MatcherMatches isConstant (segmentsOf pattern) (segmentsOf fqcn) := by
  fun_induction doMatch fqcn pattern isConstant with
  | case1 fqcn =>
    rw [MatcherMatches, segmentsOf, MatchesBy, segmentsOf_eq_nil, Option.isNone_iff_eq_none]
  | case2 fqcn p hany hrest =>
    rw [Option.isNone_iff_eq_none] at hrest
    rw [MatcherMatches, segmentsOf, segments_eq, hrest, MatchesBy, if_pos hany]
    exact iff_of_true rfl ⟨segmentsOf fqcn, [], (List.append_nil _).symm, rfl⟩
  | case3 fqcn p hany hrest ihRest ihMore =>
    rw [MatcherMatches, segmentsOf, segments_eq, MatchesBy, if_pos hany, exists_skipped,
      Bool.or_eq_true]
    refine or_congr ihRest ?_
    cases fqcn with
    | none => simp [segmentsOf]
    | some f =>
      have hmore : MatcherMatches isConstant (segmentsOf (some p))
          (segmentsOf (splitFirstSeparator f).2) ↔
          ∃ skipped rest, segmentsOf (splitFirstSeparator f).2 = skipped ++ rest ∧
            MatcherMatches isConstant (segmentsOf (splitFirstSeparator p).2) rest := by
        conv_lhs => rw [MatcherMatches, segmentsOf, segments_eq, MatchesBy, if_pos hany]
        rfl
      dsimp only at ihMore ⊢
      rw [ihMore, hmore, segmentsOf, segments_eq f]
      simp [MatcherMatches]
  | case4 p hany =>
    rw [MatcherMatches, segmentsOf, segmentsOf, segments_eq, MatchesBy, if_neg hany]
    simp
  | case5 p hany f isLast caseSensitive hsame ih =>
    have hglob : Glob star (caseKey (isConstant && ((segmentsOf (splitFirstSeparator f).2).isEmpty &&
        (segmentsOf (splitFirstSeparator p).2).isEmpty))) (splitFirstSeparator p).1
        (splitFirstSeparator f).1 := by
      rw [isEmpty_segmentsOf, isEmpty_segmentsOf]
      exact (segmentMatches_iff _ _ _).mp hsame
    rw [ih, MatcherMatches, MatcherMatches, segmentsOf, segments_eq p, MatchesBy, if_neg hany]
    constructor
    · intro h
      exact ⟨_, _, segments_eq f, hglob, h⟩
    · rintro ⟨name, rest, hnames, -, h⟩
      rw [segmentsOf, segments_eq, List.cons.injEq] at hnames
      rwa [hnames.2]
  | case6 p hany f isLast caseSensitive hsame =>
    rw [MatcherMatches, segmentsOf, segments_eq p, MatchesBy, if_neg hany]
    refine iff_of_false Bool.false_ne_true ?_
    rintro ⟨name, rest, hnames, hglob, -⟩
    rw [segmentsOf, segments_eq, List.cons.injEq] at hnames
    rw [← hnames.1, ← hnames.2, isEmpty_segmentsOf, isEmpty_segmentsOf] at hglob
    exact hsame ((segmentMatches_iff _ _ _).mpr hglob)

/-! ## The two rules -/

section Rules

variable {rule : List Bytes → List Bytes → Bool} {p name : Bytes} {patterns names : List Bytes}

theorem matchesBy_any :
    MatchesBy rule ([star, star] :: patterns) names ↔
      ∃ skipped rest, names = skipped ++ rest ∧ MatchesBy rule patterns rest := by
  rw [MatchesBy, if_pos rfl]

theorem not_matchesBy_nil (hp : p ≠ [star, star]) : ¬MatchesBy rule (p :: patterns) [] := by
  rw [MatchesBy, if_neg hp]
  rintro ⟨name, rest, heq, -⟩
  cases heq

theorem matchesBy_cons (hp : p ≠ [star, star]) :
    MatchesBy rule (p :: patterns) (name :: names) ↔
      Glob star (caseKey (rule names patterns)) p name ∧ MatchesBy rule patterns names := by
  rw [MatchesBy, if_neg hp]
  constructor
  · rintro ⟨name', rest, heq, hglob, h⟩
    rw [List.cons.injEq] at heq
    rw [heq.1, heq.2]
    exact ⟨hglob, h⟩
  · rintro ⟨hglob, h⟩
    exact ⟨name, names, rfl, hglob, h⟩

/-- No segments are left only for a pattern that needs none. -/
theorem matchesBy_nil_names :
    MatchesBy rule patterns [] ↔ ∀ p ∈ patterns, p = [star, star] := by
  induction patterns with
  | nil => simp [MatchesBy]
  | cons p patterns ih =>
    by_cases hp : p = [star, star]
    · rw [hp, matchesBy_any, exists_skipped, ih]
      simp
    · refine iff_of_false (not_matchesBy_nil hp) fun h => hp (h p (by simp))

/-- Insensitive to case is all that the matcher can be where it is no constant's name. -/
theorem matcherMatches_false :
    MatcherMatches false patterns names ↔ NameMatches false patterns names :=
  Iff.rfl

/-- The pattern without the double stars at its end. -/
def dropAny : List Bytes → List Bytes
  | [] => []
  | p :: patterns => if p = [star, star] ∧ dropAny patterns = [] then [] else p :: dropAny patterns

theorem dropAny_eq_nil : dropAny patterns = [] ↔ ∀ p ∈ patterns, p = [star, star] := by
  induction patterns with
  | nil => simp [dropAny]
  | cons p patterns ih =>
    rw [dropAny]
    split
    · next h =>
      refine iff_of_true rfl ?_
      rw [List.forall_mem_cons]
      exact ⟨h.1, ih.mp h.2⟩
    · next h =>
      refine iff_of_false (List.cons_ne_nil _ _) fun hall => h ⟨hall p (by simp), ?_⟩
      exact ih.mpr fun q hq => hall q (by simp [hq])

theorem glob_insensitive {caseSensitive : Bool} {text : Bytes}
    (h : Glob star (caseKey caseSensitive) p text) : Glob star (caseKey false) p text := by
  refine Library.glob_mono star _ (fun x y hxy => ?_) h
  cases caseSensitive with
  | false => exact hxy
  | true => exact congrArg toLowercase hxy

/-- The matcher lets a constant's name through too where the pattern ends in double stars and
what is before them matches all of the name but for case. -/
theorem matcherMatches_true :
    MatcherMatches true patterns names ↔
      NameMatches true patterns names ∨
        (patterns.getLast? = some [star, star] ∧ NameMatches false (dropAny patterns) names) := by
  induction patterns generalizing names with
  | nil => simp [MatcherMatches, NameMatches, MatchesBy]
  | cons p patterns ih =>
    by_cases hp : p = [star, star]
    · subst hp
      have hmatcher : MatcherMatches true ([star, star] :: patterns) names ↔
          ∃ skipped rest, names = skipped ++ rest ∧ MatcherMatches true patterns rest :=
        matchesBy_any
      have hname : NameMatches true ([star, star] :: patterns) names ↔
          ∃ skipped rest, names = skipped ++ rest ∧ NameMatches true patterns rest :=
        matchesBy_any
      by_cases hall : dropAny patterns = []
      · -- Double stars only, which match every name.
        have hnone : NameMatches true patterns [] :=
          matchesBy_nil_names.mpr (dropAny_eq_nil.mp hall)
        have hend : names = names ++ [] := (List.append_nil names).symm
        exact iff_of_true (hmatcher.mpr ⟨names, [], hend, ih.mpr (.inl hnone)⟩)
          (.inl (hname.mpr ⟨names, [], hend, hnone⟩))
      · have hne : patterns ≠ [] := by
          rintro rfl
          exact hall rfl
        have hdrop : dropAny ([star, star] :: patterns) = [star, star] :: dropAny patterns := by
          rw [dropAny, if_neg fun h => hall h.2]
        have hlast : ([star, star] :: patterns).getLast? = patterns.getLast? := by
          rw [List.getLast?_cons_of_ne_nil hne]
        have hbody : NameMatches false ([star, star] :: dropAny patterns) names ↔
            ∃ skipped rest, names = skipped ++ rest ∧
              NameMatches false (dropAny patterns) rest :=
          matchesBy_any
        rw [hmatcher, hname, hdrop, hlast, hbody]
        simp only [ih]
        constructor
        · rintro ⟨skipped, rest, heq, h | ⟨hend, h⟩⟩
          · exact .inl ⟨skipped, rest, heq, h⟩
          · exact .inr ⟨hend, skipped, rest, heq, h⟩
        · rintro (⟨skipped, rest, heq, h⟩ | ⟨hend, skipped, rest, heq, h⟩)
          · exact ⟨skipped, rest, heq, .inl h⟩
          · exact ⟨skipped, rest, heq, .inr ⟨hend, h⟩⟩
    · have hdrop : dropAny (p :: patterns) = p :: dropAny patterns := by
        rw [dropAny, if_neg fun h => hp h.1]
      rw [hdrop]
      cases names with
      | nil =>
        refine iff_of_false (not_matchesBy_nil hp) ?_
        rintro (h | ⟨-, h⟩)
        · exact not_matchesBy_nil hp h
        · exact not_matchesBy_nil hp h
      | cons name rest =>
        have hmatcher : MatcherMatches true (p :: patterns) (name :: rest) ↔
            Glob star (caseKey (rest.isEmpty && patterns.isEmpty)) p name ∧
              MatcherMatches true patterns rest :=
          matchesBy_cons hp
        have hname : NameMatches true (p :: patterns) (name :: rest) ↔
            Glob star (caseKey rest.isEmpty) p name ∧ NameMatches true patterns rest :=
          matchesBy_cons hp
        have hbody : NameMatches false (p :: dropAny patterns) (name :: rest) ↔
            Glob star (caseKey false) p name ∧ NameMatches false (dropAny patterns) rest :=
          matchesBy_cons hp
        rw [hmatcher, hname, hbody, ih]
        cases patterns with
        | nil => simp [hp]
        | cons q patterns =>
          rw [List.getLast?_cons_cons, List.isEmpty_cons, Bool.and_false]
          cases rest with
          | nil =>
            have hends : NameMatches true (q :: patterns) [] →
                (q :: patterns).getLast? = some [star, star] ∧
                  NameMatches false (dropAny (q :: patterns)) [] := by
              intro h
              have hall := matchesBy_nil_names.mp h
              refine ⟨?_, ?_⟩
              · rw [List.getLast?_eq_some_getLast (List.cons_ne_nil _ _),
                  hall _ (List.getLast_mem _)]
              · rw [dropAny_eq_nil.mpr hall]
                rfl
            constructor
            · rintro ⟨hglob, h | h⟩
              · exact .inr ⟨(hends h).1, hglob, (hends h).2⟩
              · exact .inr ⟨h.1, hglob, h.2⟩
            · rintro (⟨hglob, h⟩ | ⟨hend, hglob, h⟩)
              · exact ⟨glob_insensitive hglob, .inl h⟩
              · exact ⟨hglob, .inr ⟨hend, h⟩⟩
          | cons next rest =>
            rw [List.isEmpty_cons]
            constructor
            · rintro ⟨hglob, h | h⟩
              · exact .inl ⟨hglob, h⟩
              · exact .inr ⟨h.1, hglob, h.2⟩
            · rintro (⟨hglob, h⟩ | ⟨hend, hglob, h⟩)
              · exact ⟨hglob, .inl h⟩
              · exact ⟨hglob, .inr ⟨hend, h⟩⟩

end Rules

end Mago.Guard
