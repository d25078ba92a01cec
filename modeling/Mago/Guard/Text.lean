import Mago.Guard.Segments
import Mathlib

/-!
# Patterns without wildcards

They are compared as text. That is the comparison of their segments, since a separator is the
same in both cases of letters and cuts a text where it cuts the other.
-/
namespace Mago.Guard
open Library (Glob glob_plain)
open Library.Ascii (toLowercase lower eqIgnoreCase eqIgnoreCase_iff isUppercase)

/-! ## Segments of a text -/

theorem toLowercase_eq_separator {b : UInt8} : toLowercase b = separator ↔ b = separator := by
  constructor
  · intro h
    cases hupper : isUppercase b with
    | false => rwa [Library.Ascii.toLowercase_of_not hupper] at h
    | true =>
      have hrange := Library.Ascii.isUppercase_iff.mp hupper
      have hnat := Library.Ascii.toNat_toLowercase hupper
      rw [h] at hnat
      have hvalue : separator.toNat = 92 := rfl
      omega
  · rintro rfl
    rfl

theorem segments_cons (b : UInt8) (s : Bytes) :
    segments (b :: s) =
      if b = separator then [] :: segments s else (segments s).modifyHead (b :: ·) := by
  rw [segments, List.splitOn_cons_eq_if_modifyHead]
  by_cases hb : b = separator <;> simp [hb, segments]

theorem segments_ne_nil (s : Bytes) : segments s ≠ [] := List.splitOn_ne_nil separator s

theorem segments_lower (s : Bytes) : segments (lower s) = (segments s).map lower := by
  induction s with
  | nil => rfl
  | cons b s ih =>
    rw [lower, List.map_cons, segments_cons, segments_cons]
    rw [lower] at ih
    by_cases hb : b = separator
    · rw [if_pos (toLowercase_eq_separator.mpr hb), if_pos hb, ih]
      rfl
    · rw [if_neg fun h => hb (toLowercase_eq_separator.mp h), if_neg hb, ih]
      cases hsegments : segments s with
      | nil => exact absurd hsegments (segments_ne_nil s)
      | cons head tail => simp [lower]

theorem segments_injective {s t : Bytes} (h : segments s = segments t) : s = t := by
  have hjoin := congrArg (List.intercalate [separator]) h
  rwa [segments, segments, List.intercalate_splitOn, List.intercalate_splitOn] at hjoin

theorem eqIgnoreCase_iff_segments {f p : Bytes} :
    eqIgnoreCase f p = true ↔ (segments f).map lower = (segments p).map lower := by
  rw [eqIgnoreCase_iff, ← segments_lower, ← segments_lower]
  exact ⟨congrArg segments, segments_injective⟩

theorem segments_append (before after : Bytes) :
    segments (before ++ separator :: after) = segments before ++ segments after := by
  induction before with
  | nil => rw [List.nil_append, segments_cons, if_pos rfl]; rfl
  | cons b before ih =>
    rw [List.cons_append, segments_cons, segments_cons, ih]
    split
    · rfl
    · cases hsegments : segments before with
      | nil => exact absurd hsegments (segments_ne_nil before)
      | cons head tail => rfl

theorem segments_of_not_mem {s : Bytes} (h : separator ∉ s) : segments s = [s] :=
  List.splitOn_eq_singleton h

/-- The last separator leaves the last segment. -/
theorem rsplitOnceSeparator_spec (s : Bytes) :
    match rsplitOnceSeparator s with
    | some parts => segments s = segments parts.1 ++ [parts.2]
    | none => segments s = [] ++ [s] := by
  have hsplit : match rsplitOnceSeparator s with
      | some parts => s = parts.1 ++ separator :: parts.2 ∧ separator ∉ parts.2
      | none => separator ∉ s := by
    induction s with
    | nil => exact List.not_mem_nil
    | cons b s ih =>
      rw [rsplitOnceSeparator]
      cases hrest : rsplitOnceSeparator s with
      | some parts =>
        rw [hrest] at ih
        exact ⟨congrArg (b :: ·) ih.1, ih.2⟩
      | none =>
        rw [hrest] at ih
        dsimp only
        by_cases hb : b = separator
        · rw [if_pos hb, hb]
          exact ⟨rfl, ih⟩
        · rw [if_neg hb]
          dsimp only at ih ⊢
          rw [List.mem_cons, not_or]
          exact ⟨fun heq => hb heq.symm, ih⟩
  cases hparts : rsplitOnceSeparator s with
  | some parts =>
    rw [hparts] at hsplit
    dsimp only at hsplit ⊢
    conv_lhs => rw [hsplit.1]
    rw [segments_append, segments_of_not_mem hsplit.2]
  | none =>
    rw [hparts] at hsplit
    exact segments_of_not_mem hsplit

theorem separator_not_mem_segments {s t : Bytes} (h : t ∈ segments s) : separator ∉ t := by
  induction s generalizing t with
  | nil =>
    rw [segments, List.splitOn_nil, List.mem_singleton] at h
    rw [h]
    exact List.not_mem_nil
  | cons b s ih =>
    rw [segments_cons] at h
    split at h
    · rcases List.mem_cons.mp h with rfl | h
      · exact List.not_mem_nil
      · exact ih h
    · next hb =>
      cases hsegments : segments s with
      | nil => exact absurd hsegments (segments_ne_nil s)
      | cons head tail =>
        rw [hsegments] at ih h
        rcases List.mem_cons.mp h with rfl | h
        · rw [List.mem_cons, not_or]
          exact ⟨fun heq => hb heq.symm, ih (List.mem_cons_self ..)⟩
        · exact ih (List.mem_cons_of_mem _ h)

/-! ## Plain segments -/

section Plain

variable {patterns names : List Bytes}

theorem ne_any_of_plain {p : Bytes} (h : star ∉ p) : p ≠ [star, star] := by
  rintro rfl
  exact h (List.mem_cons_self ..)

theorem nameMatches_false_plain (h : ∀ p ∈ patterns, star ∉ p) :
    NameMatches false patterns names ↔ names.map lower = patterns.map lower := by
  induction patterns generalizing names with
  | nil =>
    rw [NameMatches, MatchesBy, List.map_nil, List.map_eq_nil_iff]
  | cons p patterns ih =>
    have hp := h p (by simp)
    cases names with
    | nil => exact iff_of_false (not_matchesBy_nil (ne_any_of_plain hp)) (by simp)
    | cons name names =>
      have hcons : NameMatches false (p :: patterns) (name :: names) ↔
          Glob star (caseKey false) p name ∧ NameMatches false patterns names :=
        matchesBy_cons (ne_any_of_plain hp)
      rw [hcons, glob_plain star _ hp, ih fun q hq => h q (by simp [hq]), List.map_cons,
        List.map_cons, List.cons.injEq]
      rfl

/-- The last segments as they are, those before them but for case. -/
theorem nameMatches_true_plain {last lastName : Bytes} (h : ∀ p ∈ patterns, star ∉ p)
    (hlast : star ∉ last) :
    NameMatches true (patterns ++ [last]) (names ++ [lastName]) ↔
      names.map lower = patterns.map lower ∧ lastName = last := by
  induction patterns generalizing names with
  | nil =>
    have hid : caseKey true = id := rfl
    cases names with
    | nil =>
      have hcons : NameMatches true [last] [lastName] ↔
          Glob star (caseKey true) last lastName ∧ NameMatches true [] [] :=
        matchesBy_cons (ne_any_of_plain hlast)
      rw [List.nil_append, List.nil_append, hcons, glob_plain star _ hlast, hid]
      simp [NameMatches, MatchesBy]
    | cons name names =>
      refine iff_of_false ?_ (by simp)
      rw [List.nil_append, List.cons_append, NameMatches,
        matchesBy_cons (ne_any_of_plain hlast), MatchesBy]
      simp
  | cons p patterns ih =>
    have hp := h p (by simp)
    cases names with
    | nil =>
      refine iff_of_false ?_ (by simp)
      rw [List.nil_append, List.cons_append, NameMatches, matchesBy_cons (ne_any_of_plain hp),
        matchesBy_nil_names]
      rintro ⟨-, hall⟩
      exact ne_any_of_plain hlast (hall last (by simp))
    | cons name names =>
      have hcons : NameMatches true (p :: (patterns ++ [last])) (name :: (names ++ [lastName])) ↔
          Glob star (caseKey (true && (names ++ [lastName]).isEmpty)) p name ∧
            NameMatches true (patterns ++ [last]) (names ++ [lastName]) :=
        matchesBy_cons (ne_any_of_plain hp)
      have hmore : (true && (names ++ [lastName]).isEmpty) = false := by simp
      rw [List.cons_append, List.cons_append, hcons, hmore, glob_plain star _ hp,
        ih fun q hq => h q (by simp [hq]), List.map_cons, List.map_cons, List.cons.injEq,
        and_assoc]
      rfl

theorem nameMatches_insensitive (h : NameMatches true patterns names) :
    NameMatches false patterns names := by
  induction patterns generalizing names with
  | nil => exact h
  | cons p patterns ih =>
    by_cases hp : p = [star, star]
    · subst hp
      obtain ⟨skipped, rest, heq, hrest⟩ := matchesBy_any.mp h
      exact matchesBy_any.mpr ⟨skipped, rest, heq, ih hrest⟩
    · cases names with
      | nil => exact absurd h (not_matchesBy_nil hp)
      | cons name names =>
        obtain ⟨hglob, hrest⟩ := (matchesBy_cons hp).mp h
        exact (matchesBy_cons hp).mpr ⟨glob_insensitive hglob, ih hrest⟩

end Plain

theorem star_not_mem_segments {s : Bytes} (h : star ∉ s) : ∀ p ∈ segments s, star ∉ p := by
  induction s with
  | nil => simp [segments]
  | cons b s ih =>
    rw [List.mem_cons, not_or] at h
    have hrest := ih h.2
    rw [segments_cons]
    split
    · rw [List.forall_mem_cons]
      exact ⟨List.not_mem_nil, hrest⟩
    · cases hsegments : segments s with
      | nil => exact absurd hsegments (segments_ne_nil s)
      | cons head tail =>
        rw [hsegments, List.forall_mem_cons] at hrest
        rw [List.modifyHead_cons, List.forall_mem_cons, List.mem_cons, not_or]
        exact ⟨⟨h.1, hrest.1⟩, hrest.2⟩

/-! ## Comparisons of text -/

/-- The namespace and the name of a constant, compared each in its way. -/
theorem constant_iff {f p : Bytes} (h : star ∉ p) :
    (match rsplitOnceSeparator f, rsplitOnceSeparator p with
      | some (fNamespace, fName), some (pNamespace, pName) =>
        eqIgnoreCase fNamespace pNamespace && fName == pName
      | none, none => f == p
      | _, _ => false) = true ↔
      NameMatches true (segments p) (segments f) := by
  have hplain := star_not_mem_segments h
  have hf := rsplitOnceSeparator_spec f
  have hp := rsplitOnceSeparator_spec p
  cases hfParts : rsplitOnceSeparator f with
  | none =>
    rw [hfParts] at hf
    dsimp only at hf
    cases hpParts : rsplitOnceSeparator p with
    | none =>
      rw [hpParts] at hp
      dsimp only at hp
      rw [hf, hp, nameMatches_true_plain (by simp) h]
      simp
    | some parts =>
      rw [hpParts] at hp
      dsimp only at hp
      rw [hp] at hplain
      rw [hf, hp, nameMatches_true_plain (fun q hq => hplain q (by simp [hq]))
        (hplain _ (by simp))]
      have hne := segments_ne_nil parts.1
      have hmap : [].map lower ≠ (segments parts.1).map lower := by
        rw [List.map_nil]
        intro h
        exact hne (List.map_eq_nil_iff.mp h.symm)
      exact iff_of_false Bool.false_ne_true fun h => hmap h.1
  | some fParts =>
    rw [hfParts] at hf
    dsimp only at hf
    cases hpParts : rsplitOnceSeparator p with
    | none =>
      rw [hpParts] at hp
      dsimp only at hp
      rw [hf, hp, nameMatches_true_plain (by simp) h]
      have hne := segments_ne_nil fParts.1
      simp [hne]
    | some parts =>
      rw [hpParts] at hp
      dsimp only at hp
      rw [hp] at hplain
      rw [hf, hp, nameMatches_true_plain (fun q hq => hplain q (by simp [hq]))
        (hplain _ (by simp)), ← eqIgnoreCase_iff_segments]
      simp

theorem length_eq_of_eqIgnoreCase {s t : Bytes} (h : eqIgnoreCase s t = true) :
    s.length = t.length := by
  have hlength := congrArg List.length (eqIgnoreCase_iff.mp h)
  rwa [lower, lower, List.length_map, List.length_map] at hlength

theorem startsWithIgnoreCase_append {s t rest : Bytes} (h : eqIgnoreCase s t = true) :
    startsWithIgnoreCase (s ++ rest) t = true := by
  have hshort : ¬(s ++ rest).length < s.length := by
    rw [List.length_append]
    omega
  rw [startsWithIgnoreCase, ← length_eq_of_eqIgnoreCase h, if_neg hshort, List.take_left, h]

/-- A text goes on from a prefix, but for case, at its end or at a separator. -/
theorem namespace_iff {f p : Bytes} (h : star ∉ p) :
    (if !startsWithIgnoreCase f p then false
      else f.length == p.length || f[p.length]? == some separator) = true ↔
      ∃ inside rest, segments f = inside ++ rest ∧ NameMatches false (segments p) inside := by
  have hplain := star_not_mem_segments h
  simp only [nameMatches_false_plain hplain]
  constructor
  · intro hcode
    split at hcode
    · exact absurd hcode Bool.false_ne_true
    next hstarts =>
    rw [Bool.not_eq_true, Bool.not_eq_false', startsWithIgnoreCase] at hstarts
    split at hstarts
    · exact absurd hstarts Bool.false_ne_true
    next hlength =>
    have hsegments := eqIgnoreCase_iff_segments.mp hstarts
    have hcut := List.take_append_drop p.length f
    rw [Bool.or_eq_true] at hcode
    rcases hcode with hend | hnext
    · rw [beq_iff_eq] at hend
      rw [← hend, List.take_length] at hsegments
      exact ⟨segments f, [], (List.append_nil _).symm, hsegments⟩
    · rw [beq_iff_eq] at hnext
      obtain ⟨hbound, hsep⟩ := List.getElem?_eq_some_iff.mp hnext
      rw [List.drop_eq_getElem_cons hbound, hsep] at hcut
      refine ⟨segments (f.take p.length), segments (f.drop (p.length + 1)), ?_, hsegments⟩
      conv_lhs => rw [← hcut]
      exact segments_append _ _
  · rintro ⟨inside, rest, hsegments, hinside⟩
    have hinsideNe : inside ≠ [] := by
      rintro rfl
      exact segments_ne_nil p (List.map_eq_nil_iff.mp hinside.symm)
    have hfree : ∀ s ∈ inside, separator ∉ s := by
      intro s hs
      exact separator_not_mem_segments (hsegments ▸ List.mem_append_left rest hs)
    have hjoined : segments ([separator].intercalate inside) = inside :=
      List.splitOn_intercalate separator hfree hinsideNe
    have hsame : eqIgnoreCase ([separator].intercalate inside) p = true := by
      rw [eqIgnoreCase_iff_segments, hjoined, hinside]
    have hlength := length_eq_of_eqIgnoreCase hsame
    cases rest with
    | nil =>
      have hf : f = [separator].intercalate inside := by
        refine segments_injective ?_
        rw [hsegments, hjoined, List.append_nil]
      have hstarts : startsWithIgnoreCase ([separator].intercalate inside ++ []) p = true :=
        startsWithIgnoreCase_append hsame
      rw [List.append_nil] at hstarts
      rw [hf, hstarts, hlength]
      simp
    | cons next rest =>
      have hmore : next :: rest ≠ [] := List.cons_ne_nil _ _
      have hmoreFree : ∀ s ∈ next :: rest, separator ∉ s := by
        intro s hs
        exact separator_not_mem_segments (hsegments ▸ List.mem_append_right inside hs)
      have hf : f = [separator].intercalate inside ++
          separator :: [separator].intercalate (next :: rest) := by
        refine segments_injective ?_
        rw [hsegments, segments_append, hjoined]
        exact congrArg (inside ++ ·) (List.splitOn_intercalate separator hmoreFree hmore).symm
      rw [hf, startsWithIgnoreCase_append hsame, ← hlength,
        List.getElem?_append_right (Nat.le_refl _), Nat.sub_self]
      simp

end Mago.Guard
