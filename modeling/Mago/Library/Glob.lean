import Mathlib

/-!
# Patterns with a star

In a pattern a star stands for any run, and everything else for what has the same key. The part
of a pattern before its first star and the part after its last one are looked for at the ends of
a text, and what is between them greedily from the left: taking the leftmost place each time
loses nothing.
-/
namespace Mago.Library

/-! ## Splitting at an element -/

/-- What holds of every list without the element, and of one that ends before the element where
it holds of what comes after, holds of all lists. -/
theorem split_induction {α : Type*} {P : List α → Prop} (a : α) (last : ∀ xs, a ∉ xs → P xs)
    (more : ∀ before after, a ∉ before → P after → P (before ++ a :: after)) (xs : List α) :
    P xs := by
  generalize hn : xs.length = n
  induction n using Nat.strong_induction_on generalizing xs with
  | _ n ih =>
    by_cases hmem : a ∈ xs
    · obtain ⟨before, after, rfl, h⟩ := List.eq_append_cons_of_mem hmem
      refine more before after h (ih after.length ?_ after rfl)
      rw [← hn, List.length_append, List.length_cons]
      omega
    · exact last xs hmem

/-! ## Meaning -/

section Glob

variable {α β : Type*} (star : α) (key : α → β)

def Glob [DecidableEq α] : List α → List α → Prop
  | [], text => text = []
  | p :: pattern, text =>
    if p = star then ∃ skipped rest, text = skipped ++ rest ∧ Glob pattern rest
    else ∃ x rest, text = x :: rest ∧ key x = key p ∧ Glob pattern rest

/-- The chunks one after another, with anything between them. -/
def InOrder : List (List α) → List α → Prop
  | [], _ => True
  | chunk :: chunks, text =>
    ∃ before found after, text = before ++ found ++ after ∧ found.map key = chunk.map key ∧
      InOrder chunks after

theorem glob_plain [DecidableEq α] {pattern : List α} (h : star ∉ pattern) (text : List α) :
    Glob star key pattern text ↔ text.map key = pattern.map key := by
  induction pattern generalizing text with
  | nil => rw [Glob, List.map_nil, List.map_eq_nil_iff]
  | cons p pattern ih =>
    rw [List.mem_cons, not_or] at h
    rw [Glob, if_neg fun heq => h.1 heq.symm]
    cases text with
    | nil => simp
    | cons x text => simp [ih h.2]

theorem glob_chunk [DecidableEq α] {chunk : List α} (h : star ∉ chunk) (pattern text : List α) :
    Glob star key (chunk ++ star :: pattern) text ↔
      ∃ found skipped rest, text = found ++ skipped ++ rest ∧ found.map key = chunk.map key ∧
        Glob star key pattern rest := by
  induction chunk generalizing text with
  | nil =>
    rw [List.nil_append, Glob, if_pos rfl]
    constructor
    · rintro ⟨skipped, rest, rfl, hrest⟩
      exact ⟨[], skipped, rest, rfl, rfl, hrest⟩
    · rintro ⟨found, skipped, rest, rfl, hfound, hrest⟩
      rw [List.map_nil, List.map_eq_nil_iff] at hfound
      exact ⟨skipped, rest, by rw [hfound]; rfl, hrest⟩
  | cons c chunk ih =>
    rw [List.mem_cons, not_or] at h
    rw [List.cons_append, Glob, if_neg fun heq => h.1 heq.symm]
    constructor
    · rintro ⟨x, rest, rfl, hx, hrest⟩
      obtain ⟨found, skipped, tail, rfl, hfound, htail⟩ := (ih h.2 rest).mp hrest
      exact ⟨x :: found, skipped, tail, rfl, by rw [List.map_cons, List.map_cons, hx, hfound],
        htail⟩
    · rintro ⟨found, skipped, tail, rfl, hfound, htail⟩
      cases found with
      | nil => cases hfound
      | cons x found =>
        rw [List.map_cons, List.map_cons, List.cons.injEq] at hfound
        exact ⟨x, found ++ skipped ++ tail, rfl, hfound.1,
          (ih h.2 _).mpr ⟨found, skipped, tail, rfl, hfound.2, htail⟩⟩

/-- A coarser key lets more match. -/
theorem glob_mono [DecidableEq α] {γ : Type*} {key' : α → γ}
    (h : ∀ x y, key x = key y → key' x = key' y) {pattern text : List α}
    (hglob : Glob star key pattern text) : Glob star key' pattern text := by
  induction pattern generalizing text with
  | nil => exact hglob
  | cons p pattern ih =>
    rw [Glob] at hglob ⊢
    split
    · next hp =>
      rw [if_pos hp] at hglob
      obtain ⟨skipped, rest, heq, hrest⟩ := hglob
      exact ⟨skipped, rest, heq, ih hrest⟩
    · next hp =>
      rw [if_neg hp] at hglob
      obtain ⟨x, rest, heq, hx, hrest⟩ := hglob
      exact ⟨x, rest, heq, h x p hx, ih hrest⟩

theorem inOrder_append {chunks : List (List α)} {text : List α} (h : InOrder key chunks text)
    (before : List α) : InOrder key chunks (before ++ text) := by
  cases chunks with
  | nil => trivial
  | cons chunk chunks =>
    obtain ⟨skipped, found, after, rfl, hfound, hafter⟩ := h
    exact ⟨before ++ skipped, found, after, by simp only [List.append_assoc], hfound, hafter⟩

/-- After a star, what is left of the pattern is its last chunk at the end of the text and the
others in order before it. -/
theorem glob_after_star [DecidableEq α] (pattern text : List α) :
    (∃ skipped rest, text = skipped ++ rest ∧ Glob star key pattern rest) ↔
      ∃ before last, text = before ++ last ∧
        last.map key = ((pattern.splitOn star).getLast?.getD []).map key ∧
        InOrder key (pattern.splitOn star).dropLast before := by
  induction pattern using split_induction star generalizing text with
  | last pattern h =>
    rw [List.splitOn_eq_singleton h]
    simp only [glob_plain star key h, List.getLast?_singleton, Option.getD_some,
      List.dropLast_singleton, InOrder, and_true]
  | more chunk pattern h ih =>
    have hne : pattern.splitOn star ≠ [] := List.splitOnP_ne_nil _ _
    rw [List.splitOn_append_cons_self_of_not_mem h, List.getLast?_cons, List.dropLast_cons_of_ne_nil hne,
      Option.getD_some]
    constructor
    · rintro ⟨skipped, rest, rfl, hglob⟩
      obtain ⟨found, between, tail, rfl, hfound, htail⟩ := (glob_chunk star key h _ _).mp hglob
      obtain ⟨before, last, heq, hlast, horder⟩ := (ih _).mp ⟨between, tail, rfl, htail⟩
      refine ⟨skipped ++ found ++ before, last, ?_, ?_, skipped, found, before, rfl, hfound,
        horder⟩
      · simp only [List.append_assoc]
        rw [heq]
      · rw [hlast]
        cases hsplit : (pattern.splitOn star).getLast? with
        | none => exact absurd (List.getLast?_eq_none_iff.mp hsplit) hne
        | some chunk => rfl
    · rintro ⟨before, last, rfl, hlast, skipped, found, after, rfl, hfound, horder⟩
      have hlast' : last.map key = ((pattern.splitOn star).getLast?.getD []).map key := by
        rw [hlast]
        cases hsplit : (pattern.splitOn star).getLast? with
        | none => exact absurd (List.getLast?_eq_none_iff.mp hsplit) hne
        | some chunk => rfl
      obtain ⟨between, tail, heq, htail⟩ := (ih _).mpr ⟨after, last, rfl, hlast', horder⟩
      refine ⟨skipped, found ++ (after ++ last), by simp only [List.append_assoc], ?_⟩
      rw [glob_chunk star key h]
      exact ⟨found, between, tail, by rw [heq]; simp only [List.append_assoc], hfound, htail⟩

/-! ## The leftmost place -/

variable [DecidableEq β]

/-- The first place of a window with the keys of the needle. -/
def findSlice (haystack needle : List α) : Option ℕ :=
  if needle.isEmpty then some 0
  else
    (List.range (haystack.length + 1 - needle.length)).find? fun i =>
      ((haystack.drop i).take needle.length).map key == needle.map key

/-- The chunks looked for one after another, each as far left as it can be. -/
def findAll : List (List α) → List α → Bool
  | [], _ => true
  | chunk :: chunks, text =>
    if chunk.isEmpty then findAll chunks text
    else
      match findSlice key text chunk with
      | some pos => findAll chunks (text.drop (pos + chunk.length))
      | none => false

theorem findAll_iff (chunks : List (List α)) (text : List α) :
    findAll key chunks text = true ↔ InOrder key chunks text := by
  induction chunks generalizing text with
  | nil => exact iff_of_true rfl trivial
  | cons chunk chunks ih =>
    rw [findAll]
    split
    · next hempty =>
      rw [List.isEmpty_iff] at hempty
      rw [ih, hempty]
      constructor
      · intro h
        exact ⟨[], [], text, rfl, rfl, h⟩
      · rintro ⟨before, found, after, rfl, -, h⟩
        exact inOrder_append key h _
    · next hempty =>
      rw [findSlice, if_neg hempty]
      cases hfind : (List.range (text.length + 1 - chunk.length)).find? fun i =>
          ((text.drop i).take chunk.length).map key == chunk.map key with
      | some pos =>
        rw [List.find?_range_eq_some, beq_iff_eq, List.mem_range] at hfind
        obtain ⟨hpos, hbound, hleft⟩ := hfind
        dsimp only
        rw [ih]
        constructor
        · intro h
          refine ⟨text.take pos, (text.drop pos).take chunk.length,
            text.drop (pos + chunk.length), ?_, hpos, h⟩
          rw [List.append_assoc, ← List.drop_drop, List.take_append_drop, List.take_append_drop]
        · rintro ⟨before, found, after, rfl, hfound, h⟩
          -- The place found is not right of this one, so what comes after has this rest in it.
          have hlength : found.length = chunk.length := by
            have := congrArg List.length hfound
            rwa [List.length_map, List.length_map] at this
          have hle : pos ≤ before.length := by
            by_contra hlt
            have hnot := hleft before.length (by omega)
            rw [List.append_assoc, List.drop_left, ← hlength, List.take_left, hfound] at hnot
            simp at hnot
          have hsuffix : (before ++ found ++ after).drop (pos + chunk.length) =
              (before ++ found).drop (pos + chunk.length) ++ after := by
            rw [List.drop_append_of_le_length]
            rw [List.length_append, hlength]
            omega
          rw [hsuffix]
          exact inOrder_append key h _
      | none =>
        rw [List.find?_range_eq_none] at hfind
        refine iff_of_false Bool.false_ne_true ?_
        rintro ⟨before, found, after, rfl, hfound, -⟩
        have hlength : found.length = chunk.length := by
          have := congrArg List.length hfound
          rwa [List.length_map, List.length_map] at this
        have hnot := hfind before.length (by
          rw [List.length_append, List.length_append, hlength]
          omega)
        rw [List.append_assoc, List.drop_left, ← hlength, List.take_left, hfound] at hnot
        simp at hnot

end Glob

end Mago.Library
