import Mathlib

/-!
# Brace expansion

The first group of a pattern is replaced by each of its alternatives in turn, and what comes out
is expanded again. A pattern with its groups as a tree has its expansions by recursion on the
tree, all choices of alternatives at once.
-/
namespace Mago.Guard

abbrev Bytes := List UInt8

def openBrace : UInt8 := 123

def closeBrace : UInt8 := 125

def comma : UInt8 := 44

/-- What is between the opened braces and their closing one, and what comes after it. -/
def splitClose (depth : ℕ) : Bytes → Option (Bytes × Bytes)
  | [] => none
  | b :: rest =>
    if b = openBrace then (splitClose (depth + 1) rest).map fun parts => (b :: parts.1, parts.2)
    else if b = closeBrace then
      if depth = 1 then some ([], rest)
      else (splitClose (depth - 1) rest).map fun parts => (b :: parts.1, parts.2)
    else (splitClose depth rest).map fun parts => (b :: parts.1, parts.2)

/-- The alternatives, split at the commas outside inner groups. -/
def splitAlternatives (depth : ℤ) (part : Bytes) : Bytes → List Bytes
  | [] => [part]
  | b :: rest =>
    if b = openBrace then splitAlternatives (depth + 1) (part ++ [b]) rest
    else if b = closeBrace then splitAlternatives (depth - 1) (part ++ [b]) rest
    else if b = comma ∧ depth = 0 then part :: splitAlternatives depth [] rest
    else splitAlternatives depth (part ++ [b]) rest

theorem splitClose_count {depth : ℕ} {text alternatives suffix : Bytes}
    (h : splitClose depth text = some (alternatives, suffix)) :
    alternatives.count openBrace + suffix.count openBrace ≤ text.count openBrace := by
  induction text generalizing depth alternatives with
  | nil => cases h
  | cons b rest ih =>
    have hstep : ∀ {d : ℕ}, ((splitClose d rest).map fun parts => (b :: parts.1, parts.2)) =
        some (alternatives, suffix) →
        alternatives.count openBrace + suffix.count openBrace ≤
          (b :: rest).count openBrace := by
      intro d hmap
      obtain ⟨⟨inner, tail⟩, hinner, heq⟩ := Option.map_eq_some_iff.mp hmap
      have hfirst : b :: inner = alternatives := (Prod.mk.inj heq).1
      have htail : tail = suffix := (Prod.mk.inj heq).2
      rw [htail] at hinner
      have hle := ih hinner
      rw [← hfirst, List.count_cons, List.count_cons]
      omega
    rw [splitClose] at h
    split at h
    · exact hstep h
    split at h
    · split at h
      · rw [Option.some.injEq, Prod.mk.injEq] at h
        rw [← h.1, ← h.2, List.count_nil, List.count_cons]
        omega
      · exact hstep h
    · exact hstep h

theorem splitAlternatives_count {depth : ℤ} {part text alternative : Bytes}
    (h : alternative ∈ splitAlternatives depth part text) :
    alternative.count openBrace ≤ part.count openBrace + text.count openBrace := by
  induction text generalizing depth part with
  | nil =>
    rw [splitAlternatives, List.mem_singleton] at h
    rw [h]
    omega
  | cons b rest ih =>
    have hstep : ∀ {d : ℤ}, alternative ∈ splitAlternatives d (part ++ [b]) rest →
        alternative.count openBrace ≤
          part.count openBrace + (b :: rest).count openBrace := by
      intro d hmem
      have hle := ih hmem
      rw [List.count_append, List.count_singleton] at hle
      rw [List.count_cons]
      omega
    rw [splitAlternatives] at h
    split at h
    · exact hstep h
    split at h
    · exact hstep h
    split at h
    · rw [List.mem_cons] at h
      rcases h with rfl | h
      · omega
      · have hle := ih h
        rw [List.count_nil] at hle
        rw [List.count_cons]
        omega
    · exact hstep h

def expandBraces (pattern : Bytes) : List Bytes :=
  match _hopen : pattern.dropWhile (· != openBrace) with
  | [] => [pattern]
  | _ :: rest =>
    match _hclose : splitClose 1 rest with
    | none => [pattern]
    | some (alternatives, suffix) =>
      (splitAlternatives 0 [] alternatives).attach.flatMap fun part =>
        expandBraces (pattern.takeWhile (· != openBrace) ++ part.1 ++ suffix)
termination_by pattern.count openBrace
decreasing_by
  have hpart := splitAlternatives_count part.2
  have hsplit := splitClose_count _hclose
  have hfirst : (pattern.takeWhile (· != openBrace)).count openBrace = 0 := by
    rw [List.count_eq_zero]
    intro hmem
    have := List.mem_takeWhile_imp hmem
    simp at this
  have hhead : ∀ b tail, pattern.dropWhile (· != openBrace) = b :: tail → b = openBrace := by
    intro b tail heq
    have := List.head?_dropWhile_not (· != openBrace) pattern
    rw [heq] at this
    simpa using this
  have hpattern := congrArg (List.count openBrace)
    (List.takeWhile_append_dropWhile (p := (· != openBrace)) (l := pattern))
  rw [_hopen, List.count_append, hfirst, hhead _ _ _hopen, List.count_cons_self] at hpattern
  rw [List.count_append, List.count_append, hfirst]
  rw [List.count_nil] at hpart
  omega

/-! ## Patterns as trees -/

/-- A byte that is no brace and no comma. -/
def isPlain (b : UInt8) : Bool := b != openBrace && b != closeBrace && b != comma

mutual

inductive Braces
  | nil
  | byte (b : UInt8) (h : isPlain b = true) (rest : Braces)
  | group (alternatives : Alternatives) (rest : Braces)

inductive Alternatives
  | last (p : Braces)
  | more (p : Braces) (rest : Alternatives)

end

mutual

def Braces.render : Braces → Bytes
  | .nil => []
  | .byte b _ rest => b :: rest.render
  | .group alternatives rest => openBrace :: (alternatives.render ++ closeBrace :: rest.render)

def Alternatives.render : Alternatives → Bytes
  | .last p => p.render
  | .more p rest => p.render ++ comma :: rest.render

end

mutual

/-- The full expansions: one alternative of each group, in all ways. -/
def Braces.choices : Braces → List Bytes
  | .nil => [[]]
  | .byte b _ rest => rest.choices.map (b :: ·)
  | .group alternatives rest =>
    alternatives.choices.flatMap fun chosen => rest.choices.map (chosen ++ ·)

def Alternatives.choices : Alternatives → List Bytes
  | .last p => p.choices
  | .more p rest => p.choices ++ rest.choices

end

mutual

def Braces.groups : Braces → ℕ
  | .nil => 0
  | .byte _ _ rest => rest.groups
  | .group alternatives rest => alternatives.groups + rest.groups + 1

def Alternatives.groups : Alternatives → ℕ
  | .last p => p.groups
  | .more p rest => p.groups + rest.groups

end

def Braces.append : Braces → Braces → Braces
  | .nil, q => q
  | .byte b h rest, q => .byte b h (rest.append q)
  | .group alternatives rest, q => .group alternatives (rest.append q)

def Alternatives.toList : Alternatives → List Braces
  | .last p => [p]
  | .more p rest => p :: rest.toList

/-! ## Expansion of a rendered tree -/

theorem isPlain_iff {b : UInt8} :
    isPlain b = true ↔ b ≠ openBrace ∧ b ≠ closeBrace ∧ b ≠ comma := by
  simp [isPlain, and_assoc]

theorem render_append (p q : Braces) : (p.append q).render = p.render ++ q.render :=
  match p with
  | .nil => rfl
  | .byte b h rest => by
    rw [Braces.append, Braces.render, Braces.render, render_append rest q, List.cons_append]
  | .group alternatives rest => by
    rw [Braces.append, Braces.render, Braces.render, render_append rest q]
    simp

theorem groups_append (p q : Braces) : (p.append q).groups = p.groups + q.groups :=
  match p with
  | .nil => (Nat.zero_add _).symm
  | .byte b h rest => by
    rw [Braces.append, Braces.groups, Braces.groups, groups_append rest q]
  | .group alternatives rest => by
    rw [Braces.append, Braces.groups, Braces.groups, groups_append rest q]
    omega

theorem choices_append (p q : Braces) :
    (p.append q).choices = p.choices.flatMap fun chosen => q.choices.map (chosen ++ ·) :=
  match p with
  | .nil => by simp [Braces.append, Braces.choices]
  | .byte b h rest => by
    rw [Braces.append, Braces.choices, Braces.choices, choices_append rest q]
    simp [List.map_flatMap, List.flatMap_map, Function.comp_def]
  | .group alternatives rest => by
    rw [Braces.append, Braces.choices, Braces.choices, choices_append rest q]
    simp [List.map_flatMap, List.flatMap_map, List.flatMap_assoc, Function.comp_def]

theorem choices_eq_flatMap (alternatives : Alternatives) :
    alternatives.choices = alternatives.toList.flatMap Braces.choices :=
  match alternatives with
  | .last p => by rw [Alternatives.choices, Alternatives.toList, List.flatMap_singleton]
  | .more p rest => by
    rw [Alternatives.choices, Alternatives.toList, List.flatMap_cons, choices_eq_flatMap rest]

theorem groups_le_of_mem {alternatives : Alternatives} {p : Braces}
    (h : p ∈ alternatives.toList) : p.groups ≤ alternatives.groups :=
  match alternatives with
  | .last q => by
    rw [Alternatives.toList, List.mem_singleton] at h
    rw [h, Alternatives.groups]
  | .more q rest => by
    rw [Alternatives.toList, List.mem_cons] at h
    rw [Alternatives.groups]
    rcases h with rfl | h
    · exact Nat.le_add_right _ _
    · exact (groups_le_of_mem h).trans (Nat.le_add_left _ _)

/-- Text put before what a scan finds inside the braces. -/
def before (text : Bytes) (parts : Bytes × Bytes) : Bytes × Bytes := (text ++ parts.1, parts.2)

theorem map_before_cons (b : UInt8) (text : Bytes) (result : Option (Bytes × Bytes)) :
    ((result.map (before text)).map fun parts => (b :: parts.1, parts.2)) =
      result.map (before (b :: text)) := by
  cases result <;> rfl

theorem map_before_before (text text' : Bytes) (result : Option (Bytes × Bytes)) :
    (result.map (before text')).map (before text) = result.map (before (text ++ text')) := by
  cases result <;> simp [before]

mutual

/-- The scan for the closing brace goes over what a tree renders to. -/
theorem splitClose_render (p : Braces) (depth : ℕ) (text : Bytes) :
    splitClose (depth + 1) (p.render ++ text) =
      (splitClose (depth + 1) text).map (before p.render) :=
  match p with
  | .nil => by
    cases h : splitClose (depth + 1) text <;> simp [Braces.render, before, h]
  | .byte b h rest => by
    obtain ⟨hopen, hclose, -⟩ := isPlain_iff.mp h
    rw [Braces.render, List.cons_append, splitClose, if_neg hopen, if_neg hclose,
      splitClose_render rest, map_before_cons]
  | .group alternatives rest => by
    have hne : closeBrace ≠ openBrace := by decide
    rw [Braces.render, List.cons_append, splitClose, if_pos rfl, List.append_assoc,
      splitClose_renderAlternatives, List.cons_append, splitClose, if_neg hne, if_pos rfl,
      if_neg (by omega), Nat.add_sub_cancel, splitClose_render rest, map_before_cons,
      map_before_cons, map_before_before, List.cons_append]

theorem splitClose_renderAlternatives (alternatives : Alternatives) (depth : ℕ) (text : Bytes) :
    splitClose (depth + 1) (alternatives.render ++ text) =
      (splitClose (depth + 1) text).map (before alternatives.render) :=
  match alternatives with
  | .last p => by
    rw [Alternatives.render]
    exact splitClose_render p depth text
  | .more p rest => by
    have hopen : comma ≠ openBrace := by decide
    have hclose : comma ≠ closeBrace := by decide
    rw [Alternatives.render, List.append_assoc, splitClose_render p, List.cons_append, splitClose,
      if_neg hopen, if_neg hclose, splitClose_renderAlternatives rest, map_before_cons,
      map_before_before]

end

mutual

/-- A split goes over what a tree renders to, whose commas are all inside its groups. -/
theorem splitAlternatives_render (p : Braces) {depth : ℤ} (hdepth : 0 ≤ depth)
    (part text : Bytes) :
    splitAlternatives depth part (p.render ++ text) =
      splitAlternatives depth (part ++ p.render) text :=
  match p with
  | .nil => by rw [Braces.render, List.nil_append, List.append_nil]
  | .byte b h rest => by
    obtain ⟨hopen, hclose, hcomma⟩ := isPlain_iff.mp h
    rw [Braces.render, List.cons_append, splitAlternatives, if_neg hopen, if_neg hclose,
      if_neg fun h => hcomma h.1, splitAlternatives_render rest hdepth, List.append_assoc,
      List.singleton_append]
  | .group alternatives rest => by
    have hne : closeBrace ≠ openBrace := by decide
    rw [Braces.render, List.cons_append, splitAlternatives, if_pos rfl, List.append_assoc,
      splitAlternatives_inner alternatives (by omega), List.cons_append, splitAlternatives,
      if_neg hne, if_pos rfl, Int.add_sub_cancel, splitAlternatives_render rest hdepth]
    simp

theorem splitAlternatives_inner (alternatives : Alternatives) {depth : ℤ} (hdepth : 0 < depth)
    (part text : Bytes) :
    splitAlternatives depth part (alternatives.render ++ text) =
      splitAlternatives depth (part ++ alternatives.render) text :=
  match alternatives with
  | .last p => by
    rw [Alternatives.render]
    exact splitAlternatives_render p hdepth.le part text
  | .more p rest => by
    have hopen : comma ≠ openBrace := by decide
    have hclose : comma ≠ closeBrace := by decide
    have hnot : ¬(comma = comma ∧ depth = 0) := fun h => hdepth.ne' h.2
    rw [Alternatives.render, List.append_assoc, splitAlternatives_render p hdepth.le,
      List.cons_append, splitAlternatives, if_neg hopen, if_neg hclose, if_neg hnot,
      splitAlternatives_inner rest hdepth]
    simp

end

theorem splitAlternatives_outer (alternatives : Alternatives) :
    splitAlternatives 0 [] alternatives.render = alternatives.toList.map Braces.render :=
  match alternatives with
  | .last p => by
    have h := splitAlternatives_render p le_rfl [] []
    rw [List.append_nil] at h
    rw [Alternatives.render, h]
    rfl
  | .more p rest => by
    have hopen : comma ≠ openBrace := by decide
    have hclose : comma ≠ closeBrace := by decide
    rw [Alternatives.render, splitAlternatives_render p le_rfl, splitAlternatives, if_neg hopen,
      if_neg hclose, if_pos ⟨rfl, rfl⟩, splitAlternatives_outer rest]
    rfl

theorem expandBraces_of_not_mem {pattern : Bytes} (h : openBrace ∉ pattern) :
    expandBraces pattern = [pattern] := by
  have hdrop : pattern.dropWhile (· != openBrace) = [] := by
    rw [List.dropWhile_eq_nil_iff]
    intro b hb
    rw [bne_iff_ne]
    rintro rfl
    exact h hb
  rw [expandBraces]
  split
  · rfl
  · next heq => rw [hdrop] at heq; cases heq

theorem expandBraces_group {text : Bytes} (h : openBrace ∉ text) (alternatives : Alternatives)
    (rest : Braces) :
    expandBraces (text ++ (Braces.group alternatives rest).render) =
      alternatives.toList.flatMap fun p => expandBraces (text ++ (p.append rest).render) := by
  have hplain : ∀ b ∈ text, (b != openBrace) = true := by
    intro b hb
    rw [bne_iff_ne]
    rintro rfl
    exact h hb
  have hdrop : (text ++ (Braces.group alternatives rest).render).dropWhile (· != openBrace) =
      (Braces.group alternatives rest).render := by
    rw [List.dropWhile_append_of_pos hplain, Braces.render]
    rfl
  have htake : (text ++ (Braces.group alternatives rest).render).takeWhile (· != openBrace) =
      text := by
    rw [List.takeWhile_append_of_pos hplain, Braces.render]
    simp
  have hclose : splitClose 1 (alternatives.render ++ closeBrace :: rest.render) =
      some (alternatives.render, rest.render) := by
    have hne : closeBrace ≠ openBrace := by decide
    rw [splitClose_renderAlternatives alternatives 0, splitClose, if_neg hne, if_pos rfl,
      if_pos rfl]
    simp [before]
  rw [expandBraces]
  split
  · next heq =>
    rw [hdrop, Braces.render] at heq
    cases heq
  · next heq =>
    rw [hdrop, Braces.render, List.cons.injEq] at heq
    split
    · next hnone =>
      rw [← heq.2, hclose] at hnone
      cases hnone
    · next hsome =>
      rw [← heq.2, hclose, Option.some.injEq, Prod.mk.injEq] at hsome
      have hattach : ∀ (xs : List Bytes) (f : Bytes → List Bytes),
          xs.attach.flatMap (fun part => f part.1) = xs.flatMap f := by
        intro xs f
        rw [← List.flatMap_map Subtype.val f, List.attach_map_subtype_val]
      rw [htake, ← hsome.1, ← hsome.2, hattach _ fun part => expandBraces (text ++ part ++ rest.render),
        splitAlternatives_outer, List.flatMap_map]
      simp only [render_append, List.append_assoc]

/-- Text without braces stays in front of the choices of a tree. -/
theorem expandBraces_append (p : Braces) (text : Bytes) (h : openBrace ∉ text) :
    expandBraces (text ++ p.render) = p.choices.map (text ++ ·) := by
  match p with
  | .nil =>
    rw [Braces.render, List.append_nil, expandBraces_of_not_mem h, Braces.choices,
      List.map_singleton, List.append_nil]
  | .byte b hb rest =>
    have hnot : openBrace ∉ text ++ [b] := by
      rw [List.mem_append, List.mem_singleton, not_or]
      exact ⟨h, fun heq => (isPlain_iff.mp hb).1 heq.symm⟩
    have hrest := expandBraces_append rest (text ++ [b]) hnot
    rw [List.append_assoc, List.singleton_append] at hrest
    rw [Braces.render, hrest, Braces.choices, List.map_map]
    simp
  | .group alternatives rest =>
    have hchosen : ∀ q ∈ alternatives.toList, expandBraces (text ++ (q.append rest).render) =
        (q.append rest).choices.map (text ++ ·) :=
      fun q hq => expandBraces_append (q.append rest) text h
    rw [expandBraces_group h, List.flatMap_congr hchosen, Braces.choices, choices_eq_flatMap]
    simp only [choices_append, List.flatMap_assoc, List.map_flatMap]
termination_by (p.groups, sizeOf p)
decreasing_by
  · rw [Braces.groups]
    exact Prod.Lex.right _ (by simp)
  · refine Prod.Lex.left _ _ ?_
    have hle := groups_le_of_mem hq
    rw [groups_append, Braces.groups]
    omega

/-- The expansions of a rendered tree are the choices of its alternatives. -/
theorem expandBraces_render (p : Braces) : expandBraces p.render = p.choices := by
  have h := expandBraces_append p [] List.not_mem_nil
  simpa using h

/-! ## Valid patterns -/

mutual

theorem not_mem_choices (p : Braces) : ∀ chosen ∈ p.choices, openBrace ∉ chosen :=
  match p with
  | .nil => by simp [Braces.choices]
  | .byte b h rest => by
    intro chosen hchosen
    rw [Braces.choices, List.mem_map] at hchosen
    obtain ⟨tail, htail, rfl⟩ := hchosen
    rw [List.mem_cons, not_or]
    exact ⟨fun heq => (isPlain_iff.mp h).1 heq.symm, not_mem_choices rest tail htail⟩
  | .group alternatives rest => by
    intro chosen hchosen
    rw [Braces.choices, List.mem_flatMap] at hchosen
    obtain ⟨inner, hinner, hchosen⟩ := hchosen
    rw [List.mem_map] at hchosen
    obtain ⟨tail, htail, rfl⟩ := hchosen
    rw [List.mem_append, not_or]
    exact ⟨not_mem_choices_alternatives alternatives inner hinner, not_mem_choices rest tail htail⟩

theorem not_mem_choices_alternatives (alternatives : Alternatives) :
    ∀ chosen ∈ alternatives.choices, openBrace ∉ chosen :=
  match alternatives with
  | .last p => by
    rw [Alternatives.choices]
    exact not_mem_choices p
  | .more p rest => by
    intro chosen hchosen
    rw [Alternatives.choices, List.mem_append] at hchosen
    rcases hchosen with hchosen | hchosen
    · exact not_mem_choices p chosen hchosen
    · exact not_mem_choices_alternatives rest chosen hchosen

end

/-- Text in front of the first alternative. -/
def Alternatives.prepend (p : Braces) : Alternatives → Alternatives
  | .last q => .last (p.append q)
  | .more q rest => .more (p.append q) rest

theorem render_prepend (p : Braces) (alternatives : Alternatives) :
    (alternatives.prepend p).render = p.render ++ alternatives.render := by
  cases alternatives with
  | last q => rw [Alternatives.prepend, Alternatives.render, Alternatives.render, render_append]
  | more q rest =>
    rw [Alternatives.prepend, Alternatives.render, Alternatives.render, render_append,
      List.append_assoc]

/-- The loop of `is_valid_pattern`. -/
def isValidLoop (isPart : UInt8 → Bool) (depth : ℕ) : Bytes → Bool
  | [] => depth == 0
  | b :: rest =>
    if b = openBrace then isValidLoop isPart (depth + 1) rest
    else if b = closeBrace ∧ 0 < depth then isValidLoop isPart (depth - 1) rest
    else if b = comma ∧ 0 < depth then isValidLoop isPart depth rest
    else if isPart b then isValidLoop isPart depth rest
    else false

/-- What a scan of a valid pattern reads is a tree, or the rest of a group and what follows. -/
theorem exists_render {isPart : UInt8 → Bool}
    (hpart : ∀ b, isPart b = true → b ≠ closeBrace ∧ b ≠ comma) (n : ℕ) :
    ∀ (text : Bytes), text.length ≤ n → ∀ depth, isValidLoop isPart depth text = true →
      (depth = 0 → ∃ p : Braces, p.render = text) ∧
        ∀ outer, depth = outer + 1 → ∃ (alternatives : Alternatives) (rest : Bytes),
          text = alternatives.render ++ closeBrace :: rest ∧ isValidLoop isPart outer rest = true := by
  induction n with
  | zero =>
    intro text hlength depth h
    rw [Nat.le_zero, List.length_eq_zero_iff] at hlength
    rw [hlength, isValidLoop, beq_iff_eq] at h
    refine ⟨fun _ => ⟨.nil, hlength.symm⟩, fun outer heq => ?_⟩
    omega
  | succ n ih =>
    intro text hlength depth h
    cases text with
    | nil =>
      rw [isValidLoop, beq_iff_eq] at h
      exact ⟨fun _ => ⟨.nil, rfl⟩, fun outer heq => by omega⟩
    | cons b tail =>
      rw [List.length_cons] at hlength
      have htail : tail.length ≤ n := by omega
      rw [isValidLoop] at h
      split at h
      · next hopen =>
        obtain ⟨alternatives, rest, heq, hrest⟩ := (ih tail htail (depth + 1) h).2 depth rfl
        have hrestLength : rest.length ≤ n := by
          have := congrArg List.length heq
          rw [List.length_append, List.length_cons] at this
          omega
        have hfollow := ih rest hrestLength depth hrest
        constructor
        · intro hzero
          obtain ⟨p, hp⟩ := hfollow.1 hzero
          refine ⟨.group alternatives p, ?_⟩
          rw [Braces.render, hp, heq, hopen]
        · intro outer houter
          obtain ⟨others, after, hothers, hafter⟩ := hfollow.2 outer houter
          refine ⟨others.prepend (.group alternatives .nil), after, ?_, hafter⟩
          rw [render_prepend, heq, hothers, hopen]
          simp [Braces.render]
      split at h
      · next hopen hclose =>
        refine ⟨fun hzero => by omega, fun outer houter => ?_⟩
        rw [houter, Nat.add_sub_cancel] at h
        exact ⟨.last .nil, tail, by rw [hclose.1]; rfl, h⟩
      split at h
      · next hopen hclose hcomma =>
        refine ⟨fun hzero => by omega, fun outer houter => ?_⟩
        obtain ⟨alternatives, rest, heq, hrest⟩ := (ih tail htail depth h).2 outer houter
        refine ⟨.more .nil alternatives, rest, ?_, hrest⟩
        rw [Alternatives.render, heq, hcomma.1]
        rfl
      split at h
      · next hopen _ _ hb =>
        have hplain : isPlain b = true := isPlain_iff.mpr ⟨hopen, hpart b hb⟩
        constructor
        · intro hzero
          obtain ⟨p, hp⟩ := (ih tail htail depth h).1 hzero
          exact ⟨.byte b hplain p, by rw [Braces.render, hp]⟩
        · intro outer houter
          obtain ⟨alternatives, rest, heq, hrest⟩ := (ih tail htail depth h).2 outer houter
          refine ⟨alternatives.prepend (.byte b hplain .nil), rest, ?_, hrest⟩
          rw [render_prepend, heq]
          rfl
      · cases h

end Mago.Guard
