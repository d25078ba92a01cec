import Mathlib

/-!
# Formats

A format says which lists of symbols stand for a value. A reader accepts a format when it takes
a value from the front of its input exactly where the front is a list that stands for the value,
a writer emits a format when it appends exactly such a list. What accepts and what emits one
format are inverse to each other.
-/
namespace Mago.Library

universe u

/-- Two formats one after the other. -/
def Followed {β : Type u} (P Q : List β → Prop) (symbols : List β) : Prop :=
  ∃ front back, P front ∧ Q back ∧ symbols = front ++ back

/-- The format of a list whose members stand one after the other. -/
def Each {α β : Type u} (format : α → List β → Prop) : List α → List β → Prop
  | [] => fun symbols => symbols = []
  | value :: values => Followed (format value) (Each format values)

section Followed

variable {α β γ : Type u} {P P' Q Q' : List β → Prop}

theorem Followed.mono (h : ∀ symbols, P symbols → P' symbols)
    (h' : ∀ symbols, Q symbols → Q' symbols) {symbols : List β} (hs : Followed P Q symbols) :
    Followed P' Q' symbols := by
  obtain ⟨front, back, hfront, hback, hsymbols⟩ := hs
  exact ⟨front, back, h front hfront, h' back hback, hsymbols⟩

@[simp] theorem followed_nil_left {symbols : List β} :
    Followed (· = []) Q symbols ↔ Q symbols := by
  constructor
  · intro h
    obtain ⟨front, back, hfront, hback, hsymbols⟩ := h
    rw [hsymbols, hfront]
    exact hback
  · intro h
    exact ⟨[], symbols, rfl, h, rfl⟩

@[simp] theorem followed_nil_right {symbols : List β} :
    Followed P (· = []) symbols ↔ P symbols := by
  constructor
  · intro h
    obtain ⟨front, back, hfront, hback, hsymbols⟩ := h
    rw [hsymbols, hback, List.append_nil]
    exact hfront
  · intro h
    exact ⟨symbols, [], h, rfl, (List.append_nil symbols).symm⟩

@[simp] theorem followed_false {symbols : List β} :
    ¬ Followed P (fun _ => False) symbols := by
  intro h
  obtain ⟨_, _, _, hfalse, _⟩ := h
  exact hfalse

theorem followed_eq_left {front symbols : List β} :
    Followed (· = front) Q symbols ↔ ∃ back, Q back ∧ symbols = front ++ back := by
  constructor
  · intro h
    obtain ⟨_, back, rfl, hback, hsymbols⟩ := h
    exact ⟨back, hback, hsymbols⟩
  · intro h
    obtain ⟨back, hback, hsymbols⟩ := h
    exact ⟨front, back, rfl, hback, hsymbols⟩

theorem followed_eq_eq {front back symbols : List β} :
    Followed (· = front) (· = back) symbols ↔ symbols = front ++ back := by
  constructor
  · intro h
    obtain ⟨_, _, rfl, rfl, hsymbols⟩ := h
    exact hsymbols
  · intro h
    exact ⟨front, back, rfl, rfl, h⟩

/-- A condition on the value is no part of the symbols. -/
@[simp] theorem followed_and {p : Prop} {symbols : List β} :
    Followed P (fun back => p ∧ Q back) symbols ↔ p ∧ Followed P Q symbols := by
  constructor
  · intro h
    obtain ⟨front, back, hfront, ⟨hp, hback⟩, hsymbols⟩ := h
    exact ⟨hp, front, back, hfront, hback, hsymbols⟩
  · intro h
    obtain ⟨hp, front, back, hfront, hback, hsymbols⟩ := h
    exact ⟨front, back, hfront, ⟨hp, hback⟩, hsymbols⟩

@[simp] theorem and_followed {p : Prop} {symbols : List β} :
    Followed (fun front => p ∧ P front) Q symbols ↔ p ∧ Followed P Q symbols := by
  constructor
  · intro h
    obtain ⟨front, back, ⟨hp, hfront⟩, hback, hsymbols⟩ := h
    exact ⟨hp, front, back, hfront, hback, hsymbols⟩
  · intro h
    obtain ⟨hp, front, back, hfront, hback, hsymbols⟩ := h
    exact ⟨front, back, ⟨hp, hfront⟩, hback, hsymbols⟩

@[simp] theorem followed_exists {ι : Sort*} {R : ι → List β → Prop} {symbols : List β} :
    Followed P (fun back => ∃ i, R i back) symbols ↔ ∃ i, Followed P (R i) symbols := by
  constructor
  · intro h
    obtain ⟨front, back, hfront, ⟨i, hback⟩, hsymbols⟩ := h
    exact ⟨i, front, back, hfront, hback, hsymbols⟩
  · intro h
    obtain ⟨i, front, back, hfront, hback, hsymbols⟩ := h
    exact ⟨front, back, hfront, ⟨i, hback⟩, hsymbols⟩

@[simp] theorem exists_followed {ι : Sort*} {R : ι → List β → Prop} {symbols : List β} :
    Followed (fun front => ∃ i, R i front) Q symbols ↔ ∃ i, Followed (R i) Q symbols := by
  constructor
  · intro h
    obtain ⟨front, back, ⟨i, hfront⟩, hback, hsymbols⟩ := h
    exact ⟨i, front, back, hfront, hback, hsymbols⟩
  · intro h
    obtain ⟨i, front, back, hfront, hback, hsymbols⟩ := h
    exact ⟨front, back, ⟨i, hfront⟩, hback, hsymbols⟩

/-- Values that are made from others which have the format. -/
theorem each_exists {R : α → γ → Prop} {format : γ → List β → Prop} {values : List α}
    {symbols : List β} :
    Each (fun value symbols => ∃ source, R value source ∧ format source symbols) values symbols ↔
      ∃ sources, List.Forall₂ R values sources ∧ Each format sources symbols := by
  induction values generalizing symbols with
  | nil => simp [Each]
  | cons value values ih =>
    simp only [Each, List.forall₂_cons_left_iff]
    constructor
    · intro h
      obtain ⟨front, back, ⟨source, hsource, hfront⟩, hback, rfl⟩ := h
      obtain ⟨sources, hsources, hback⟩ := ih.mp hback
      exact ⟨source :: sources, ⟨source, sources, hsource, hsources, rfl⟩, front, back, hfront,
        hback, rfl⟩
    · intro h
      obtain ⟨_, ⟨source, sources, hsource, hsources, rfl⟩, front, back, hfront, hback, rfl⟩ := h
      exact ⟨front, back, ⟨source, hsource, hfront⟩, ih.mpr ⟨sources, hsources, hback⟩, rfl⟩

theorem exists_of_forall₂ {R : α → γ → Prop} {values : List α} {sources : List γ} {source : γ}
    (h : List.Forall₂ R values sources) (hsource : source ∈ sources) :
    ∃ value ∈ values, R value source := by
  induction h with
  | nil => cases hsource
  | cons hR _ ih =>
    rcases List.mem_cons.mp hsource with rfl | hsource
    · exact ⟨_, List.mem_cons_self, hR⟩
    · obtain ⟨value, hvalue, hR⟩ := ih hsource
      exact ⟨value, List.mem_cons_of_mem _ hvalue, hR⟩

@[simp] theorem each_and {p : α → Prop} {format : α → List β → Prop} {values : List α}
    {symbols : List β} : Each (fun value symbols => p value ∧ format value symbols) values symbols ↔
      (∀ value ∈ values, p value) ∧ Each format values symbols := by
  induction values generalizing symbols with
  | nil => simp [Each]
  | cons value values ih =>
    simp only [Each, and_followed, List.forall_mem_cons, and_assoc]
    apply and_congr_right
    intro _
    rw [← followed_and]
    constructor
    · intro h
      exact h.mono (fun _ hfront => hfront) fun _ hback => ih.mp hback
    · intro h
      exact h.mono (fun _ hfront => hfront) fun _ hback => ih.mpr hback

/-- The format of a list where every member has one encoding. -/
theorem each_eq_iff {encode : α → List β} {values : List α} {symbols : List β} :
    Each (fun value symbols => symbols = encode value) values symbols ↔
      symbols = values.flatMap encode := by
  induction values generalizing symbols with
  | nil => simp [Each]
  | cons value values ih =>
    rw [Each, followed_eq_left, List.flatMap_cons]
    constructor
    · intro h
      obtain ⟨back, hback, rfl⟩ := h
      rw [ih.mp hback]
    · intro h
      exact ⟨_, ih.mpr rfl, h⟩

end Followed

/-- A state that is read from its front: advancing over symbols leaves a later state. -/
class Input (σ : Type u) (β : outParam (Type u)) where
  Advance : σ → List β → σ → Prop
  advance_nil {s s' : σ} : Advance s [] s' ↔ s' = s
  advance_append {s s'' : σ} {front back : List β} :
    Advance s (front ++ back) s'' ↔ ∃ s', Advance s front s' ∧ Advance s' back s''

export Input (Advance advance_nil advance_append)

/-- A list is read from its front. -/
instance (β : Type u) : Input (List β) β where
  Advance stream symbols rest := stream = symbols ++ rest
  advance_nil := eq_comm
  advance_append := by
    intro stream rest' front back
    constructor
    · intro h
      exact ⟨back ++ rest', by rw [h, List.append_assoc], rfl⟩
    · intro h
      obtain ⟨rest, rfl, rfl⟩ := h
      rw [List.append_assoc]

theorem advance_list {β : Type u} {stream symbols rest : List β} :
    Advance stream symbols rest ↔ stream = symbols ++ rest := Iff.rfl

section Readers

variable {σ ε ε' α β γ : Type u} [Input σ β]

def Accepts (read : StateT σ (Except ε) α) (format : α → List β → Prop) : Prop :=
  ∀ s value s', read s = .ok (value, s') ↔ ∃ symbols, format value symbols ∧ Advance s symbols s'

theorem Accepts.congr {read : StateT σ (Except ε) α} {format format' : α → List β → Prop}
    (h : Accepts read format)
    (hformat : ∀ value symbols, format value symbols ↔ format' value symbols) :
    Accepts read format' := by
  intro s value s'
  rw [h]
  exact exists_congr fun symbols => and_congr_left' (hformat value symbols)

theorem accepts_pure (value : α) :
    Accepts (pure value : StateT σ (Except ε) α) fun value' symbols =>
      value' = value ∧ symbols = [] := by
  intro s value' s'
  constructor
  · intro h
    cases h
    exact ⟨[], ⟨rfl, rfl⟩, advance_nil.mpr rfl⟩
  · intro h
    obtain ⟨symbols, ⟨rfl, rfl⟩, hadvance⟩ := h
    rw [advance_nil.mp hadvance]
    rfl

theorem accepts_throw (error : ε) :
    Accepts (throw error : StateT σ (Except ε) α) fun _ _ => False := by
  intro s value s'
  constructor
  · intro h
    cases h
  · intro h
    obtain ⟨_, hfalse, _⟩ := h
    exact hfalse.elim

/-- A result that does not depend on the input. -/
theorem accepts_lift (result : Except ε α) :
    Accepts (liftM result : StateT σ (Except ε) α) fun value symbols =>
      result = .ok value ∧ symbols = [] := by
  cases result with
  | error e =>
    exact (accepts_throw e).congr fun _ _ =>
      iff_of_false (fun hfalse => hfalse) fun h => nomatch h.1
  | ok value =>
    refine (accepts_pure value).congr fun value' symbols => and_congr_left' ?_
    rw [Except.ok.injEq, eq_comm]

/-- A value that has to be there. -/
def require (value : Option α) (error : ε) : StateT σ (Except ε) α :=
  match value with
  | some value => pure value
  | none => throw error

theorem accepts_require (value : Option α) (error : ε) :
    Accepts (require value error : StateT σ (Except ε) α) fun value' symbols =>
      value = some value' ∧ symbols = [] := by
  cases value with
  | none =>
    exact (accepts_throw error).congr fun _ _ =>
      iff_of_false (fun hfalse => hfalse) fun h => nomatch h.1
  | some value =>
    refine (accepts_pure value).congr fun value' symbols => and_congr_left' ?_
    rw [Option.some.injEq, eq_comm]

theorem Accepts.bind {read : StateT σ (Except ε) α} {next : α → StateT σ (Except ε) γ}
    {format : α → List β → Prop} {format' : α → γ → List β → Prop} (h : Accepts read format)
    (h' : ∀ value, Accepts (next value) (format' value)) :
    Accepts (read >>= next) fun result symbols =>
      ∃ value, Followed (format value) (format' value result) symbols := by
  intro s result s''
  have hbind : (read >>= next) s = .ok (result, s'') ↔
      ∃ value s', read s = .ok (value, s') ∧ next value s' = .ok (result, s'') := by
    show (read s >>= fun p => next p.1 p.2) = _ ↔ _
    cases hread : read s with
    | error e =>
      constructor
      · intro h
        cases h
      · intro h
        obtain ⟨_, _, h, _⟩ := h
        cases h
    | ok p =>
      constructor
      · intro h
        exact ⟨p.1, p.2, rfl, h⟩
      · intro h
        obtain ⟨_, _, h, hnext⟩ := h
        cases h
        exact hnext
  rw [hbind]
  constructor
  · intro hok
    obtain ⟨value, s', hread, hnext⟩ := hok
    obtain ⟨front, hfront, hadvance⟩ := (h _ _ _).mp hread
    obtain ⟨back, hback, hadvance'⟩ := (h' value _ _ _).mp hnext
    exact ⟨front ++ back, ⟨value, front, back, hfront, hback, rfl⟩,
      advance_append.mpr ⟨s', hadvance, hadvance'⟩⟩
  · intro hsymbols
    obtain ⟨_, ⟨value, front, back, hfront, hback, rfl⟩, hadvance⟩ := hsymbols
    obtain ⟨s', hadvance, hadvance'⟩ := advance_append.mp hadvance
    exact ⟨value, s', (h _ _ _).mpr ⟨front, hfront, hadvance⟩,
      (h' value _ _ _).mpr ⟨back, hback, hadvance'⟩⟩

/-- A check that stops the reader where something is wrong. -/
def reject (p : Prop) [Decidable p] (error : ε) : StateT σ (Except ε) PUnit :=
  if p then throw error else pure ⟨⟩

theorem accepts_reject (p : Prop) [Decidable p] (error : ε) :
    Accepts (reject p error : StateT σ (Except ε) PUnit) fun _ symbols => ¬ p ∧ symbols = [] := by
  rw [reject]
  by_cases hp : p
  · rw [if_pos hp]
    exact (accepts_throw error).congr fun _ _ =>
      iff_of_false (fun hfalse => hfalse) fun hnot => hnot.1 hp
  · rw [if_neg hp]
    exact (accepts_pure _).congr fun _ _ =>
      ⟨fun h => ⟨hp, h.2⟩, fun h => ⟨rfl, h.2⟩⟩

theorem Accepts.ite {p : Prop} [Decidable p] {read read' : StateT σ (Except ε) α}
    {format format' : α → List β → Prop} (h : Accepts read format) (h' : Accepts read' format') :
    Accepts (if p then read else read') fun value symbols =>
      p ∧ format value symbols ∨ ¬ p ∧ format' value symbols := by
  by_cases hp : p
  · rw [if_pos hp]
    exact h.congr fun _ _ => by simp [hp]
  · rw [if_neg hp]
    exact h'.congr fun _ _ => by simp [hp]

/-- The same reader with its errors seen as others. -/
def adaptReader (f : ε → ε') (read : StateT σ (Except ε) α) : StateT σ (Except ε') α :=
  fun s => (read s).mapError f

theorem Accepts.adapt {read : StateT σ (Except ε) α} {format : α → List β → Prop}
    (h : Accepts read format) (f : ε → ε') : Accepts (adaptReader f read) format := by
  intro s value s'
  rw [← h, adaptReader]
  cases read s with
  | error e => exact iff_of_false nofun nofun
  | ok p =>
    constructor
    · intro h
      cases h
      rfl
    · intro h
      cases h
      rfl

/-! ## Loops -/

/-- A loop with a fixed number of rounds that carries an accumulator. -/
def rounds (body : γ → StateT σ (Except ε) γ) : ℕ → γ → StateT σ (Except ε) γ
  | 0, acc => pure acc
  | n + 1, acc => do
    let acc ← body acc
    rounds body n acc

/-- Values that may be added to an accumulator one after the other. -/
def Admits (allow : γ → α → Prop) (add : γ → α → γ) : γ → List α → Prop
  | _, [] => True
  | acc, value :: values => allow acc value ∧ Admits allow add (add acc value) values

section Admits

variable {κ : Type u} {P Q : γ → α → Prop} {add : γ → α → γ} {acc : γ} {values : List α}

theorem admits_and : Admits (fun acc value => P acc value ∧ Q acc value) add acc values ↔
    Admits P add acc values ∧ Admits Q add acc values := by
  induction values generalizing acc with
  | nil => simp [Admits]
  | cons value values ih =>
    simp only [Admits, ih]
    exact and_and_and_comm

theorem admits_forall {p : α → Prop} :
    Admits (fun _ value => p value) add acc values ↔ ∀ value ∈ values, p value := by
  induction values generalizing acc with
  | nil => simp [Admits]
  | cons value values ih => rw [Admits, ih, List.forall_mem_cons]

/-- Keys that are different from each other and from those that were seen. -/
def Fresh (seen keys : List κ) : Prop := keys.Nodup ∧ seen.Disjoint keys

theorem fresh_append {seen xs ys : List κ} :
    Fresh seen (xs ++ ys) ↔ Fresh seen xs ∧ Fresh (seen ++ xs) ys := by
  simp only [Fresh, List.nodup_append', List.disjoint_append_right, List.disjoint_append_left]
  tauto

theorem fresh_singleton {seen : List κ} {key : κ} : Fresh seen [key] ↔ key ∉ seen := by
  simp [Fresh]

theorem fresh_nil_left {keys : List κ} : Fresh [] keys ↔ keys.Nodup := by
  simp [Fresh]

variable {seen : γ → List κ} {keys : α → List κ}

theorem seen_foldl (hadd : ∀ acc value, seen (add acc value) = seen acc ++ keys value) :
    seen (values.foldl add acc) = seen acc ++ values.flatMap keys := by
  induction values generalizing acc with
  | nil => simp
  | cons value values ih =>
    rw [List.foldl_cons, ih, hadd, List.flatMap_cons, List.append_assoc]

@[simp] theorem foldl_concat (values acc : List α) :
    values.foldl (fun acc value => acc ++ [value]) acc = acc ++ values := by
  induction values generalizing acc with
  | nil => rw [List.foldl_nil, List.append_nil]
  | cons value values ih => rw [List.foldl_cons, ih, List.append_assoc, List.singleton_append]

/-- Values whose keys are fresh one after the other have fresh keys together. -/
theorem admits_fresh (hadd : ∀ acc value, seen (add acc value) = seen acc ++ keys value) :
    Admits (fun acc value => Fresh (seen acc) (keys value)) add acc values ↔
      Fresh (seen acc) (values.flatMap keys) := by
  induction values generalizing acc with
  | nil => simp [Admits, Fresh]
  | cons value values ih => rw [Admits, ih, hadd, List.flatMap_cons, fresh_append]

end Admits

/-- A loop whose rounds read one value each reads that many values. -/
theorem Accepts.rounds {body : γ → StateT σ (Except ε) γ} {format : α → List β → Prop}
    {allow : γ → α → Prop} {add : γ → α → γ}
    (h : ∀ acc, Accepts (body acc) fun acc' symbols =>
      ∃ value, allow acc value ∧ acc' = add acc value ∧ format value symbols) (n : ℕ) (acc : γ) :
    Accepts (rounds body n acc) fun acc' symbols => ∃ values : List α, values.length = n ∧
      Admits allow add acc values ∧ acc' = values.foldl add acc ∧ Each format values symbols := by
  induction n generalizing acc with
  | zero =>
    refine (accepts_pure acc).congr fun acc' symbols => ?_
    constructor
    · intro h
      exact ⟨[], rfl, trivial, h.1, h.2⟩
    · intro h
      obtain ⟨values, hlength, _, hacc, heach⟩ := h
      rw [List.length_eq_zero_iff] at hlength
      subst hlength
      exact ⟨hacc, heach⟩
  | succ n ih =>
    refine ((h acc).bind ih).congr fun acc'' symbols => ?_
    constructor
    · intro h
      obtain ⟨acc', front, back, ⟨value, hallow, rfl, hfront⟩, ⟨values, hlength, hadmits, rfl,
        hback⟩, rfl⟩ := h
      exact ⟨value :: values, congrArg (· + 1) hlength, ⟨hallow, hadmits⟩, rfl, front, back, hfront,
        hback, rfl⟩
    · intro h
      obtain ⟨values, hlength, hadmits, hacc, heach⟩ := h
      cases values with
      | nil => cases hlength
      | cons value values =>
        obtain ⟨front, back, hfront, hback, rfl⟩ := heach
        exact ⟨add acc value, front, back, ⟨value, hadmits.1, rfl, hfront⟩,
          ⟨values, Nat.succ.inj hlength, hadmits.2, hacc, hback⟩, rfl⟩

/-- A loop that collects what every round reads. -/
def collect (read : StateT σ (Except ε) α) (n : ℕ) : StateT σ (Except ε) (List α) :=
  rounds (fun values => do
    let value ← read
    return values ++ [value]) n []

theorem Accepts.collect {read : StateT σ (Except ε) α} {format : α → List β → Prop}
    (h : Accepts read format) (n : ℕ) :
    Accepts (collect read n) fun values symbols =>
      values.length = n ∧ Each format values symbols := by
  have hround : ∀ acc : List α,
      Accepts (do let value ← read; return acc ++ [value]) fun acc' symbols =>
        ∃ value, True ∧ acc' = acc ++ [value] ∧ format value symbols := by
    intro acc
    refine (h.bind fun value => accepts_pure (acc ++ [value])).congr fun acc' symbols => ?_
    simp only [followed_and, followed_nil_right, true_and]
  refine (Accepts.rounds hround n []).congr fun values symbols => ?_
  simp only [foldl_concat, List.nil_append, admits_forall]
  constructor
  · intro h
    obtain ⟨_, hlength, _, rfl, heach⟩ := h
    exact ⟨hlength, heach⟩
  · intro h
    exact ⟨values, h.1, fun _ _ => trivial, rfl, h.2⟩

end Readers

/-! ## Errors that never happen -/

section Avoids

variable {σ ε ε' α γ : Type u} {bad : ε}

def Avoids (bad : ε) (read : StateT σ (Except ε) α) : Prop := ∀ s, read s ≠ .error bad

theorem avoids_pure (value : α) : Avoids bad (pure value : StateT σ (Except ε) α) := nofun

theorem avoids_throw {error : ε} (h : error ≠ bad) :
    Avoids bad (throw error : StateT σ (Except ε) α) := by
  intro s hs
  exact h (Except.error.inj hs)

theorem avoids_reject (p : Prop) [Decidable p] {error : ε} (h : error ≠ bad) :
    Avoids bad (reject p error : StateT σ (Except ε) PUnit) := by
  rw [reject]
  split_ifs
  · exact avoids_throw h
  · exact avoids_pure _

theorem avoids_require {value : Option α} {error : ε} (h : value = none → error ≠ bad) :
    Avoids bad (require value error : StateT σ (Except ε) α) := by
  cases value with
  | none => exact avoids_throw (h rfl)
  | some value => exact avoids_pure value

theorem require_eq_ok {value : Option α} {error : ε} {s s' : σ} {value' : α}
    (h : (require value error : StateT σ (Except ε) α) s = .ok (value', s')) :
    value = some value' := by
  cases value with
  | none => cases h
  | some value =>
    cases h
    rfl

theorem Avoids.adapt {read : StateT σ (Except ε') α} {f : ε' → ε} (h : ∀ error, f error ≠ bad) :
    Avoids bad (adaptReader f read) := by
  intro s hs
  rw [adaptReader] at hs
  cases hread : read s with
  | error error =>
    rw [hread] at hs
    exact h error (Except.error.inj hs)
  | ok result =>
    rw [hread] at hs
    cases hs

/-- What follows may rely on what the first reader returns. -/
theorem Avoids.bind {read : StateT σ (Except ε) α} {next : α → StateT σ (Except ε) γ}
    (h : Avoids bad read)
    (h' : ∀ value, (∃ s s', read s = .ok (value, s')) → Avoids bad (next value)) :
    Avoids bad (read >>= next) := by
  intro s hs
  change (read s >>= fun p => next p.1 p.2) = _ at hs
  cases hread : read s with
  | error error =>
    rw [hread] at hs
    cases hs
    exact h s hread
  | ok result =>
    rw [hread] at hs
    exact h' result.1 ⟨s, result.2, hread⟩ result.2 hs

theorem Avoids.rounds {body : γ → StateT σ (Except ε) γ} (h : ∀ acc, Avoids bad (body acc)) (n : ℕ)
    (acc : γ) : Avoids bad (rounds body n acc) := by
  induction n generalizing acc with
  | zero => exact avoids_pure acc
  | succ n ih => exact (h acc).bind fun acc' _ => ih acc'

theorem Avoids.collect {read : StateT σ (Except ε) α} (h : Avoids bad read) (n : ℕ) :
    Avoids bad (collect read n) :=
  Avoids.rounds (fun _ => h.bind fun _ _ => avoids_pure _) n []

end Avoids

/-! ## Early ends -/

section Patient

variable {ε α β γ : Type u} {eof : ε}

/-- On the beginning of an input a reader does the same or reports the early end. -/
def Patient (eof : ε) (read : StateT (List β) (Except ε) α) : Prop :=
  ∀ stream more value rest, read (stream ++ more) = .ok (value, rest) →
    (∃ rest', read stream = .ok (value, rest') ∧ rest = rest' ++ more) ∨ read stream = .error eof

theorem patient_pure (value : α) : Patient eof (pure value : StateT (List β) (Except ε) α) := by
  intro stream more value' rest h
  cases h
  exact Or.inl ⟨stream, rfl, rfl⟩

theorem patient_lift (result : Except ε α) :
    Patient eof (liftM result : StateT (List β) (Except ε) α) := by
  cases result with
  | error e =>
    intro stream more value rest h
    cases h
  | ok value => exact patient_pure value

theorem patient_reject (p : Prop) [Decidable p] (error : ε) :
    Patient eof (reject p error : StateT (List β) (Except ε) PUnit) := by
  rw [reject]
  by_cases hp : p
  · rw [if_pos hp]
    intro stream more value rest h
    cases h
  · rw [if_neg hp]
    exact patient_pure _

theorem Patient.bind {read : StateT (List β) (Except ε) α} {next : α → StateT (List β) (Except ε) γ}
    (h : Patient eof read) (h' : ∀ value, Patient eof (next value)) :
    Patient eof (read >>= next) := by
  intro stream more result rest hok
  change (read (stream ++ more) >>= fun p => next p.1 p.2) = _ at hok
  show (∃ rest', (read stream >>= fun p => next p.1 p.2) = _ ∧ _) ∨
    (read stream >>= fun p => next p.1 p.2) = _
  cases hread : read (stream ++ more) with
  | error e =>
    rw [hread] at hok
    cases hok
  | ok p =>
    rw [hread] at hok
    rcases h stream more p.1 p.2 hread with ⟨rest', hread', hrest⟩ | hread'
    · rw [hread']
      refine h' p.1 rest' more result rest ?_
      rw [← hrest]
      exact hok
    · rw [hread']
      exact Or.inr rfl

end Patient

/-! ## Writers -/

section Writers

variable {ε α β : Type u}

def Emits (write : List β → Except ε (List β)) (P : List β → Prop) : Prop :=
  ∀ written written', write written = .ok written' ↔
    ∃ symbols, P symbols ∧ written' = written ++ symbols

theorem Emits.congr {write : List β → Except ε (List β)} {P P' : List β → Prop}
    (h : Emits write P) (hP : ∀ symbols, P symbols ↔ P' symbols) : Emits write P' := by
  intro written written'
  rw [h]
  exact exists_congr fun symbols => and_congr_left' (hP symbols)

theorem emits_ok (symbols : List β) :
    Emits (fun written => (.ok (written ++ symbols) : Except ε (List β))) (· = symbols) := by
  intro written written'
  constructor
  · intro h
    cases h
    exact ⟨symbols, rfl, rfl⟩
  · intro h
    obtain ⟨_, rfl, rfl⟩ := h
    rfl

theorem Emits.bind {write write' : List β → Except ε (List β)} {P Q : List β → Prop}
    (h : Emits write P) (h' : Emits write' Q) :
    Emits (fun written => write written >>= write') (Followed P Q) := by
  intro written written''
  constructor
  · intro hok
    change write written >>= write' = _ at hok
    cases hwrite : write written with
    | error e =>
      rw [hwrite] at hok
      cases hok
    | ok written' =>
      rw [hwrite] at hok
      obtain ⟨front, hfront, rfl⟩ := (h _ _).mp hwrite
      obtain ⟨back, hback, rfl⟩ := (h' _ _).mp hok
      exact ⟨front ++ back, ⟨front, back, hfront, hback, rfl⟩, List.append_assoc ..⟩
  · intro hsymbols
    obtain ⟨_, ⟨front, back, hfront, hback, rfl⟩, rfl⟩ := hsymbols
    show write written >>= write' = _
    rw [(h _ _).mpr ⟨front, hfront, rfl⟩]
    exact (h' _ _).mpr ⟨back, hback, (List.append_assoc ..).symm⟩

theorem emits_foldlM {write : α → List β → Except ε (List β)} {format : α → List β → Prop}
    {values : List α} (h : ∀ value ∈ values, Emits (write value) (format value)) :
    Emits (fun written => values.foldlM (fun written value => write value written) written)
      (Each format values) := by
  induction values with
  | nil =>
    have hemits : Emits (fun written => (.ok (written ++ []) : Except ε (List β))) (· = []) :=
      emits_ok []
    simp only [List.append_nil] at hemits
    exact hemits
  | cons value values ih =>
    rw [List.forall_mem_cons] at h
    intro written written'
    show (value :: values).foldlM _ written = _ ↔ _
    rw [List.foldlM_cons]
    exact h.1.bind (ih h.2) written written'

end Writers

end Mago.Library
