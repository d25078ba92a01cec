import Mathlib.Data.List.Basic
import Mathlib.Data.Nat.Notation
import Mathlib.Tactic

/-!
# Tokenizers that tile their source

A tokenizer is a state with a cursor into a source and a function that returns the next token,
an error, or nothing at the end. When every token covers what lies between the cursor before
it and the cursor after it and is not empty, a run ends and its tokens tile what they cover.
-/
namespace Mago.Library

/-- What a run returned and the state in which it stopped, before the call that ended it. -/
structure TokenRun (σ τ ε : Type*) where
  tokens : List τ
  error : Option ε
  stopped : σ

section Run

variable {σ τ ε : Type*} (advance : σ → Option (Except ε τ) × σ)

/-- Calls `advance` until it returns nothing or an error; nothing when the calls run out. -/
def runTokens : ℕ → σ → Option (TokenRun σ τ ε)
  | 0, _ => none
  | calls + 1, s =>
    match advance s with
    | (none, _) => some ⟨[], none, s⟩
    | (some (.error e), _) => some ⟨[], some e, s⟩
    | (some (.ok token), s') =>
      (runTokens calls s').map fun run => { run with tokens := token :: run.tokens }

variable {advance}

/-- More calls than a run takes change nothing. -/
theorem runTokens_mono {calls : ℕ} {s : σ} {result : TokenRun σ τ ε}
    (h : runTokens advance calls s = some result) {more : ℕ} (hle : calls ≤ more) :
    runTokens advance more s = some result := by
  induction calls generalizing s result more with
  | zero => cases h
  | succ calls ih =>
    obtain ⟨more, rfl⟩ : ∃ m, more = m + 1 := ⟨more - 1, by omega⟩
    unfold runTokens at h ⊢
    match hadvance : advance s with
    | (none, _) =>
      rw [hadvance] at h
      exact h
    | (some (.error _), _) =>
      rw [hadvance] at h
      exact h
    | (some (.ok token), s') =>
      rw [hadvance] at h
      obtain ⟨tail, htail, rfl⟩ := Option.map_eq_some_iff.mp h
      show (runTokens advance more s').map _ = _
      rw [ih htail (by omega)]
      rfl

end Run

/-- The items from one position up to another. -/
def slice {α : Type*} (source : List α) (start stop : ℕ) : List α :=
  (source.drop start).take (stop - start)

section Slice

variable {α : Type*} {source : List α} {a b c : ℕ}

theorem length_slice (h : b ≤ source.length) : (slice source a b).length = b - a := by
  rw [slice, List.length_take, List.length_drop]
  omega

theorem slice_append (hab : a ≤ b) (hbc : b ≤ c) :
    slice source a b ++ slice source b c = slice source a c := by
  have hdrop : source.drop b = (source.drop a).drop (b - a) := by
    rw [List.drop_drop, Nat.add_sub_cancel' hab]
  rw [slice, slice, slice, hdrop, ← List.take_add]
  congr 1
  omega

@[simp] theorem slice_self : slice source a a = [] := by
  rw [slice, Nat.sub_self, List.take_zero]

end Slice

/-- The tokens cover the source from `start` on, one after the other, up to `stop`; the source
itself starts at `origin`. -/
inductive Tiles {τ α : Type*} (source : List α) (origin : ℕ) (startOf : τ → ℕ)
    (value : τ → List α) : ℕ → List τ → ℕ → Prop
  | nil {start} (h : start ≤ source.length) : Tiles source origin startOf value start [] start
  | cons {start stop token tokens} (hstart : startOf token = origin + start)
      (hne : value token ≠ [])
      (hvalue : value token = slice source start (start + (value token).length))
      (htail : Tiles source origin startOf value (start + (value token).length) tokens stop) :
      Tiles source origin startOf value start (token :: tokens) stop

namespace Tiles

variable {τ α : Type*} {source : List α} {origin : ℕ} {startOf : τ → ℕ} {value : τ → List α}
  {start stop : ℕ} {tokens : List τ}

theorem le (h : Tiles source origin startOf value start tokens stop) :
    start ≤ stop ∧ stop ≤ source.length := by
  induction h with
  | nil h => exact ⟨le_rfl, h⟩
  | cons _ _ _ _ ih => omega

/-- No token is empty. -/
theorem nonempty (h : Tiles source origin startOf value start tokens stop) :
    ∀ token ∈ tokens, value token ≠ [] := by
  induction h with
  | nil => simp
  | cons _ hne _ _ ih =>
    intro token htoken
    rcases List.mem_cons.mp htoken with rfl | htoken
    · exact hne
    · exact ih token htoken

/-- The values concatenate to what is covered. -/
theorem flatten (h : Tiles source origin startOf value start tokens stop) :
    (tokens.map value).flatten = slice source start stop := by
  induction h with
  | nil => simp
  | @cons start stop token tokens _ _ hvalue htail ih =>
    rw [List.map_cons, List.flatten_cons, ih]
    calc value token ++ slice source (start + (value token).length) stop
        = slice source start (start + (value token).length) ++
            slice source (start + (value token).length) stop := congrArg (· ++ _) hvalue
      _ = slice source start stop := slice_append (Nat.le_add_right _ _) htail.le.1

/-- A token starts where the lengths before it add up to. -/
theorem startOf_eq (h : Tiles source origin startOf value start tokens stop) {i : ℕ} {token : τ}
    (htoken : tokens[i]? = some token) :
    startOf token = origin + (start + ((tokens.take i).map fun t => (value t).length).sum) := by
  induction h generalizing i with
  | nil => simp at htoken
  | cons hstart _ _ _ ih =>
    cases i with
    | zero =>
      obtain rfl : _ = token := by simpa using htoken
      simpa using hstart
    | succ i =>
      rw [List.getElem?_cons_succ] at htoken
      rw [ih htoken, List.take_succ_cons, List.map_cons, List.sum_cons, Nat.add_assoc]

end Tiles

/-- What one call does: a token covers what the cursor moves over, and only the end of the
source returns nothing. -/
structure TilingStep {σ τ ε α : Type*} (advance : σ → Option (Except ε τ) × σ)
    (source : List α) (origin : ℕ) (startOf : τ → ℕ) (value : τ → List α) (cursor : σ → ℕ)
    (Inv : σ → Prop) : Prop where
  cursor_le : ∀ {s}, Inv s → cursor s ≤ source.length
  token : ∀ {s s' t}, Inv s → advance s = (some (.ok t), s') →
    Inv s' ∧ startOf t = origin + cursor s ∧ cursor s < cursor s' ∧
      value t = slice source (cursor s) (cursor s')
  ended : ∀ {s s'}, Inv s → advance s = (none, s') → cursor s = source.length

namespace TilingStep

variable {σ τ ε α : Type*} {advance : σ → Option (Except ε τ) × σ} {source : List α}
  {origin : ℕ} {startOf : τ → ℕ} {value : τ → List α} {cursor : σ → ℕ} {Inv : σ → Prop}

/-- A run with more calls than items left ends, and its tokens tile what they cover; without an
error they cover the rest of the source. -/
theorem run (h : TilingStep advance source origin startOf value cursor Inv) :
    ∀ {calls : ℕ} {s : σ}, Inv s → source.length - cursor s < calls →
      ∃ result, runTokens advance calls s = some result ∧ Inv result.stopped ∧
        Tiles source origin startOf value (cursor s) result.tokens (cursor result.stopped) ∧
        (result.error = none → cursor result.stopped = source.length) := by
  intro calls
  induction calls with
  | zero =>
    intro s _ hcalls
    omega
  | succ calls ih =>
    intro s hs hcalls
    have hle := h.cursor_le hs
    unfold runTokens
    match hadvance : advance s with
    | (none, _) =>
      exact ⟨_, rfl, hs, .nil hle, fun _ => h.ended hs hadvance⟩
    | (some (.error e), _) =>
      exact ⟨_, rfl, hs, .nil hle, fun herror => by cases herror⟩
    | (some (.ok t), s') =>
      obtain ⟨hs', hstart, hlt, hvalue⟩ := h.token hs hadvance
      have hle' := h.cursor_le hs'
      have hlength : (value t).length = cursor s' - cursor s := by
        rw [hvalue, length_slice hle']
      have hnext : cursor s + (value t).length = cursor s' := by omega
      obtain ⟨result, hrun, hinv, htiles, hend⟩ := ih hs' (by omega)
      refine ⟨{ result with tokens := t :: result.tokens }, ?_, hinv, ?_, hend⟩
      · show (runTokens advance calls s').map _ = _
        rw [hrun]
        rfl
      refine .cons hstart ?_ (by rw [hnext, ← hvalue]) (by rw [hnext]; exact htiles)
      intro hnil
      rw [hnil, List.length_nil] at hlength
      omega

/-- At the end of the source there are no more tokens. -/
theorem tokens_of_end (h : TilingStep advance source origin startOf value cursor Inv) {calls : ℕ}
    {s : σ} {result : TokenRun σ τ ε} (hs : Inv s) (hend : cursor s = source.length)
    (hrun : runTokens advance calls s = some result) : result.tokens = [] := by
  cases calls with
  | zero => cases hrun
  | succ calls =>
    unfold runTokens at hrun
    match hadvance : advance s with
    | (none, _) =>
      rw [hadvance] at hrun
      cases hrun
      rfl
    | (some (.error _), _) =>
      rw [hadvance] at hrun
      cases hrun
      rfl
    | (some (.ok t), s') =>
      obtain ⟨hs', -, hlt, -⟩ := h.token hs hadvance
      have hle := h.cursor_le hs'
      omega

/-- When a token never ends between a point and the end of the source unless it is final, the
last token is final. -/
theorem getLast_final (h : TilingStep advance source origin startOf value cursor Inv) {point : ℕ}
    {Final : τ → Prop} (hpoint : point < source.length)
    (hstep : ∀ {s s' t}, Inv s → cursor s ≤ point → advance s = (some (.ok t), s') →
      cursor s' ≤ point ∨ Final t ∧ cursor s' = source.length) :
    ∀ {calls : ℕ} {s : σ} {result : TokenRun σ τ ε}, Inv s → cursor s ≤ point →
      runTokens advance calls s = some result → result.error = none →
      ∃ t, result.tokens.getLast? = some t ∧ Final t := by
  intro calls
  induction calls with
  | zero =>
    intro s result _ _ hrun
    cases hrun
  | succ calls ih =>
    intro s result hs hle hrun herror
    unfold runTokens at hrun
    match hadvance : advance s with
    | (none, _) =>
      have := h.ended hs hadvance
      omega
    | (some (.error _), _) =>
      rw [hadvance] at hrun
      cases hrun
      cases herror
    | (some (.ok t), s') =>
      rw [hadvance] at hrun
      obtain ⟨tail, htail, rfl⟩ := Option.map_eq_some_iff.mp hrun
      obtain ⟨hs', -⟩ := h.token hs hadvance
      rcases hstep hs hle hadvance with hle' | ⟨hfinal, hend⟩
      · obtain ⟨last, hlast, hfinal⟩ := ih hs' hle' htail herror
        exact ⟨last, by simp [List.getLast?_cons, hlast], hfinal⟩
      · exact ⟨t, by simp [h.tokens_of_end hs' hend htail], hfinal⟩

end TilingStep

end Mago.Library
