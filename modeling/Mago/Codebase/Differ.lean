import Mago.Library.OrderedMap

/-!
# The differ of file signatures

The nodes of two signatures are compared with the algorithm of Myers. The search keeps the
furthest position on each diagonal in a map that is filled as the diagonals come up, and the
edit script is read back from the maps that the rounds began with. A missing entry, a position
outside of a list and a negative position are failures.
-/
namespace Mago.Codebase.Differ
open Library

/-- A node of a signature. -/
structure DefSignatureNode (ω : Type) where
  name : ω
  isFunction : Bool
  children : List (DefSignatureNode ω)
  hash : UInt64
  signatureHash : UInt64

inductive Failure
  | missingEntry
  | outOfRange
  | negativePosition
  | notConverged
  deriving DecidableEq, Repr

@[simp] theorem ok_bind {α β : Type} (x : α) (f : α → Except Failure β) :
    (Except.ok x >>= f) = f x := rfl

@[simp] theorem pure_eq_ok {α : Type} (x : α) : (pure x : Except Failure α) = .ok x := rfl

/-- The furthest positions in the old list by diagonal. -/
abbrev Frontier := OrderedMap ℤ ℕ

def entry (v : Frontier) (k : ℤ) : Except Failure ℕ :=
  match v.get? k with
  | none => .error .missingEntry
  | some x => .ok x

variable {ω : Type} [DecidableEq ω]

/-- Nodes are matched although their contents may differ. -/
def isEqual (a b : DefSignatureNode ω) : Bool :=
  decide (a.name = b.name) && decide (a.isFunction = b.isFunction)

/-- Whether a diagonal is entered from the one above it. -/
def goesDown (v : Frontier) (d : ℕ) (k : ℤ) : Except Failure Bool :=
  if k = -d then .ok true
  else if k ≠ d then do
    let left ← entry v (k - 1)
    let right ← entry v (k + 1)
    return decide (left < right)
  else .ok false

/-- The position at which a diagonal is entered. -/
def enter (v : Frontier) (d : ℕ) (k : ℤ) : Except Failure ℕ := do
  if ← goesDown v d k then entry v (k + 1)
  else
    let left ← entry v (k - 1)
    return left + 1

/-- The position in the new list on a diagonal. -/
def positionOn (x : ℕ) (k : ℤ) : Except Failure ℕ :=
  if (x : ℤ) < k then .error .negativePosition else .ok ((x : ℤ) - k).toNat

/-- The run of equal nodes from a position. -/
def follow (a b : List (DefSignatureNode ω)) (x y : ℕ) : Except Failure (ℕ × ℕ) :=
  if x < a.length ∧ y < b.length then
    match a[x]?, b[y]? with
    | some p, some q => if isEqual p q then follow a b (x + 1) (y + 1) else .ok (x, y)
    | _, _ => .error .outOfRange
  else .ok (x, y)
termination_by a.length - x

/-- The positions that a diagonal is followed to. -/
def advance (a b : List (DefSignatureNode ω)) (v : Frontier) (d : ℕ) (k : ℤ) :
    Except Failure (ℕ × ℕ) := do
  let x ← enter v d k
  let y ← positionOn x k
  follow a b x y

/-- The outcome of a round: the frontier for the next one, or the end of both lists. -/
inductive Round
  | next (v : Frontier)
  | found (x y : ℕ)

/-- The diagonals of a round from one on. -/
def round (a b : List (DefSignatureNode ω)) (d : ℕ) (k : ℤ) (v : Frontier) :
    Except Failure Round :=
  if k ≤ d then do
    let (x, y) ← advance a b v d k
    if a.length ≤ x ∧ b.length ≤ y then return .found x y
    else round a b d (k + 2) (v.insert k x)
  else .ok (.next v)
termination_by (d + 1 - k).toNat

abbrev DiffTrace := List Frontier × ℕ × ℕ

/-- The rounds from one on, as many as are left. -/
def rounds (a b : List (DefSignatureNode ω)) :
    ℕ → ℕ → Frontier → List Frontier → Except Failure DiffTrace
  | 0, _, _, _ => .error .notConverged
  | left + 1, d, v, trace => do
    match ← round a b d (-d) v with
    | .found x y => return (trace ++ [v], x, y)
    | .next v' => rounds a b left (d + 1) v' (trace ++ [v])

def calculateTrace (a b : List (DefSignatureNode ω)) : Except Failure DiffTrace :=
  rounds a b (a.length + b.length + 1) 0 (OrderedMap.ofList [(1, 0)]) []

/-! ## The edit script -/

inductive AstDiffElem (ω : Type)
  | keep (a b : DefSignatureNode ω)
  | remove (a : DefSignatureNode ω)
  | add (b : DefSignatureNode ω)

/-- The node in front of a position. -/
def before (nodes : List (DefSignatureNode ω)) : ℕ → Except Failure (DefSignatureNode ω)
  | 0 => .error .outOfRange
  | x + 1 =>
    match nodes[x]? with
    | none => .error .outOfRange
    | some node => .ok node

/-- The unchanged nodes back to a position. -/
def keeps (a b : List (DefSignatureNode ω)) (prevX : ℕ) (prevY : ℤ) (x y : ℕ)
    (result : List (AstDiffElem ω)) : Except Failure (ℕ × ℕ × List (AstDiffElem ω)) :=
  if prevX < x ∧ prevY < y then do
    let p ← before a x
    let q ← before b y
    keeps a b prevX prevY (x - 1) (y - 1) (result ++ [.keep p q])
  else .ok (x, y, result)
termination_by x

def removals (a : List (DefSignatureNode ω)) (prevX x : ℕ) (result : List (AstDiffElem ω)) :
    Except Failure (ℕ × List (AstDiffElem ω)) :=
  if prevX < x then do
    let p ← before a x
    removals a prevX (x - 1) (result ++ [.remove p])
  else .ok (x, result)
termination_by x

/-- A position of an isize is never passed below zero. -/
def additions (b : List (DefSignatureNode ω)) (prevY : ℤ) (y : ℕ)
    (result : List (AstDiffElem ω)) : Except Failure (ℕ × List (AstDiffElem ω)) :=
  match y with
  | 0 => if prevY < 0 then .error .outOfRange else .ok (0, result)
  | y + 1 =>
    if prevY < (y + 1 : ℕ) then do
      let q ← before b (y + 1)
      additions b prevY y (result ++ [.add q])
    else .ok (y + 1, result)

/-- The walk back through the rounds, as many as are left. -/
def walkBack (trace : List Frontier) (a b : List (DefSignatureNode ω)) :
    ℕ → ℕ → ℕ → List (AstDiffElem ω) → Except Failure (List (AstDiffElem ω))
  | 0, _, _, result => .ok result
  | d + 1, x, y, result =>
    match (trace)[d]? with
    | none => .error .outOfRange
    | some v => do
      let k := (x : ℤ) - y
      let prevK := if ← goesDown v d k then k + 1 else k - 1
      let prevX ← entry v prevK
      let prevY := (prevX : ℤ) - prevK
      let (x, y, result) ← keeps a b prevX prevY x y result
      if d = 0 then return result
      let (x, result) ← removals a prevX x result
      let (y, result) ← additions b prevY y result
      walkBack trace a b d x y result

def extractDiff (trace : List Frontier) (x y : ℕ) (a b : List (DefSignatureNode ω)) :
    Except Failure (List (AstDiffElem ω)) := do
  let result ← walkBack trace a b trace.length x y []
  return result.reverse

end Mago.Codebase.Differ
