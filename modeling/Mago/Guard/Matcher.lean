import Mago.Guard.Braces
import Mago.Library.Ascii
import Mago.Library.Glob
import Mago.Syntax.Input
import Mathlib

/-!
# The matcher of names

A name is matched by a pattern without wildcards as text, by one with wildcards segment by
segment, and by one with braces if by any of its expansions. Braces that never close expand to
themselves, so that a call may not return; the fuel counts the nested calls.
-/
namespace Mago.Guard
open Library (findAll)
open Library.Ascii (toLowercase lower eqIgnoreCase)

def separator : UInt8 := 92

def star : UInt8 := 42

def isValidPattern (pattern : Bytes) : Bool :=
  isValidLoop (fun b => Syntax.isPartOfIdentifier b || b == star || b == separator) 0 pattern

def trimSeparator (s : Bytes) : Bytes :=
  (s.dropWhile (· == separator)).rdropWhile (· == separator)

/-- The text before the first separator, and after it where there is one. -/
def splitFirstSeparator : Bytes → Bytes × Option Bytes
  | [] => ([], none)
  | b :: s =>
    if b = separator then ([], some s)
    else
      let parts := splitFirstSeparator s
      (b :: parts.1, parts.2)

/-- The text before and after the last separator, where there is one. -/
def rsplitOnceSeparator : Bytes → Option (Bytes × Bytes)
  | [] => none
  | b :: s =>
    match rsplitOnceSeparator s with
    | some parts => some (b :: parts.1, parts.2)
    | none => if b = separator then some ([], s) else none

def startsWithIgnoreCase (haystack pre : Bytes) : Bool :=
  if haystack.length < pre.length then false else eqIgnoreCase (haystack.take pre.length) pre

/-- The key by which two bytes are compared. -/
def caseKey (caseSensitive : Bool) (b : UInt8) : UInt8 :=
  if caseSensitive then b else toLowercase b

/-- Texts are compared as they are or in small letters. -/
def sameText (caseSensitive : Bool) (s t : Bytes) : Bool :=
  if caseSensitive then s == t else eqIgnoreCase s t

def segmentMatches (fqcnPart patternPart : Bytes) (caseSensitive : Bool) : Bool :=
  if patternPart = [star] then true
  else if star ∉ patternPart then sameText caseSensitive fqcnPart patternPart
  else
    let chunks := patternPart.splitOn star
    let firstChunk := chunks.head?.getD []
    let lastChunk := chunks.tail.getLast?.getD []
    if fqcnPart.length < firstChunk.length then false
    else if !sameText caseSensitive (fqcnPart.take firstChunk.length) firstChunk then false
    else
      let remainder := fqcnPart.drop firstChunk.length
      if remainder.length < lastChunk.length then false
      else if !sameText caseSensitive (remainder.drop (remainder.length - lastChunk.length))
          lastChunk then false
      else
        findAll (caseKey caseSensitive) chunks.tail.dropLast
          (remainder.take (remainder.length - lastChunk.length))

/-- How much text is left, the absence of any being less than an empty text. -/
def textSize : Option Bytes → ℕ
  | none => 0
  | some s => s.length + 1

theorem textSize_splitFirstSeparator (s : Bytes) :
    textSize (splitFirstSeparator s).2 < textSize (some s) := by
  induction s with
  | nil => exact Nat.zero_lt_one
  | cons b s ih =>
    rw [splitFirstSeparator]
    split
    · exact Nat.lt_succ_self _
    · exact ih.trans (Nat.lt_succ_self _)

def doMatch (fqcn pattern : Option Bytes) (isConstant : Bool) : Bool :=
  match pattern with
  | none => fqcn.isNone
  | some p =>
    if (splitFirstSeparator p).1 = [star, star] then
      if (splitFirstSeparator p).2.isNone then true
      else
        doMatch fqcn (splitFirstSeparator p).2 isConstant ||
          match fqcn with
          | none => false
          | some f => doMatch (splitFirstSeparator f).2 (some p) isConstant
    else
      match fqcn with
      | none => false
      | some f =>
        let isLast := (splitFirstSeparator f).2.isNone && (splitFirstSeparator p).2.isNone
        let caseSensitive := isConstant && isLast
        if segmentMatches (splitFirstSeparator f).1 (splitFirstSeparator p).1 caseSensitive then
          doMatch (splitFirstSeparator f).2 (splitFirstSeparator p).2 isConstant
        else false
termination_by textSize fqcn + textSize pattern
decreasing_by
  · exact Nat.add_lt_add_left (textSize_splitFirstSeparator p) _
  · exact Nat.add_lt_add_right (textSize_splitFirstSeparator f) _
  · exact Nat.add_lt_add (textSize_splitFirstSeparator f) (textSize_splitFirstSeparator p)

/-- A pattern that has no opening brace. -/
def matchesExpanded (fqcn pattern : Bytes) (isConstant treatAsNamespace : Bool) : Bool :=
  if star ∉ pattern then
    let p := trimSeparator pattern
    let f := trimSeparator fqcn
    if p.isEmpty then f.isEmpty
    else if treatAsNamespace || pattern.getLast? == some separator then
      if !startsWithIgnoreCase f p then false
      else f.length == p.length || f[p.length]? == some separator
    else if isConstant then
      match rsplitOnceSeparator f, rsplitOnceSeparator p with
      | some (fNamespace, fName), some (pNamespace, pName) =>
        eqIgnoreCase fNamespace pNamespace && fName == pName
      | none, none => f == p
      | _, _ => false
    else eqIgnoreCase f p
  else
    let fqcn := trimSeparator fqcn
    let pattern := trimSeparator pattern
    if pattern = [star, star] then true
    else if pattern = [star] then !fqcn.contains separator
    else if fqcn.isEmpty || pattern.isEmpty then fqcn == pattern
    else doMatch (some fqcn) (some pattern) isConstant

/-- The calls of `matches`, at most so many within each other. -/
def matchesPattern (fuel : ℕ) (fqcn pattern : Bytes) (isConstant treatAsNamespace : Bool) :
    Option Bool :=
  match fuel with
  | 0 => none
  | fuel + 1 =>
    if openBrace ∈ pattern then
      (expandBraces pattern).anyM fun p => matchesPattern fuel fqcn p isConstant treatAsNamespace
    else some (matchesExpanded fqcn pattern isConstant treatAsNamespace)

end Mago.Guard
