import Mago.Library.PartitionPoint

/-!
# Source files

The identity, the size and the line starts of a file are computed from its name and its
contents wherever a file is built, so they are functions here. The hash behind the identity
is a parameter.
-/
namespace Mago.Storage
open Library

abbrev Bytes := List UInt8

abbrev FileId := UInt64

inductive FileType
  | host
  | vendored
  | builtin
  | patch
  | external
  deriving DecidableEq, Repr

structure File (π : Type*) where
  name : Bytes
  fileType : FileType
  path : Option π
  contents : Bytes
  deriving DecidableEq, Repr

/-- The byte after which lines start: a carriage return when the first line break is one
that no line feed follows, the line feed otherwise. -/
def lineBreak : Bytes → Option UInt8
  | [] => none
  | byte :: rest =>
    if byte = 13 then if rest.head? = some 10 then some 10 else some 13
    else if byte = 10 then some 10
    else lineBreak rest

/-- The starting offsets of the lines, truncated to 32 bits. -/
def lineStarts (source : Bytes) : List ℕ :=
  0 :: match lineBreak source with
    | none => []
    | some byte => (source.findIdxs (· == byte)).map fun pos => (pos + 1) % 2 ^ 32

namespace File

variable {π : Type*}

def id (hash : Bytes → FileId) (file : File π) : FileId := hash file.name

def size (file : File π) : ℕ := file.contents.length % 2 ^ 32

def lines (file : File π) : List ℕ := lineStarts file.contents

/-- The line of an offset: a search for the last line start that is not behind it. -/
def lineNumber (file : File π) (offset : ℕ) : ℕ :=
  (partitionPoint (fun start => decide (start ≤ offset)) file.lines - 1) % 2 ^ 32

def getLineStartOffset (file : File π) (line : ℕ) : Option ℕ := file.lines[line]?

/-- A line ends right before the next one starts, the last line with the file. -/
def getLineEndOffset (file : File π) (line : ℕ) : Option ℕ :=
  match file.lines[line + 1]? with
  | some stop => some (stop - 1)
  | none => if line = file.lines.length - 1 then some file.size else none

end File

end Mago.Storage
