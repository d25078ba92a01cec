import Mago.TextEdit.Commute
import Mago.TextEdit.Single
import Mago.TextEdit.Splice
import Mago.Storage.Commit
import Mago.Suppression.Deferred
import Mago.Suppression.CodeSpans
import Mago.Storage.Runs
import Mago.Reporting.Prune
import Mago.Printing.Fits
import Mago.Printing.Complete
import Mago.Printing.Position
import Mago.Printing.Eager
import Mago.Printing.FitsStack
import Mago.Algebra.NegateExact
import Mago.Algebra.Disjoin
import Mago.Algebra.AssertionSet
import Mago.Algebra.MixedVariables
import Mago.Algebra.Plain
import Mago.Types.Atomic
import Mago.Types.Division
import Mago.Types.Shift
import Mago.Types.StringIntersect
import Mago.Types.ContainmentExact
import Mago.Types.ArrayContainment
import Mago.Incremental.Invalidation
import Mago.Phpdoc.Tiling
import Mago.Syntax.DoubleQuote
import Mago.Syntax.NumberToken
import Mago.Twig.WellNested
import Mago.Twig.KeptExpression
import Mago.Codebase.Merge
import Mago.Codebase.MyersDiff
import Mago.Codebase.Version
import Mago.Codebase.ClassLikes
import Mago.Extension.Consistency
import Mago.Codebase.Descendants
import Mago.Incremental.ReferenceGraph
import Mago.Types.ListSubtract
import Mago.Types.LiteralKey
import Mago.Types.ArrayIntersect
import Mago.Types.Truthiness
import Mago.Types.Narrowing
import Mago.Types.KeySpelling
import Mago.Phpdoc.Stream
import Mago.Phpdoc.ShapeKey
import Mago.Syntax.IntegerLiteral
import Mago.Storage.Lines
import Mago.Library.Ascii
import Mago.Names.Scope
import Mago.Names.Resolution
import Mago.Casing.Canonical
import Mago.Extension.SourceEncoding
import Mago.Extension.SourceOrder
import Mago.Guard.Meaning
import Mago.Analyzer.AccessPath
import Mago.Printing.Placement
import Mago.Library.MemoSearch
import Mago.Codebase.InheritedMethods
import Mago.Printing.StringQuotes
import Mago.Extension.Frame
import Mago.Extension.PayloadReader
import Mago.Library.Fallible
import Mago.Linter.External
import Mago.Linter.Selection
