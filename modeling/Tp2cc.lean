import Tp2cc.Machine.Word
import Tp2cc.Primitive
import Tp2cc.Analysis.ConstInt
import Tp2cc.Analysis.Carrier
import Tp2cc.Analysis.BinaryOperation
import Tp2cc.Analysis.Ordinal
import Tp2cc.Analysis.OrdinalStep
import Tp2cc.Machine.Conversion
import Tp2cc.Machine.Loop
import Tp2cc.Stmts.ForLoop
import Tp2cc.Analysis.ConstFold
import Tp2cc.Analysis.FoldedNumber
import Tp2cc.Analysis.ConstFoldLaw
import Tp2cc.Graph.DepthFirst
import Tp2cc.Units.InitOrder
import Tp2cc.Parser.Stream
import Tp2cc.Parser.Expr
import Tp2cc.Parser.Stmt
import Tp2cc.Parser.Proc
import Tp2cc.Parser.Type
import Tp2cc.Parser.Decl
import Tp2cc.Parser.Unit
import Tp2cc.Parser.Termination
import Tp2cc.Graph.LeastFirst
import Tp2cc.Units.TopoSort
import Tp2cc.Units.FailurePropagation
import Tp2cc.Lexer.Directive
import Tp2cc.Lexer.Conditional
import Tp2cc.Order.Dominance
import Tp2cc.Resolution.Overload
import Tp2cc.Machine.Buffer
import Tp2cc.Runtime.ShortString
import Tp2cc.Runtime.ShortStringRun
import Tp2cc.Runtime.StrVal
import Tp2cc.Machine.BitArray
import Tp2cc.Runtime.Set
import Tp2cc.Runtime.SetRun
import Tp2cc.Machine.Arena
import Tp2cc.Runtime.AnsiString
import Tp2cc.Runtime.AnsiStringLaw
import Tp2cc.Runtime.AnsiStringRun
import Tp2cc.Parser.ExprReading
import Tp2cc.Parser.Spelled
import Tp2cc.Parser.ExprRun
import Tp2cc.Parser.ExprText
import Tp2cc.Parser.ExprRoundTrip
import Tp2cc.Parser.StmtRoundTrip
import Tp2cc.Parser.Source
import Tp2cc.Parser.ExprFuel
import Tp2cc.Parser.ExprClean
import Tp2cc.Parser.ConstValue
import Tp2cc.Parser.SimpleType
import Tp2cc.Machine.Layout
import Tp2cc.Types.RecordLayout
import Tp2cc.Analysis.EnumStorage
import Tp2cc.Emit.UnaryNest
import Tp2cc.Machine.CxxPrefix
import Tp2cc.Emit.SetLiteral
import Tp2cc.Machine.Effect
import Tp2cc.Stmts.CaseStatement
import Tp2cc.Stmts.NewDispose
import Tp2cc.Machine.Real
import Tp2cc.Runtime.RangeCheck
import Tp2cc.Stmts.ExitValue
import Tp2cc.Machine.Jump
import Tp2cc.Analysis.SetType
import Tp2cc.Stmts.ForIn
import Tp2cc.Stmts.ForInLaw
import Tp2cc.Emit.StringLiteral
import Tp2cc.Runtime.ShortStringInsert
import Tp2cc.Emit.Makefile
import Tp2cc.Units.TypeMentions
import Tp2cc.Units.TypeDecls
import Tp2cc.Machine.RowMajor
import Tp2cc.Emit.ArrayIndex
import Tp2cc.Machine.Shift
import Tp2cc.Analysis.ConstShift
import Tp2cc.Analysis.StepFold
import Tp2cc.Analysis.StepCarrier
import Tp2cc.Analysis.StepFoldLaw
import Tp2cc.Graph.Comparison
import Tp2cc.Graph.Settling
import Tp2cc.Types.Registry
import Tp2cc.Types.SignatureMatch
import Tp2cc.Types.SignatureLaw
import Tp2cc.Analysis.SameType
import Tp2cc.Analysis.SameTypeLaw
import Tp2cc.Calendar.Gregorian
import Tp2cc.Runtime.CivilDate
import Tp2cc.Machine.Numeral
import Tp2cc.Runtime.DosTime
import Tp2cc.Analysis.CanonicalType
import Tp2cc.Analysis.ConstantOrder
import Tp2cc.Lexer.Scan
import Tp2cc.Lexer.Next
import Tp2cc.Lexer.Integer
import Tp2cc.Lexer.Comment
import Tp2cc.Lexer.Passage
import Tp2cc.Lexer.IfGrammar
import Tp2cc.Lexer.IfLaw
import Tp2cc.Lexer.IfComplete
import Tp2cc.Lexer.IfUnique
import Tp2cc.Lexer.IfMeets
import Tp2cc.Lexer.IfFails
import Tp2cc.Machine.Narrowing
import Tp2cc.Analysis.CastChain
import Tp2cc.Analysis.LowHigh
import Tp2cc.Runtime.CarrierLaw
import Tp2cc.Runtime.Currency
import Tp2cc.Runtime.OctStr
import Tp2cc.Runtime.StringIndex
import Tp2cc.Graph.ParentChain
import Tp2cc.Runtime.StringIndexLaw
import Tp2cc.Types.ClassChain
import Tp2cc.Analysis.SetOperation
import Tp2cc.Analysis.SetOperationLaw
import Tp2cc.Parsing.Components
import Tp2cc.Runtime.FExpand
import Tp2cc.Runtime.SplitPath
import Tp2cc.Runtime.CommandLine
import Tp2cc.Emit.HelperName
import Tp2cc.Parsing.Readable
import Tp2cc.Emit.HelperNameLaw
import Tp2cc.Analysis.EnumOrdinals
import Tp2cc.Analysis.EnumFolder
import Tp2cc.Analysis.EnumOrdinalsLaw
import Tp2cc.Machine.Unwind
import Tp2cc.Stmts.TryStatement
import Tp2cc.Stmts.TryStatementLaw
import Tp2cc.Units.Discovery
import Tp2cc.Units.DiscoveryState
import Tp2cc.Units.DiscoveryLaw
import Tp2cc.Units.DiscoveryOutcome
import Tp2cc.Machine.SharedHeap
import Tp2cc.Runtime.DynArray
import Tp2cc.Runtime.DynArrayLaw
import Tp2cc.Runtime.DynArrayRun
