import Calx.Lib.Machine
import Calx.Lib.Loop
import Calx.Number.Basic
import Calx.Lexer
import Calx.Lexemes
import Calx.Instr
import Calx.Parser
import Calx.Syntax
import Calx.Code
import Calx.WellFormed
import Calx.Layout
import Calx.TreeLayout
import Calx.Emits
import Calx.ExprSound
import Calx.Compiles
import Calx.CloseScope
import Calx.FunSound
import Calx.AssignSound
import Calx.StmtSound
import Calx.ParseSound
import Calx.Flow
import Calx.TreeFlow
import Calx.Functions
import Calx.Discipline
import Calx.Scopes
import Calx.Exec
import Calx.ControlFlow
import Calx.Places
import Calx.ExecSound
import Calx.Stdlib.Ops
import Calx.Stdlib.Arith
import Calx.Stdlib.Prime
import Calx.Stdlib.Decimal
import Calx.Stdlib.Root
import Calx.Stdlib.Gcd
import Calx.Lib.Kronecker
import Calx.Stdlib.Jacobi
import Calx.Lib.Uniform
import Calx.Stdlib.Random
import Calx.Lib.Chain
import Calx.Xht.Basic
import Calx.Xht.Chains
import Calx.Xht.Invariant
import Calx.Xht.Removal
import Calx.Xht.Iteration
import Calx.Xht.Refines
import Calx.Wref.Basic
import Calx.Wref.Exact
import Calx.Lib.Positional
import Calx.Number.Libdeci
import Calx.Number.Ops
import Calx.Number.Value
import Calx.Number.Arith
import Calx.Number.Division
import Calx.Number.Rounding
import Calx.Number.Text
import Calx.Number.Parse
import Calx.Number.Radix
import Calx.Vm.Basic
import Calx.Vm.Call
import Calx.Vm.Frames
import Calx.Natives.Scale
import Calx.Number.Compare
import Calx.Lib.Rounding
import Calx.Lib.Refcount
import Calx.Number.Counted
import Calx.Number.Products
import Calx.Number.Laws
import Calx.Vm.Operators
import Calx.Vm.Arithmetic
import Calx.Vm.Bits
import Calx.Stdlib.Quotient
import Calx.Lib.Buffer
import Calx.Number.Printer
import Calx.Number.NumDigits
import Calx.Number.Numerals
import Calx.Number.Writer
import Calx.Number.Encode
import Calx.Natives.Decimal
import Calx.Stdlib.Operators
import Calx.Lib.Block
import Calx.Lib.Attempt
import Calx.Str.Basic
import Calx.Str.Append
import Calx.Str.Concat
import Calx.Str.Compare
import Calx.Str.Dict
import Calx.Vm.Alike
import Calx.Vm.Elements
import Calx.Str.Holders
import Calx.Str.Sharing
import Calx.Lib.Span
import Calx.Scanner
import Calx.Lexing
import Calx.Positions
import Calx.Number.Reader
import Calx.Number.Runs
import Calx.Lib.Search
import Calx.Traceback
import Calx.Stdlib.Binomial
import Calx.Vm.Globals
import Calx.Levels
import Calx.Quoted
import Calx.Semicolons
import Calx.Lib.Fallible
import Calx.Grouping
import Calx.ExprExact
import Calx.FunExact
import Calx.StmtExact
import Calx.ParseExact
import Calx.Limits
import Calx.Lib.Marks
import Calx.Regroup
import Calx.Line
import Calx.Delivers
import Calx.Precedence
import Calx.Documented
import Calx.ParserRule
import Calx.Vm.Print
import Calx.Vm.Machine
import Calx.Vm.Guarantees
import Calx.Vm.Store
import Calx.Vm.Effects
import Calx.Vm.Safety
import Calx.Lib.Stateful
import Calx.Natives.Table
import Calx.Natives.Sound
import Calx.Session
import Calx.Lib.Nondet
import Calx.Lib.Simulation
import Calx.Meaning
import Calx.Meaning.Activation
import Calx.Meaning.Calls
import Calx.Meaning.Exprs
import Calx.Meaning.Runs
import Calx.Meaning.Sources
