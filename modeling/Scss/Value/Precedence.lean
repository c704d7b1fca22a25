import Scss.Failure
import Scss.Value.Basic

/-!
# Precedence

A chain of operands and operators is read as a tree: operators of higher precedence bind tighter,
equal ones from left to right. What does not fit in the chain stays in the tree as a fault, so that
it is reported when its turn comes and not before what stands to the left of it.
-/

namespace Scss

/-- A chain of operators read as a tree over its operands. -/
inductive OperationTree (α : Type) where
  | operand (a : α)
  | fault (f : EvaluationFault)
  | unary (op : Operator) (inner : OperationTree α)
  | binary (op : Operator) (left right : OperationTree α)
  deriving Repr

namespace OperationTree

variable {α : Type}

/-- How messages name a piece of an expression. -/
def describe (text : α → String) : ExprToken α → String
  | .operand a => "'" ++ text a ++ "'"
  | .operator op => "operator '" ++ op.symbol ++ "'"
  | .blank => "whitespace"

/-- The operand at the front, with the signs before it, and what follows. -/
def readUnary (text : α → String) : List (ExprToken α) → OperationTree α × List (ExprToken α)
  | [] => (.fault .missingOperand, [])
  | .operand a :: rest => (.operand a, rest)
  | .operator op :: rest =>
    if op.canBeUnary then
      let (inner, behind) := readUnary text rest
      (.unary op inner, behind)
    else (.fault (.unexpectedInExpression (describe text (.operator op))), .operator op :: rest)
  | .blank :: rest => (.fault (.unexpectedInExpression (describe text .blank)), .blank :: rest)

/-- A chain whose left part is read already, continued by operators of at least the given precedence,
and what follows. `fuel` bounds the operators that can be read. -/
def extend (text : α → String) (least : Nat) :
    Nat → OperationTree α → List (ExprToken α) → OperationTree α × List (ExprToken α)
  | fuel + 1, left, .operator op :: rest =>
    if op = .not ∨ op.precedence < least then (left, .operator op :: rest)
    else
      let (next, behind) := readUnary text rest
      let (right, behind) := extend text (op.precedence + 1) fuel next behind
      extend text least fuel (.binary op left right) behind
  | _, left, tokens => (left, tokens)

/-- The tree of a chain without blanks, and the tokens that are left over. -/
def read (text : α → String) (tokens : List (ExprToken α)) :
    OperationTree α × List (ExprToken α) :=
  let (left, rest) := readUnary text tokens
  extend text 1 tokens.length left rest

end OperationTree

end Scss
