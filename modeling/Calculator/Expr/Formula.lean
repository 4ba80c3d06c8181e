import Calculator.Expr

/-!
Writing a tree as the tokens of a formula, with parentheses only where the grouping needs them: an
operand is parenthesised when it would otherwise be grouped another way, a function's argument when
it has an operator at its root.
-/

namespace Calculator.Expr

/-- Whether an operand with the operator `child` at its root needs parentheses on that side of
`parent`. -/
def needsParens (parent child : BinaryOp) (side : Side) : Bool :=
  child.precedence < parent.precedence ||
    (parent.precedence == child.precedence && side != parent.associativity)

def parensIf (needed : Bool) (ts : List Token) : List Token :=
  if needed then .leftParen :: ts ++ [.rightParen] else ts

def formula : Expr → List Token
  | number x => [.number x]
  | binary op left right =>
    parensIf (left.rootOp?.any (needsParens op · .left)) left.formula ++
      .binary op :: parensIf (right.rootOp?.any (needsParens op · .right)) right.formula
  | apply f argument => .func f :: parensIf argument.rootOp?.isSome argument.formula

end Calculator.Expr
