import Calculator.Operator

/-!
The tokens of a formula.
-/

namespace Calculator

/-- A number, an operator, a function or a parenthesis. Tokens are equal when they are of one kind
and their numbers agree bit for bit. -/
inductive Token where
  | number (value : Float)
  | binary (op : BinaryOp)
  | func (f : Func)
  | leftParen
  | rightParen
  deriving DecidableEq

namespace Token

def isNumber : Token → Bool
  | number _ => true
  | binary _ | func _ | leftParen | rightParen => false

def isParenthesis : Token → Bool
  | leftParen | rightParen => true
  | number _ | binary _ | func _ => false

def endsInNumber (ts : List Token) : Bool := ts.getLast?.any isNumber

@[simp]
theorem endsInNumber_append_singleton (ts : List Token) (t : Token) :
    endsInNumber (ts ++ [t]) = t.isNumber := by
  simp [endsInNumber]

end Token

end Calculator
