import Calculator.Operator.Apply
import Calculator.Token

/-!
Computing a queue in postfix order. Values wait on a stack; an operator takes the last two, a
function the last one, and puts back what it computes. At the end one value has to be left.
-/

namespace Calculator.Postfix

/-- Takes one token: the stack of values after it, the last value first. -/
def step (stack : List Float) : Token → Except Fault (List Float)
  | .number x => .ok (x :: stack)
  | .binary op =>
    match stack with
    | b :: a :: rest => .ok (op.apply a b :: rest)
    | _ => .error .notEnoughOperands
  | .func f =>
    match stack with
    | a :: rest => (f.apply a).map (· :: rest)
    | [] => .error .notEnoughOperands
  | .leftParen | .rightParen => .error .strayParenthesis

/-- The value of the queue on top of a stack of values. -/
def valueOn (stack : List Float) : List Token → Except Fault Float
  | [] =>
    match stack with
    | [x] => .ok x
    | _ => .error .tooManyOperands
  | t :: ts =>
    match step stack t with
    | .error fault => .error fault
    | .ok stack => valueOn stack ts

def value (ts : List Token) : Except Fault Float := valueOn [] ts

end Calculator.Postfix
