import Calculator.Operator.Apply
import Calculator.Token

/-!
Expressions as trees, with what is read off a tree by recursion: its value, its tokens in postfix
order, the number of its levels.
-/

namespace Calculator

inductive Expr where
  | number (value : Float)
  | binary (op : BinaryOp) (left right : Expr)
  | apply (f : Func) (argument : Expr)
  deriving DecidableEq

namespace Expr

def rootOp? : Expr → Option BinaryOp
  | binary op _ _ => some op
  | number _ | apply _ _ => none

/-- The value: the left operand is computed before the right one, and both before the operator. The
first function that is applied outside its domain ends the computation. -/
def value : Expr → Except Fault Float
  | number x => .ok x
  | binary op left right => do
    let a ← left.value
    let b ← right.value
    return op.apply a b
  | apply f argument => do
    let a ← argument.value
    f.apply a

def postorder : Expr → List Token
  | number x => [.number x]
  | binary op left right => left.postorder ++ right.postorder ++ [.binary op]
  | apply f argument => argument.postorder ++ [.func f]

/-- How many nodes the longest way from the root to a number has. -/
def levels : Expr → Nat
  | number _ => 1
  | binary _ left right => max left.levels right.levels + 1
  | apply _ argument => argument.levels + 1

/-- The nodes of the tree, each before what lies below it and left before right. -/
def preorder : Expr → List Expr
  | number x => [number x]
  | binary op left right => binary op left right :: (left.preorder ++ right.preorder)
  | apply f argument => apply f argument :: argument.preorder

end Expr

end Calculator
