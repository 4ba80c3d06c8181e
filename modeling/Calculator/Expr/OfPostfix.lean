import Calculator.Expr

/-!
Building the tree of a queue in postfix order. Trees wait on a stack as values do when a queue is
computed; each keeps the number of its levels, and no tree of more than `levelLimit` is built.
-/

namespace Calculator.Expr

def levelLimit : Nat := 256

/-- A tree that keeps the number of its levels. -/
structure Measured where
  expr : Expr
  levels : Nat
  levels_eq : levels = expr.levels

namespace Measured

def bounded (m : Measured) : Except Fault Measured :=
  if levelLimit < m.levels then .error (.tooDeeplyNested levelLimit) else .ok m

def number (x : Float) : Measured := ⟨.number x, 1, rfl⟩

def binary (op : BinaryOp) (left right : Measured) : Measured :=
  ⟨.binary op left.expr right.expr, max left.levels right.levels + 1, by
    rw [left.levels_eq, right.levels_eq, Expr.levels]⟩

def apply (f : Func) (argument : Measured) : Measured :=
  ⟨.apply f argument.expr, argument.levels + 1, by rw [argument.levels_eq, Expr.levels]⟩

end Measured

/-- Takes one token: the stack of trees after it, the last tree first. -/
def step (stack : List Measured) : Token → Except Fault (List Measured)
  | .number x => .ok (.number x :: stack)
  | .binary op =>
    match stack with
    | right :: left :: rest => (Measured.binary op left right).bounded.map (· :: rest)
    | _ => .error .notEnoughOperands
  | .func f =>
    match stack with
    | argument :: rest => (Measured.apply f argument).bounded.map (· :: rest)
    | [] => .error .notEnoughOperands
  | .leftParen | .rightParen => .error .strayParenthesis

/-- The tree of the queue on top of a stack of trees. -/
def ofPostfixOn (stack : List Measured) : List Token → Except Fault Expr
  | [] =>
    match stack with
    | [tree] => .ok tree.expr
    | _ => .error .tooManyOperands
  | t :: ts =>
    match step stack t with
    | .error fault => .error fault
    | .ok stack => ofPostfixOn stack ts

def ofPostfix (ts : List Token) : Except Fault Expr := ofPostfixOn [] ts

end Calculator.Expr
