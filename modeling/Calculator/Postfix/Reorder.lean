import Calculator.Fault
import Calculator.Token

/-!
Bringing the tokens of a formula into postfix order. Numbers pass straight to the queue. Operators
and functions wait until their operands have passed: a function yields to every binary operator, a
binary operator to one that holds its operands less tightly, and between two of one precedence the
side of associativity decides. Each open parenthesis starts a stretch of its own, and closing it
lets everything in that stretch pass.
-/

namespace Calculator.Postfix

/-- What waits for its operands. -/
inductive Operation where
  | binary (op : BinaryOp)
  | func (f : Func)
  deriving DecidableEq

namespace Operation

def token : Operation → Token
  | binary op => .binary op
  | func f => .func f

/-- Whether a waiting operation passes before the binary operator `op` starts to wait. -/
def yieldsTo (op : BinaryOp) : Operation → Bool
  | func _ => true
  | binary other =>
    op.precedence < other.precedence ||
      (op.precedence == other.precedence && op.associativity == .left)

end Operation

/-- The operations that wait, the last one first: those of the innermost open parenthesis, and then
those around each open parenthesis from the inside outwards. -/
structure Yard where
  inner : List Operation
  outer : List (List Operation)
  deriving DecidableEq

namespace Yard

def empty : Yard := ⟨[], []⟩

/-- Takes one token: what passes to the queue, and what waits now. -/
def feed (yard : Yard) : Token → Except Fault (List Token × Yard)
  | .number x => .ok ([.number x], yard)
  | .func f => .ok ([], ⟨.func f :: yard.inner, yard.outer⟩)
  | .binary op =>
    .ok ((yard.inner.takeWhile (·.yieldsTo op)).map Operation.token,
      ⟨.binary op :: yard.inner.dropWhile (·.yieldsTo op), yard.outer⟩)
  | .leftParen => .ok ([], ⟨[], yard.inner :: yard.outer⟩)
  | .rightParen =>
    match yard.outer with
    | [] => .error .missingOpen
    | around :: outer => .ok (yard.inner.map Operation.token, ⟨around, outer⟩)

/-- Lets everything pass, if no parenthesis is open. -/
def close (yard : Yard) : Except Fault (List Token) :=
  match yard.outer with
  | [] => .ok (yard.inner.map Operation.token)
  | _ :: _ => .error .missingClose

/-- What passes while the tokens are taken one by one and then the yard is closed. -/
def drain (yard : Yard) : List Token → Except Fault (List Token)
  | [] => yard.close
  | t :: ts =>
    match yard.feed t with
    | .error fault => .error fault
    | .ok (passed, yard) => (yard.drain ts).map (passed ++ ·)

/-- The tokens on the stack, the last one first, as they would be written: each open parenthesis
lies between the operations behind it and those before it. -/
def tokens (yard : Yard) : List Token :=
  yard.inner.map Operation.token ++
    yard.outer.flatMap fun around => .leftParen :: around.map Operation.token

end Yard

/-- The tokens of a formula in postfix order. -/
def ofFormula (ts : List Token) : Except Fault (List Token) := Yard.empty.drain ts

end Calculator.Postfix
