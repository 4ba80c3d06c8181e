/-!
The operators of a formula: five binary operators, written between their operands, and six
functions, written before their argument. Precedence and associativity say how a formula without
parentheses is grouped.
-/

namespace Calculator

inductive Side where
  | left
  | right
  deriving DecidableEq

inductive BinaryOp where
  | add
  | subtract
  | multiply
  | divide
  | power
  deriving DecidableEq

inductive Func where
  | sqrt
  | sin
  | cos
  | tan
  | log
  | abs
  deriving DecidableEq

namespace BinaryOp

def all : List BinaryOp := [add, subtract, multiply, divide, power]

def symbol : BinaryOp → Char
  | add => '+'
  | subtract => '-'
  | multiply => '*'
  | divide => '/'
  | power => '^'

def ofSymbol? (c : Char) : Option BinaryOp := all.find? (·.symbol == c)

def precedence : BinaryOp → Nat
  | add | subtract => 1
  | multiply | divide => 2
  | power => 3

/-- The side towards which operators of one precedence are grouped: `1 - 2 - 3` is `(1 - 2) - 3`,
while `1 ^ 2 ^ 3` is `1 ^ (2 ^ 3)`. -/
def associativity : BinaryOp → Side
  | add | subtract | multiply | divide => .left
  | power => .right

@[simp]
theorem ofSymbol?_symbol (op : BinaryOp) : ofSymbol? op.symbol = some op := by
  cases op <;> decide

theorem ofSymbol?_eq_some_iff {c : Char} {op : BinaryOp} :
    ofSymbol? c = some op ↔ c = op.symbol := by
  constructor
  · intro h
    have := List.find?_some h
    exact (beq_iff_eq.mp this).symm
  · rintro rfl
    exact ofSymbol?_symbol op

end BinaryOp

namespace Func

def all : List Func := [sqrt, sin, cos, tan, log, abs]

def name : Func → String
  | sqrt => "sqrt"
  | sin => "sin"
  | cos => "cos"
  | tan => "tan"
  | log => "log"
  | abs => "abs"

/-- The function of a name. Names are lower case. -/
def ofName? (name : String) : Option Func := all.find? (·.name == name)

@[simp]
theorem ofName?_name (f : Func) : ofName? f.name = some f := by
  cases f <;> decide

theorem ofName?_eq_some_iff {name : String} {f : Func} :
    ofName? name = some f ↔ name = f.name := by
  constructor
  · intro h
    have := List.find?_some h
    exact (beq_iff_eq.mp this).symm
  · rintro rfl
    exact ofName?_name f

end Func

end Calculator
