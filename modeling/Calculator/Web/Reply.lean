import Calculator.Formula
import Calculator.Json

/-!
What the calculator replies when it is asked over the web for the value of a formula: the formula
with its value, or what is wrong. JSON has no infinities, so a value that is not finite is wrong
too.
-/

namespace Calculator.Web

inductive Reply where
  | evaluated (expression : String) (result : Float)
  | refused (error : String)
  deriving DecidableEq

namespace Reply

/-- Whether a formula may contain a character: a letter or a digit, a blank of ASCII, a point, a
parenthesis or an operator. -/
def isAllowedChar (c : Char) : Bool :=
  c.isAlphanum || (0x09 ≤ c.toNat && c.toNat ≤ 0x0D) ||
    [' ', '.', '+', '-', '*', '/', '(', ')', '^'].contains c

/-- Whether a text is looked at as a formula at all. -/
def isAllowed (text : String) : Bool := !text.toList.isEmpty && text.toList.all isAllowedChar

/-- What is wrong with a value that JSON cannot hold. -/
def unrepresentable? (x : Float) : Option String :=
  if Number.isFinite x then none
  else if Number.isNaN x then some "NaN not allowed in JSON"
  else if Number.isNegative x then some "-Infinity not allowed in JSON"
  else some "Infinity not allowed in JSON"

/-- The reply to a formula, if there is one. -/
def ofExpression (expression : Option String) : Reply :=
  match expression with
  | none => refused "Invalid or missing expression"
  | some text =>
    if isAllowed text then
      match Formula.value text with
      | .error fault => refused ("Error evaluating expression: " ++ fault.message)
      | .ok x =>
        match unrepresentable? x with
        | some why => refused ("Error evaluating expression: " ++ why)
        | none => evaluated text x
    else refused "Invalid or missing expression"

def status : Reply → Nat
  | evaluated _ _ => 200
  | refused _ => 400

def json : Reply → Json
  | evaluated expression result =>
    .object [("expression", .string expression), ("result", .number result)]
  | refused error => .object [("error", .string error)]

def body (r : Reply) : String := r.json.text

end Reply

end Calculator.Web
