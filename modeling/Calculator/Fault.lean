import Calculator.Operator

/-!
What can be wrong with a formula, by cause, and the message for each cause.
-/

namespace Calculator

/-- Why a formula has no value. -/
inductive Fault where
  | invalidCharacter (c : Char)
  /-- Digits and points that are no finite number. -/
  | invalidNumber (literal : String)
  | unknownFunction (name : String)
  | missingOpen
  | missingClose
  | notEnoughOperands
  | tooManyOperands
  | outsideDomain (f : Func)
  /-- A tree would have more levels than allowed. -/
  | tooDeeplyNested (limit : Nat)
  /-- A parenthesis in a queue that has to be free of them. -/
  | strayParenthesis
  deriving DecidableEq

namespace Fault

def message : Fault → String
  | invalidCharacter c => "Invalid character: " ++ String.singleton c
  | invalidNumber literal => "Invalid number: " ++ literal
  | unknownFunction name => "Unknown function: " ++ name
  | missingOpen => "Mismatched parentheses: missing opening parenthesis"
  | missingClose => "Mismatched parentheses: missing closing parenthesis"
  | notEnoughOperands => "Invalid expression: not enough operands"
  | tooManyOperands => "Invalid expression: too many operands"
  | outsideDomain f => "Numerical argument is out of domain - \"" ++ f.name ++ "\""
  | tooDeeplyNested limit => "Expression nests deeper than " ++ limit.repr ++ " levels"
  | strayParenthesis => "There should not be any parenthesis present in the input"

theorem exists_of_map_eq_ok {α β : Type} {x : Except Fault α} {f : α → β} {b : β}
    (h : x.map f = .ok b) : ∃ a, x = .ok a ∧ f a = b := by
  cases x with
  | error fault => cases h
  | ok a => exact ⟨a, rfl, Except.ok.inj h⟩

theorem map_eq_error {α β : Type} {x : Except Fault α} {f : α → β} {fault : Fault} :
    x.map f = .error fault ↔ x = .error fault := by
  cases x with
  | error other => simp [Except.map]
  | ok a => simp [Except.map]

theorem exists_of_bind_eq_ok {α β : Type} {x : Except Fault α} {f : α → Except Fault β} {b : β}
    (h : x.bind f = .ok b) : ∃ a, x = .ok a ∧ f a = .ok b := by
  cases x with
  | error fault => cases h
  | ok a => exact ⟨a, rfl, h⟩

end Fault

end Calculator
