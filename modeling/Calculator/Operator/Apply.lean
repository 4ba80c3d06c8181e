import Calculator.Fault

/-!
What operators and functions compute on doubles.
-/

namespace Calculator

def BinaryOp.apply : BinaryOp → Float → Float → Float
  | add, a, b => a + b
  | subtract, a, b => a - b
  | multiply, a, b => a * b
  | divide, a, b => a / b
  | power, a, b => Float.pow a b

namespace Func

/-- Whether an argument lies outside the real domain. Minus zero does not, and neither does what is
not a number. -/
def excludes (f : Func) (x : Float) : Bool :=
  match f with
  | sqrt | log => x < 0
  | sin | cos | tan | abs => false

/-- The value at an argument of the domain; the logarithm of zero is minus infinity. -/
def value : Func → Float → Float
  | sqrt, x => x.sqrt
  | sin, x => x.sin
  | cos, x => x.cos
  | tan, x => x.tan
  | log, x => x.log
  | abs, x => x.abs

def apply (f : Func) (x : Float) : Except Fault Float :=
  if f.excludes x then .error (.outsideDomain f) else .ok (f.value x)

/-- Applying a function fails in no other way than by its domain. -/
theorem apply_eq_error_iff {f : Func} {x : Float} {fault : Fault} :
    f.apply x = .error fault ↔ f.excludes x = true ∧ fault = .outsideDomain f := by
  unfold apply
  by_cases h : f.excludes x = true
  · rw [if_pos h]
    exact ⟨fun e => ⟨h, (Except.error.inj e).symm⟩, fun ⟨_, e⟩ => e ▸ rfl⟩
  · rw [if_neg h]
    exact ⟨fun e => Except.noConfusion rfl rfl (heq_of_eq e), fun ⟨e, _⟩ => absurd e h⟩

end Func

end Calculator
