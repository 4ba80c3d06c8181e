import Calculator.Formula
import Calculator.Proofs.Queue
import Calculator.Proofs.Reordering
import Calculator.Proofs.Scanning
import Mathlib.Control.Monad.Basic

/-!
The value of a text. It is the value of the tree that is built from the text, where there is one,
and the value of the expression that its tokens derive.
-/

namespace Calculator.Formula

open Grammar

theorem value_eq_bind_queue (text : String) : value text = (queue text).bind Postfix.value := by
  unfold value
  split
  · next hblank =>
    rw [queue, if_pos hblank]
    rfl
  · rfl

/-- The tokens of a blank text are none. -/
theorem tokens_of_isBlank {text : String} (h : isBlank text = true) : tokens text = .ok [] :=
  Token.scanAfter_of_isBlankText h false

theorem value_of_tokens_error {text : String} {fault : Fault} (h : tokens text = .error fault) :
    value text = .error fault := by
  have hblank : isBlank text = false := by
    rw [Bool.eq_false_iff]
    intro hblank
    rw [tokens_of_isBlank hblank] at h
    cases h
  rw [value_eq_bind_queue, queue, hblank, h]
  rfl

theorem queue_of_tokens {text : String} {ts : List Token} (h : tokens text = .ok ts)
    (hne : ts ≠ []) : queue text = Postfix.ofFormula ts := by
  have hblank : isBlank text = false := by
    rw [Bool.eq_false_iff]
    intro hblank
    rw [tokens_of_isBlank hblank] at h
    exact hne (Except.ok.inj h).symm
  rw [queue, hblank, h]
  rfl

theorem value_of_queue_eq_postorder {text : String} {e : Expr}
    (h : queue text = .ok e.postorder) : value text = e.value := by
  rw [value_eq_bind_queue, h, Except.bind, Postfix.value_postorder]

/-- A text whose tokens derive an expression has its value, or fails at the first function of the
expression that is applied outside its domain. -/
theorem value_of_derives {ts : List Token} {e : Expr} (h : Derives .sum ts e) :
    Postfix.ofFormula ts = .ok e.postorder ∧
      ∀ text, tokens text = .ok ts →
        value text = e.value ∧
          ∀ fault, value text = .error fault →
            ∃ before f argument after, e.applications = before ++ (f, argument) :: after ∧
              (∀ application ∈ before, Expr.Succeeds application) ∧ Expr.Fails (f, argument) ∧
              fault = .outsideDomain f := by
  have horder := Postfix.ofFormula_of_derives h
  refine ⟨horder, ?_⟩
  intro text htokens
  have hqueue : queue text = .ok e.postorder := (queue_of_tokens htokens h.ne_nil).trans horder
  have hvalue := value_of_queue_eq_postorder hqueue
  refine ⟨hvalue, ?_⟩
  intro fault hfault
  exact Expr.exists_first_failure (hvalue.symm.trans hfault)

/-- The square root fails, before the logarithm does. -/
theorem value_of_derives_root_of_negative :
    value "7 - 2 - sqrt (1 - 5) * log -1" = .error (.outsideDomain .sqrt) := by
  have hone (c : Category) (x : Float) : Derives c [.number x] (.number x) :=
    (Derives.number x).lower c (by cases c <;> decide)
  have hroot : Derives .product [.func .sqrt, .leftParen, .number 1, .binary .subtract, .number 5,
      .rightParen] (.apply .sqrt (.binary .subtract (.number 1) (.number 5))) :=
    (Derives.apply .sqrt (.ofAtom (.group (.subtract (hone _ 1) (hone _ 5))))).lower _ (by decide)
  have hlog := (Derives.apply .log (hone .operand (-1))).lower .power (by decide)
  have h := value_of_derives (.subtract (.subtract (hone _ 7) (hone _ 2)) (.multiply hroot hlog))
  rw [(h.2 "7 - 2 - sqrt (1 - 5) * log -1" (by decide +kernel)).1]
  decide +kernel

end Calculator.Formula
