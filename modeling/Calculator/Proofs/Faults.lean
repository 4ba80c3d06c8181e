import Calculator.Proofs.Reordering
import Calculator.Proofs.Meaning

/-!
What can be wrong at each stage. Scanning, reordering and computing fail with faults of their own,
and a stage that fails ends all that comes after it. So the fault says which stage it comes from,
and an answer about a text can only blame the stages that it goes through.
-/

namespace Calculator

namespace Fault

/-- A fault of the characters. -/
inductive OfText : Fault → Prop where
  | invalidCharacter (c : Char) : OfText (.invalidCharacter c)
  | invalidNumber (literal : String) : OfText (.invalidNumber literal)
  | unknownFunction (name : String) : OfText (.unknownFunction name)

/-- A fault of the parentheses. -/
inductive OfParentheses : Fault → Prop where
  | missingOpen : OfParentheses .missingOpen
  | missingClose : OfParentheses .missingClose

/-- A fault of a queue. -/
inductive OfQueue (ts : List Token) : Fault → Prop where
  | notEnoughOperands : OfQueue ts .notEnoughOperands
  | tooManyOperands : OfQueue ts .tooManyOperands
  | outsideDomain (f : Func) : OfQueue ts (.outsideDomain f)
  | tooDeeplyNested (limit : Nat) : OfQueue ts (.tooDeeplyNested limit)
  | strayParenthesis {t : Token} :
      t ∈ ts → t.isParenthesis = true → OfQueue ts .strayParenthesis

theorem OfQueue.mono {ts us : List Token} {fault : Fault} (h : OfQueue ts fault) (hsub : ts ⊆ us) :
    OfQueue us fault := by
  cases h with
  | notEnoughOperands => exact .notEnoughOperands
  | tooManyOperands => exact .tooManyOperands
  | outsideDomain f => exact .outsideDomain f
  | tooDeeplyNested limit => exact .tooDeeplyNested limit
  | strayParenthesis hmem hparen => exact .strayParenthesis (hsub hmem) hparen

end Fault

namespace Token

theorem ofText_of_first {afterNumber : Bool} {c : Char} {cs : List Char} {fault : Fault}
    (h : first afterNumber c cs = .error fault) : fault.OfText := by
  cases start afterNumber c with
  | literal hliteral =>
      rw [first_literal hliteral, Fault.map_eq_error, ofLiteral] at h
      split at h
      · cases h
      · exact Except.error.inj h ▸ .invalidNumber _
  | name hletter =>
      rw [first_name hletter, Fault.map_eq_error, ofName] at h
      split at h
      · cases h
      · exact Except.error.inj h ▸ .unknownFunction _
  | leftParen | rightParen => cases h
  | symbol op hop =>
      rw [first_symbol afterNumber op hop] at h
      cases h
  | nothing hnothing =>
      rw [first_nothing hnothing] at h
      exact Except.error.inj h ▸ .invalidCharacter c

theorem ofText_of_scanAfter {afterNumber : Bool} {cs : List Char} {fault : Fault}
    (h : scanAfter afterNumber cs = .error fault) : fault.OfText := by
  fun_induction scanAfter afterNumber cs with
  | case1 => cases h
  | case2 afterNumber c cs hblank ih => exact ih h
  | case3 afterNumber c cs hblank other hfirst =>
      obtain rfl := Except.error.inj h
      exact ofText_of_first hfirst
  | case4 afterNumber c cs hblank t rest hfirst hlength ih => exact ih (Fault.map_eq_error.mp h)

end Token

namespace Postfix

theorem Yard.ofParentheses_of_feed {yard : Yard} {t : Token} {fault : Fault}
    (h : yard.feed t = .error fault) : fault.OfParentheses := by
  cases t with
  | number _ | binary _ | func _ | leftParen => cases h
  | rightParen =>
      rw [feed] at h
      split at h
      · exact Except.error.inj h ▸ .missingOpen
      · cases h

theorem Yard.ofParentheses_of_drain {yard : Yard} {ts : List Token} {fault : Fault}
    (h : yard.drain ts = .error fault) : fault.OfParentheses := by
  induction ts generalizing yard with
  | nil =>
      rw [drain, close] at h
      split at h
      · cases h
      · exact Except.error.inj h ▸ .missingClose
  | cons t ts ih =>
      rw [drain] at h
      cases hfeed : yard.feed t with
      | error other =>
          rw [hfeed] at h
          obtain rfl := Except.error.inj h
          exact ofParentheses_of_feed hfeed
      | ok fed =>
          rw [hfeed] at h
          exact ih (Fault.map_eq_error.mp h)

end Postfix

namespace Machine

variable {α β : Type} {m : Machine α β} {stack : List α} {ts : List Token} {fault : Fault}

theorem ofQueue_of_step {t : Token} (hrefuses : m.Refuses t fault → fault.OfQueue [t])
    (h : m.step stack t = .error fault) : fault.OfQueue [t] := by
  cases t with
  | number x => cases h
  | binary op =>
      rcases stack with _ | ⟨b, _ | ⟨a, rest⟩⟩
      · exact Except.error.inj h ▸ .notEnoughOperands
      · exact Except.error.inj h ▸ .notEnoughOperands
      · exact hrefuses ⟨a, b, Fault.map_eq_error.mp h⟩
  | func f =>
      cases stack with
      | nil => exact Except.error.inj h ▸ .notEnoughOperands
      | cons a rest => exact hrefuses ⟨a, Fault.map_eq_error.mp h⟩
  | leftParen | rightParen =>
      exact Except.error.inj h ▸ .strayParenthesis (List.mem_singleton_self _) rfl

/-- By induction on the queue: a machine whose operations refuse operands with faults of a queue has
no other faults. -/
theorem ofQueue_of_computeOn (hrefuses : ∀ t fault, m.Refuses t fault → fault.OfQueue [t])
    (h : m.computeOn stack ts = .error fault) : fault.OfQueue ts := by
  induction ts generalizing stack with
  | nil =>
      rcases stack with _ | ⟨a, _ | ⟨b, rest⟩⟩
      · exact Except.error.inj h ▸ .tooManyOperands
      · cases h
      · exact Except.error.inj h ▸ .tooManyOperands
  | cons t ts ih =>
      rw [computeOn_cons] at h
      cases hstep : m.step stack t with
      | error other =>
          rw [hstep] at h
          obtain rfl := Except.error.inj h
          exact (ofQueue_of_step (hrefuses t other) hstep).mono (by simp)
      | ok next =>
          rw [hstep] at h
          exact (ih h).mono (List.subset_cons_self t ts)

end Machine

theorem Postfix.ofQueue_of_valueOn {stack : List Float} {ts : List Token} {fault : Fault}
    (h : valueOn stack ts = .error fault) : fault.OfQueue ts := by
  rw [valueOn_eq_computeOn] at h
  refine Machine.ofQueue_of_computeOn ?_ h
  intro t other hrefuses
  obtain ⟨f, _, rfl⟩ := eq_func_of_refuses hrefuses
  exact .outsideDomain f

theorem Expr.ofQueue_of_ofPostfixOn {stack : List Measured} {ts : List Token} {fault : Fault}
    (h : ofPostfixOn stack ts = .error fault) : fault.OfQueue ts := by
  rw [ofPostfixOn_eq_computeOn] at h
  refine Machine.ofQueue_of_computeOn ?_ h
  intro t other hrefuses
  exact eq_of_refuses hrefuses ▸ .tooDeeplyNested levelLimit

namespace Formula

theorem fault_of_queue {text : String} {fault : Fault} (h : queue text = .error fault) :
    fault.OfText ∨ fault.OfParentheses := by
  unfold queue at h
  split at h
  · cases h
  · cases htokens : tokens text with
    | error other =>
        rw [htokens] at h
        obtain rfl := Except.error.inj h
        exact .inl (Token.ofText_of_scanAfter htokens)
    | ok ts =>
        rw [htokens] at h
        exact .inr (Postfix.Yard.ofParentheses_of_drain h)

theorem plainText_eq_bind_queue (text : String) :
    plainText text = (queue text).bind fun queued =>
      (Expr.ofPostfix queued).map fun e => Token.formulaText e.formula := by
  have htree : plainText text =
      ((queue text).bind Expr.ofPostfix).bind fun e => .ok (Token.formulaText e.formula) := rfl
  rw [htree]
  cases queue text with
  | error fault => rfl
  | ok queued => cases Expr.ofPostfix queued <;> rfl

end Formula

end Calculator
