import Calculator.Expr.OfPostfix
import Calculator.Postfix.Value
import Calculator.Proofs.Machine

/-!
Queues and expressions. Computing the postfix order of an expression computes the expression, and
building a tree from it gives the expression back unless it has too many levels; and a queue that
has a value, or that a tree is built from, is the postfix order of an expression.
-/

namespace Calculator

namespace Postfix

/-- The machine with values on its stack. -/
def machine : Machine Float Float where
  number x := x
  binary op a b := .ok (op.apply a b)
  apply f a := f.apply a
  result x := x

theorem step_eq_machine_step : step = machine.step := by
  funext stack t
  cases t with
  | binary op =>
      match stack with
      | [] | [_] | _ :: _ :: _ => rfl
  | func f => cases stack <;> rfl
  | number _ | leftParen | rightParen => rfl

/-- A function alone refuses its operand, and for nothing but its domain. -/
theorem eq_func_of_refuses {t : Token} {fault : Fault} (h : machine.Refuses t fault) :
    ∃ f, t = .func f ∧ fault = .outsideDomain f := by
  cases t with
  | binary op =>
      obtain ⟨_, _, h⟩ := h
      cases h
  | func f =>
      obtain ⟨a, h⟩ := h
      exact ⟨f, rfl, (Func.apply_eq_error_iff.mp h).2⟩
  | number _ | leftParen | rightParen => cases h

theorem valueOn_eq_computeOn (stack : List Float) (ts : List Token) :
    valueOn stack ts = machine.computeOn stack ts := by
  induction ts generalizing stack with
  | nil =>
      match stack with
      | [] | [_] | _ :: _ :: _ => rfl
  | cons t ts ih =>
      rw [valueOn, Machine.computeOn_cons, step_eq_machine_step]
      cases machine.step stack t with
      | error fault => rfl
      | ok next => exact ih next

theorem fold_machine (e : Expr) : machine.fold e = e.value := by
  induction e with
  | number x => rfl
  | binary op l r ihl ihr =>
      rw [Machine.fold, ihl, ihr]
      rfl
  | apply f argument ih =>
      rw [Machine.fold, ih]
      rfl

theorem value_postorder (e : Expr) : value e.postorder = e.value := by
  rw [value, valueOn_eq_computeOn, ← Machine.compute, Machine.compute_postorder, fold_machine]
  cases e.value <;> rfl

/-- A queue has a value exactly if it is the postfix order of an expression that has it. -/
theorem value_eq_ok_iff {ts : List Token} {x : Float} :
    value ts = .ok x ↔ ∃ e : Expr, ts = e.postorder ∧ e.value = .ok x := by
  rw [value, valueOn_eq_computeOn, ← Machine.compute, Machine.compute_eq_ok_iff]
  simp only [fold_machine]
  constructor
  · rintro ⟨e, horder, he⟩
    obtain ⟨y, hy, rfl⟩ := Fault.exists_of_map_eq_ok he
    exact ⟨e, horder, hy⟩
  · rintro ⟨e, horder, he⟩
    exact ⟨e, horder, by rw [he]; rfl⟩

end Postfix

namespace Expr

/-- The machine that puts an expression together again, whatever its number of levels. -/
def assembly : Machine Expr Expr where
  number := number
  binary op left right := .ok (binary op left right)
  apply f argument := .ok (apply f argument)
  result e := e

theorem fold_assembly (e : Expr) : assembly.fold e = .ok e := by
  induction e with
  | number x => rfl
  | binary op l r ihl ihr =>
      rw [Machine.fold, ihl, ihr]
      rfl
  | apply f argument ih =>
      rw [Machine.fold, ih]
      rfl

theorem postorder_injective {e e' : Expr} (h : e.postorder = e'.postorder) : e = e' := by
  have hqueue := assembly.compute_postorder e
  rw [h, assembly.compute_postorder, fold_assembly, fold_assembly] at hqueue
  exact (Except.ok.inj hqueue).symm

/-- The functions of an expression with their arguments, in the order in which they are applied. -/
def applications : Expr → List (Func × Expr)
  | number _ => []
  | binary _ left right => left.applications ++ right.applications
  | apply f argument => argument.applications ++ [(f, argument)]

/-- The argument has a value, and that lies in the domain of the function. -/
def Succeeds (application : Func × Expr) : Prop :=
  ∃ x, application.2.value = .ok x ∧ application.1.excludes x = false

/-- The argument has a value, but that lies outside the domain of the function. -/
def Fails (application : Func × Expr) : Prop :=
  ∃ x, application.2.value = .ok x ∧ application.1.excludes x = true

theorem succeeds_of_value {e : Expr} {x : Float} (h : e.value = .ok x) :
    ∀ application ∈ e.applications, Succeeds application := by
  induction e generalizing x with
  | number y =>
      intro application hmem
      cases hmem
  | binary op l r ihl ihr =>
      intro application hmem
      cases hl : l.value with
      | error fault => simp [value, hl, bind, Except.bind] at h
      | ok a =>
          cases hr : r.value with
          | error fault => simp [value, hl, hr, bind, Except.bind] at h
          | ok b =>
              rcases List.mem_append.mp hmem with hmem | hmem
              · exact ihl hl application hmem
              · exact ihr hr application hmem
  | apply f argument ih =>
      intro application hmem
      cases ha : argument.value with
      | error fault => simp [value, ha, bind, Except.bind] at h
      | ok a =>
          rcases List.mem_append.mp hmem with hmem | hmem
          · exact ih ha application hmem
          · rw [List.mem_singleton.mp hmem]
            refine ⟨a, ha, ?_⟩
            cases hf : f.excludes a with
            | false => rfl
            | true => simp [value, ha, bind, Except.bind, Func.apply, hf] at h

/-- An expression without a value fails at the first function that is applied outside its domain:
those applied before it succeed, and the fault names it. -/
theorem exists_first_failure {e : Expr} {fault : Fault} (h : e.value = .error fault) :
    ∃ before f argument after, e.applications = before ++ (f, argument) :: after ∧
      (∀ application ∈ before, Succeeds application) ∧ Fails (f, argument) ∧
      fault = .outsideDomain f := by
  induction e with
  | number x => cases h
  | binary op l r ihl ihr =>
      cases hl : l.value with
      | error other =>
          obtain rfl : other = fault := by simpa [value, hl, bind, Except.bind] using h
          obtain ⟨before, f, argument, after, hsplit, hbefore, hfails, hfault⟩ := ihl hl
          refine ⟨before, f, argument, after ++ r.applications, ?_, hbefore, hfails, hfault⟩
          simp [applications, hsplit]
      | ok a =>
          cases hr : r.value with
          | error other =>
              obtain rfl : other = fault := by simpa [value, hl, hr, bind, Except.bind] using h
              obtain ⟨before, f, argument, after, hsplit, hbefore, hfails, hfault⟩ := ihr hr
              refine ⟨l.applications ++ before, f, argument, after, ?_, ?_, hfails, hfault⟩
              · simp [applications, hsplit]
              · intro application hmem
                rcases List.mem_append.mp hmem with hmem | hmem
                · exact succeeds_of_value hl application hmem
                · exact hbefore application hmem
          | ok b => simp [value, hl, hr, bind, Except.bind, pure, Except.pure] at h
  | apply f argument ih =>
      cases ha : argument.value with
      | error other =>
          obtain rfl : other = fault := by simpa [value, ha, bind, Except.bind] using h
          obtain ⟨before, g, inner, after, hsplit, hbefore, hfails, hfault⟩ := ih ha
          refine ⟨before, g, inner, after ++ [(f, argument)], ?_, hbefore, hfails, hfault⟩
          simp [applications, hsplit]
      | ok a =>
          have happly : f.apply a = .error fault := by
            simpa [value, ha, bind, Except.bind] using h
          obtain ⟨hexcludes, hfault⟩ := Func.apply_eq_error_iff.mp happly
          exact ⟨argument.applications, f, argument, [], rfl, succeeds_of_value ha,
            ⟨a, ha, hexcludes⟩, hfault⟩

/-- The machine with trees on its stack. -/
def machine : Machine Measured Expr where
  number := .number
  binary op left right := (Measured.binary op left right).bounded
  apply f argument := (Measured.apply f argument).bounded
  result := Measured.expr

theorem step_eq_machine_step : step = machine.step := by
  funext stack t
  cases t with
  | binary op =>
      match stack with
      | [] | [_] | _ :: _ :: _ => rfl
  | func f => cases stack <;> rfl
  | number _ | leftParen | rightParen => rfl

theorem ofPostfixOn_eq_computeOn (stack : List Measured) (ts : List Token) :
    ofPostfixOn stack ts = machine.computeOn stack ts := by
  induction ts generalizing stack with
  | nil =>
      match stack with
      | [] | [_] | _ :: _ :: _ => rfl
  | cons t ts ih =>
      rw [ofPostfixOn, Machine.computeOn_cons, step_eq_machine_step]
      cases machine.step stack t with
      | error fault => rfl
      | ok next => exact ih next

theorem Measured.bounded_eq_ok {m n : Measured} (h : m.bounded = .ok n) : n = m := by
  unfold bounded at h
  split at h
  · cases h
  · exact (Except.ok.inj h).symm

theorem Measured.eq_of_bounded_eq_error {m : Measured} {fault : Fault}
    (h : m.bounded = .error fault) : fault = .tooDeeplyNested levelLimit := by
  unfold bounded at h
  split at h
  · exact (Except.error.inj h).symm
  · cases h

/-- Operands are refused for the number of levels alone. -/
theorem eq_of_refuses {t : Token} {fault : Fault} (h : machine.Refuses t fault) :
    fault = .tooDeeplyNested levelLimit := by
  cases t with
  | binary op =>
      obtain ⟨_, _, h⟩ := h
      exact Measured.eq_of_bounded_eq_error h
  | func f =>
      obtain ⟨_, h⟩ := h
      exact Measured.eq_of_bounded_eq_error h
  | number _ | leftParen | rightParen => cases h

/-- An expression with its own number of levels. -/
def measured (e : Expr) : Measured := ⟨e, e.levels, rfl⟩

theorem bounded_measured (e : Expr) :
    e.measured.bounded =
      if e.levels ≤ levelLimit then .ok e.measured else .error (.tooDeeplyNested levelLimit) := by
  by_cases h : e.levels ≤ levelLimit
  · rw [if_pos h]
    exact if_neg (Nat.not_lt.mpr h)
  · rw [if_neg h]
    exact if_pos (Nat.not_le.mp h)

/-- The tree of an expression is the expression, unless that has too many levels: then it is
refused, at its first part that has. -/
theorem fold_machine (e : Expr) :
    machine.fold e =
      if e.levels ≤ levelLimit then .ok e.measured else .error (.tooDeeplyNested levelLimit) := by
  induction e with
  | number x => rfl
  | binary op l r ihl ihr =>
      rw [Machine.fold, ihl, ihr]
      by_cases hl : l.levels ≤ levelLimit
      · by_cases hr : r.levels ≤ levelLimit
        · rw [if_pos hl, if_pos hr]
          exact bounded_measured (binary op l r)
        · have hlevels : ¬(binary op l r).levels ≤ levelLimit := by rw [levels]; omega
          rw [if_pos hl, if_neg hr, if_neg hlevels]
          rfl
      · have hlevels : ¬(binary op l r).levels ≤ levelLimit := by rw [levels]; omega
        rw [if_neg hl, if_neg hlevels]
        rfl
  | apply f argument ih =>
      rw [Machine.fold, ih]
      by_cases ha : argument.levels ≤ levelLimit
      · rw [if_pos ha]
        exact bounded_measured (apply f argument)
      · have hlevels : ¬(apply f argument).levels ≤ levelLimit := by rw [levels]; omega
        rw [if_neg ha, if_neg hlevels]
        rfl

theorem ofPostfix_postorder (e : Expr) :
    ofPostfix e.postorder =
      if e.levels ≤ levelLimit then .ok e else .error (.tooDeeplyNested levelLimit) := by
  rw [ofPostfix, ofPostfixOn_eq_computeOn, ← Machine.compute, Machine.compute_postorder,
    fold_machine]
  split <;> rfl

/-- The only queue that a tree is built from is its own postfix order. -/
theorem eq_postorder_of_ofPostfix {ts : List Token} {e : Expr} (h : ofPostfix ts = .ok e) :
    ts = e.postorder := by
  rw [ofPostfix, ofPostfixOn_eq_computeOn, ← Machine.compute, Machine.compute_eq_ok_iff] at h
  obtain ⟨e', horder, he'⟩ := h
  rw [fold_machine] at he'
  split at he'
  · obtain rfl : e' = e := Except.ok.inj he'
    exact horder
  · cases he'

/-- A tree is built from its own postfix order and from nothing else, if it has at most 256 levels;
of a tree with more levels the postfix order is refused for their number, whatever its shape. -/
theorem ofPostfix_eq_ok_iff (ts : List Token) (e : Expr) :
    (ofPostfix ts = .ok e ↔ ts = e.postorder ∧ e.levels ≤ 256) ∧
      (ofPostfix e.postorder = .error (.tooDeeplyNested 256) ↔ 256 < e.levels) := by
  have horder := ofPostfix_postorder e
  rw [levelLimit] at horder
  refine ⟨⟨?_, ?_⟩, ?_⟩
  · intro h
    obtain rfl := eq_postorder_of_ofPostfix h
    rw [horder] at h
    split at h
    · next hlevels => exact ⟨rfl, hlevels⟩
    · cases h
  · rintro ⟨rfl, hlevels⟩
    rw [horder, if_pos hlevels]
  · rw [horder, ← Nat.not_le]
    by_cases hlevels : e.levels ≤ 256 <;> simp [hlevels]

end Expr

end Calculator
