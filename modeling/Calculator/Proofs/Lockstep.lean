import Calculator.Proofs.Meaning
import Mathlib.Data.List.Forall2

/-!
Computing a queue and building its tree, token by token. The two keep in step: as long as both go
on, the values that wait are those of the trees that wait. Building alone can stop at a tree of too
many levels, and computing alone at a function outside its domain; whatever else is wrong with a
queue stops both at the same token.
-/

namespace Calculator

open Calculator.Expr (Measured)

/-- The trees that wait have the values that wait, the last ones first. -/
def Lockstep (trees : List Measured) (values : List Float) : Prop :=
  List.Forall₂ (fun tree x => tree.expr.value = .ok x) trees values

theorem value_measured_binary {op : BinaryOp} {l r : Measured} {a b : Float}
    (hl : l.expr.value = .ok a) (hr : r.expr.value = .ok b) :
    (Measured.binary op l r).expr.value = .ok (op.apply a b) := by
  simp [Measured.binary, Expr.value, hl, hr, bind, Except.bind, pure, Except.pure]

theorem value_measured_apply {f : Func} {argument : Measured} {a : Float}
    (h : argument.expr.value = .ok a) :
    (Measured.apply f argument).expr.value = f.apply a := by
  simp [Measured.apply, Expr.value, h, bind, Except.bind]

/-- Where building takes a token, computing takes it too, or the token is a function that is applied
outside its domain. -/
theorem Lockstep.step {trees next : List Measured} {values : List Float} {t : Token}
    (h : Lockstep trees values) (hstep : Expr.step trees t = .ok next) :
    (∃ values', Postfix.step values t = .ok values' ∧ Lockstep next values') ∨
      ∃ f, t = .func f ∧ Postfix.step values t = .error (.outsideDomain f) := by
  cases t with
  | number x =>
      obtain rfl := Except.ok.inj hstep
      exact .inl ⟨x :: values, rfl, .cons rfl h⟩
  | binary op =>
      cases h with
      | nil => cases hstep
      | cons hr h =>
          cases h with
          | nil => cases hstep
          | cons hl hrest =>
              obtain ⟨m, hbounded, rfl⟩ := Fault.exists_of_map_eq_ok hstep
              rw [Measured.bounded_eq_ok hbounded]
              exact .inl ⟨_, rfl, .cons (value_measured_binary hl hr) hrest⟩
  | func f =>
      cases h with
      | nil => cases hstep
      | @cons _ a _ _ ha hrest =>
          obtain ⟨m, hbounded, rfl⟩ := Fault.exists_of_map_eq_ok hstep
          rw [Measured.bounded_eq_ok hbounded]
          cases happly : f.apply a with
          | error fault =>
              obtain ⟨_, rfl⟩ := Func.apply_eq_error_iff.mp happly
              exact .inr ⟨f, rfl, by rw [Postfix.step, happly]; rfl⟩
          | ok b =>
              refine .inl ⟨_, by rw [Postfix.step, happly]; rfl, .cons ?_ hrest⟩
              exact (value_measured_apply ha).trans happly
  | leftParen => cases hstep
  | rightParen => cases hstep

/-- Where building fails by anything but too many levels, computing fails alike. -/
theorem Lockstep.step_error {trees : List Measured} {values : List Float} {t : Token}
    {fault : Fault} (h : Lockstep trees values) (hstep : Expr.step trees t = .error fault)
    (hfault : fault ≠ .tooDeeplyNested Expr.levelLimit) : Postfix.step values t = .error fault := by
  have hbounded {m : Measured} {rest : List Measured}
      (hm : m.bounded.map (· :: rest) = .error fault) : False :=
    hfault (Measured.eq_of_bounded_eq_error (Fault.map_eq_error.mp hm))
  cases t with
  | number x => cases hstep
  | binary op =>
      cases h with
      | nil =>
          obtain rfl := Except.error.inj hstep
          rfl
      | cons _ h =>
          cases h with
          | nil =>
              obtain rfl := Except.error.inj hstep
              rfl
          | cons _ _ => exact (hbounded hstep).elim
  | func f =>
      cases h with
      | nil =>
          obtain rfl := Except.error.inj hstep
          rfl
      | cons _ _ => exact (hbounded hstep).elim
  | leftParen =>
      obtain rfl := Except.error.inj hstep
      rfl
  | rightParen =>
      obtain rfl := Except.error.inj hstep
      rfl

/-- At the end of the queue there is one tree exactly if there is one value. -/
theorem Lockstep.end_error {trees : List Measured} {values : List Float} {fault : Fault}
    (h : Lockstep trees values) (hend : Expr.ofPostfixOn trees [] = .error fault) :
    Postfix.valueOn values [] = .error fault := by
  cases h with
  | nil =>
      obtain rfl := Except.error.inj hend
      rfl
  | cons _ h =>
      cases h with
      | nil => cases hend
      | cons _ _ =>
          obtain rfl := Except.error.inj hend
          rfl

/-- Computing the queue leaves the domain of `f` at a token that building its tree still takes. -/
def LeavesDomain (trees : List Measured) (values : List Float) (ts : List Token) (f : Func) :
    Prop :=
  ∃ front back trees' values', ts = front ++ .func f :: back ∧
    (front ++ [.func f]).foldlM Expr.step trees = .ok trees' ∧
    front.foldlM Postfix.step values = .ok values' ∧
    Postfix.step values' (.func f) = .error (.outsideDomain f)

/-- A token that both take stands before the one at which the domain is left. -/
theorem LeavesDomain.cons {trees trees' : List Measured} {values values' : List Float} {t : Token}
    {ts : List Token} {f : Func} (h : LeavesDomain trees' values' ts f)
    (htrees : Expr.step trees t = .ok trees') (hvalues : Postfix.step values t = .ok values') :
    LeavesDomain trees values (t :: ts) f := by
  obtain ⟨front, back, trees'', values'', rfl, hbuilt, hcomputed, hleaves⟩ := h
  refine ⟨t :: front, back, trees'', values'', rfl, ?_, ?_, hleaves⟩
  · rw [List.cons_append, List.foldlM_cons, htrees]
    exact hbuilt
  · rw [List.foldlM_cons, hvalues]
    exact hcomputed

theorem LeavesDomain.valueOn {trees : List Measured} {values : List Float} {ts : List Token}
    {f : Func} (h : LeavesDomain trees values ts f) :
    Postfix.valueOn values ts = .error (.outsideDomain f) := by
  obtain ⟨front, back, _, values', rfl, _, hcomputed, hleaves⟩ := h
  rw [Postfix.step_eq_machine_step] at hcomputed hleaves
  rw [Postfix.valueOn_eq_computeOn, Machine.computeOn_append, hcomputed, Except.bind,
    Machine.computeOn_cons, hleaves]
  rfl

/-- By induction on the queue: if building fails by anything but too many levels, computing fails
alike, or has left a function's domain before. -/
theorem Lockstep.valueOn_of_error {trees : List Measured} {values : List Float} {ts : List Token}
    {fault : Fault} (h : Lockstep trees values) (htrees : Expr.ofPostfixOn trees ts = .error fault)
    (hfault : fault ≠ .tooDeeplyNested Expr.levelLimit) :
    Postfix.valueOn values ts = .error fault ∨ ∃ f, LeavesDomain trees values ts f := by
  induction ts generalizing trees values with
  | nil => exact .inl (h.end_error htrees)
  | cons t ts ih =>
      rw [Expr.ofPostfixOn] at htrees
      cases hstep : Expr.step trees t with
      | error other =>
          rw [hstep] at htrees
          obtain rfl := Except.error.inj htrees
          exact .inl (by rw [Postfix.valueOn, h.step_error hstep hfault])
      | ok next =>
          rw [hstep] at htrees
          rcases h.step hstep with ⟨values', hvalues, hnext⟩ | ⟨f, rfl, hleaves⟩
          · rcases ih hnext htrees with hsame | ⟨f, hleaves⟩
            · exact .inl (by rw [Postfix.valueOn, hvalues]; exact hsame)
            · exact .inr ⟨f, hleaves.cons hstep hvalues⟩
          · refine .inr ⟨f, [], ts, next, values, rfl, ?_, rfl, hleaves⟩
            rw [List.nil_append, List.foldlM_cons, hstep]
            rfl

/-- How a value goes with a tree, where `leaves` says which function's domain may be left first. -/
structure Agree (tree : Except Fault Expr) (value : Except Fault Float) (leaves : Func → Prop) :
    Prop where
  /-- The value is that of the tree, or the fault of the tree's first failing function. -/
  of_tree : ∀ e, tree = .ok e → value = e.value
  of_fault : ∀ fault, tree = .error fault → fault ≠ .tooDeeplyNested Expr.levelLimit →
    value = .error fault ∨ ∃ f, leaves f ∧ value = .error (.outsideDomain f)
  of_value : ∀ x, value = .ok x →
    (∃ e, tree = .ok e) ∨ tree = .error (.tooDeeplyNested Expr.levelLimit)

theorem agree_of_ofPostfix (ts : List Token) :
    Agree (Expr.ofPostfix ts) (Postfix.value ts) (LeavesDomain [] [] ts) := by
  have hfault (fault : Fault) (htree : Expr.ofPostfix ts = .error fault)
      (hdeep : fault ≠ .tooDeeplyNested Expr.levelLimit) : Postfix.value ts = .error fault ∨
        ∃ f, LeavesDomain [] [] ts f ∧ Postfix.value ts = .error (.outsideDomain f) := by
    rcases Lockstep.valueOn_of_error .nil htree hdeep with hsame | ⟨f, hleaves⟩
    · exact .inl hsame
    · exact .inr ⟨f, hleaves, hleaves.valueOn⟩
  refine ⟨?_, hfault, ?_⟩
  · intro e htree
    rw [Expr.eq_postorder_of_ofPostfix htree, Postfix.value_postorder]
  · intro x hvalue
    cases htree : Expr.ofPostfix ts with
    | ok e => exact .inl ⟨e, rfl⟩
    | error fault =>
        by_cases hdeep : fault = .tooDeeplyNested Expr.levelLimit
        · exact .inr (hdeep ▸ rfl)
        · rcases hfault fault htree hdeep with herror | ⟨f, _, herror⟩ <;> simp [hvalue] at herror

namespace Formula

theorem agree_of_queue (text : String) :
    Agree (tree text) (value text) fun f =>
      ∃ ts, queue text = .ok ts ∧ LeavesDomain [] [] ts f := by
  have htree : tree text = (queue text).bind Expr.ofPostfix := rfl
  rw [htree, value_eq_bind_queue]
  cases hqueue : queue text with
  | error fault =>
      refine ⟨?_, ?_, ?_⟩
      · intro e h
        cases h
      · intro other h _
        obtain rfl := Except.error.inj h
        exact .inl rfl
      · intro x h
        cases h
  | ok ts =>
      have hagree := agree_of_ofPostfix ts
      refine ⟨hagree.of_tree, ?_, hagree.of_value⟩
      intro fault h hdeep
      rcases hagree.of_fault fault h hdeep with hsame | ⟨f, hleaves, herror⟩
      · exact .inl hsame
      · exact .inr ⟨f, ⟨ts, rfl, hleaves⟩, herror⟩

/-- Of every queue and of every text, the value is the value of the tree, or the fault is the same,
or the value leaves a function's domain before the tree fails; only where a tree would have too many
levels can there be a value without a tree. -/
theorem value_agrees_with_tree :
    (∀ ts, Agree (Expr.ofPostfix ts) (Postfix.value ts) (LeavesDomain [] [] ts)) ∧
      ∀ text, Agree (tree text) (value text)
        fun f => ∃ ts, queue text = .ok ts ∧ LeavesDomain [] [] ts f :=
  ⟨agree_of_ofPostfix, agree_of_queue⟩

/-- The second plus has one operand only, but the square root fails before that. -/
example :
    Postfix.value [.number 4, .number (-1), .func .sqrt, .binary .add, .binary .add] =
        .error (.outsideDomain .sqrt) ∧
      Expr.ofPostfix [.number 4, .number (-1), .func .sqrt, .binary .add, .binary .add] =
        .error .notEnoughOperands := by
  decide +kernel

end Formula

end Calculator
