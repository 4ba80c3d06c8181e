import Calculator.Postfix.Reorder
import Calculator.Proofs.Derivation

/-!
What the yard makes of formulas. The yard after some tokens is followed through any list of tokens;
of the tokens of a derivation it lets pass, or keeps waiting on top of what waited before, the
derived expression in postfix order. Closing the yard then completes the order.
-/

namespace Calculator.Postfix

open Grammar

namespace Yard

/-- What passes while the tokens are taken one by one, and the yard after them. -/
def run (yard : Yard) : List Token → Except Fault (List Token × Yard)
  | [] => .ok ([], yard)
  | t :: ts =>
    match yard.feed t with
    | .error fault => .error fault
    | .ok (passed, next) => (next.run ts).map fun (more, last) => (passed ++ more, last)

/-- One token is taken, and then the others. -/
theorem exists_of_run_cons {yard last : Yard} {t : Token} {ts passed : List Token}
    (h : yard.run (t :: ts) = .ok (passed, last)) :
    ∃ now next later, yard.feed t = .ok (now, next) ∧ next.run ts = .ok (later, last) ∧
      passed = now ++ later := by
  rw [run] at h
  cases hfeed : yard.feed t with
  | error fault => simp [hfeed] at h
  | ok fed =>
      rw [hfeed] at h
      obtain ⟨⟨later, _⟩, hlater, heq⟩ := Fault.exists_of_map_eq_ok h
      obtain ⟨rfl, rfl⟩ := Prod.mk.inj heq
      exact ⟨fed.1, fed.2, later, rfl, hlater, rfl⟩

theorem run_append (yard : Yard) (ts us : List Token) :
    yard.run (ts ++ us) = (yard.run ts).bind fun (passed, next) =>
      (next.run us).map fun (more, last) => (passed ++ more, last) := by
  induction ts generalizing yard with
  | nil => cases hrun : yard.run us <;> simp [run, hrun, Except.bind, Except.map]
  | cons t ts ih =>
      cases hfeed : yard.feed t with
      | error fault => simp [run, hfeed, Except.bind]
      | ok fed =>
          simp only [List.cons_append, run, hfeed, ih]
          cases hts : fed.2.run ts with
          | error fault => simp [Except.bind, Except.map]
          | ok mid => cases hus : mid.2.run us <;> simp [hus, Except.bind, Except.map]

/-- Draining the yard is running it to the end of the tokens and closing it there. -/
theorem drain_eq_run (yard : Yard) (ts : List Token) :
    yard.drain ts = (yard.run ts).bind fun (passed, last) => last.close.map (passed ++ ·) := by
  induction ts generalizing yard with
  | nil => cases hclose : yard.close <;> simp [drain, run, hclose, Except.bind, Except.map]
  | cons t ts ih =>
      cases hfeed : yard.feed t with
      | error fault => simp [drain, run, hfeed, Except.bind]
      | ok fed =>
          simp only [drain, run, hfeed, ih]
          cases hts : fed.2.run ts with
          | error fault => simp [Except.bind, Except.map]
          | ok mid => cases hclose : mid.2.close <;> simp [hclose, Except.bind, Except.map]

@[simp]
theorem filter_isNumber_map_token (waiting : List Operation) :
    (waiting.map Operation.token).filter Token.isNumber = [] := by
  induction waiting with
  | nil => rfl
  | cons o rest ih => cases o <;> simpa [Operation.token, Token.isNumber] using ih

/-- A number passes at once, and nothing else that passes is a number. -/
theorem filter_isNumber_of_feed {yard next : Yard} {t : Token} {passed : List Token}
    (h : yard.feed t = .ok (passed, next)) :
    passed.filter Token.isNumber = [t].filter Token.isNumber := by
  cases t with
  | number x =>
      obtain ⟨rfl, _⟩ := Prod.mk.inj (Except.ok.inj h)
      rfl
  | binary op =>
      obtain ⟨rfl, _⟩ := Prod.mk.inj (Except.ok.inj h)
      simp [Token.isNumber]
  | func f =>
      obtain ⟨rfl, _⟩ := Prod.mk.inj (Except.ok.inj h)
      rfl
  | leftParen =>
      obtain ⟨rfl, _⟩ := Prod.mk.inj (Except.ok.inj h)
      rfl
  | rightParen =>
      rw [feed] at h
      split at h
      · cases h
      · obtain ⟨rfl, _⟩ := Prod.mk.inj (Except.ok.inj h)
        simp [Token.isNumber]

theorem filter_isNumber_of_run {yard last : Yard} {ts passed : List Token}
    (h : yard.run ts = .ok (passed, last)) :
    passed.filter Token.isNumber = ts.filter Token.isNumber := by
  induction ts generalizing yard passed with
  | nil =>
      obtain ⟨rfl, _⟩ := Prod.mk.inj (Except.ok.inj h)
      rfl
  | cons t ts ih =>
      obtain ⟨now, next, later, hfeed, hlater, rfl⟩ := exists_of_run_cons h
      rw [List.filter_append, filter_isNumber_of_feed hfeed, ih hlater, ← List.filter_append,
        List.singleton_append]

theorem close_eq_ok_iff {yard : Yard} {rest : List Token} :
    yard.close = .ok rest ↔ yard.outer = [] ∧ yard.inner.map Operation.token = rest := by
  unfold close
  split
  · next houter => simp [houter]
  · next houter => simp [houter]

theorem filter_isNumber_of_drain {yard : Yard} {ts queue : List Token}
    (h : yard.drain ts = .ok queue) : queue.filter Token.isNumber = ts.filter Token.isNumber := by
  rw [drain_eq_run] at h
  obtain ⟨⟨passed, last⟩, hrun, h⟩ := Fault.exists_of_bind_eq_ok h
  obtain ⟨rest, hclose, rfl⟩ := Fault.exists_of_map_eq_ok h
  obtain ⟨_, rfl⟩ := close_eq_ok_iff.mp hclose
  rw [List.filter_append, filter_isNumber_of_run hrun, filter_isNumber_map_token, List.append_nil]

/-- A binary operator lets pass what yields to it, down to the first operation that does not. -/
theorem feed_binary (op : BinaryOp) {passing inner : List Operation}
    (outer : List (List Operation)) (hpassing : ∀ o ∈ passing, o.yieldsTo op = true)
    (hinner : ∀ o ∈ inner.head?, o.yieldsTo op = false) :
    (Yard.mk (passing ++ inner) outer).feed (.binary op) =
      .ok (passing.map Operation.token, ⟨.binary op :: inner, outer⟩) := by
  have htake : inner.takeWhile (·.yieldsTo op) = [] := by
    cases inner with
    | nil => rfl
    | cons o rest => simp [hinner o rfl]
  have hdrop : inner.dropWhile (·.yieldsTo op) = inner := by
    cases inner with
    | nil => rfl
    | cons o rest => simp [hinner o rfl]
  simp only [feed, List.takeWhile_append_of_pos hpassing, List.dropWhile_append_of_pos hpassing,
    htake, hdrop, List.append_nil]

end Yard

/-- How tightly an operation holds its operands, on the scale of the grammar's levels. -/
def Operation.level : Operation → Nat
  | .binary op => op.precedence
  | .func _ => 4

/-- The last operation that waits, if any, yields to no operator of a part of category `c`. -/
def HoldsBefore (c : Category) (waiting : List Operation) : Prop :=
  ∀ o ∈ waiting.head?, ∀ op : BinaryOp, c.level ≤ op.precedence → o.yieldsTo op = false

/-- The tokens pass through every yard that holds before them, or stay on top of what waits there,
and then stand for the expression `e` of category `c`: what passes and after it what waits is `e` in
postfix order, and nothing that waits holds less tightly than the category does. -/
def Reorders (c : Category) (ts : List Token) (e : Expr) : Prop :=
  ∀ inner outer, HoldsBefore c inner →
    ∃ passed waiting,
      (Yard.mk inner outer).run ts = .ok (passed, ⟨waiting ++ inner, outer⟩) ∧
        passed ++ waiting.map Operation.token = e.postorder ∧
        ∀ o ∈ waiting, c.level ≤ o.level

theorem HoldsBefore.nil (c : Category) : HoldsBefore c [] := by
  intro o ho
  cases ho

theorem HoldsBefore.mono {c d : Category} {waiting : List Operation} (h : HoldsBefore c waiting)
    (hle : c.level ≤ d.level) : HoldsBefore d waiting := by
  intro o ho op hop
  exact h o ho op (Nat.le_trans hle hop)

/-- An operator waits while its right operand is read. -/
theorem holdsBefore_right (op : BinaryOp) (waiting : List Operation) :
    HoldsBefore (op.operandCategory .right) (.binary op :: waiting) := by
  intro o ho other
  obtain rfl : Operation.binary op = o := by simpa using ho
  cases op <;> cases other <;> decide

/-- What waits of the left operand passes as soon as the operator comes. -/
theorem yieldsTo_of_left {op : BinaryOp} {o : Operation}
    (h : (op.operandCategory .left).level ≤ o.level) : o.yieldsTo op = true := by
  cases o with
  | func f => rfl
  | binary other => revert h; cases op <;> cases other <;> decide

theorem Reorders.lower {c d : Category} {ts : List Token} {e : Expr} (h : Reorders c ts e)
    (hle : d.level ≤ c.level) : Reorders d ts e := by
  intro inner outer hholds
  obtain ⟨passed, waiting, hrun, horder, hlevel⟩ := h inner outer (hholds.mono hle)
  exact ⟨passed, waiting, hrun, horder, fun o ho => Nat.le_trans hle (hlevel o ho)⟩

theorem reorders_number (x : Float) : Reorders .atom [.number x] (.number x) := by
  intro inner outer _
  refine ⟨[.number x], [], rfl, rfl, ?_⟩
  intro o ho
  cases ho

theorem Reorders.apply (f : Func) {ts : List Token} {e : Expr} (h : Reorders .operand ts e) :
    Reorders .operand (.func f :: ts) (.apply f e) := by
  intro inner outer _
  have hholds : HoldsBefore .operand (.func f :: inner) := by
    intro o _ op hop
    cases op <;> simp [Category.level, BinaryOp.precedence] at hop
  obtain ⟨passed, waiting, hrun, horder, hlevel⟩ := h (.func f :: inner) outer hholds
  refine ⟨passed, waiting ++ [.func f], ?_, ?_, ?_⟩
  · simp only [Yard.run, Yard.feed, hrun, Except.map]
    simp
  · rw [Expr.postorder, ← horder]
    simp [Operation.token]
  · intro o ho
    rcases List.mem_append.mp ho with ho | ho
    · exact hlevel o ho
    · rw [List.mem_singleton.mp ho]
      exact Nat.le_refl _

theorem Reorders.group {ts : List Token} {e : Expr} (h : Reorders .sum ts e) :
    Reorders .atom (.leftParen :: ts ++ [.rightParen]) e := by
  intro inner outer _
  obtain ⟨passed, waiting, hrun, horder, _⟩ := h [] (inner :: outer) (.nil _)
  refine ⟨passed ++ waiting.map Operation.token, [], ?_, ?_, ?_⟩
  · simp only [List.cons_append, Yard.run, Yard.feed, Yard.run_append, hrun, Except.bind,
      Except.map]
    simp
  · simpa using horder
  · intro o ho
    cases ho

/-- The left operand waits until the operator comes and then passes; the operator itself stays below
what waits of the right operand. -/
theorem Reorders.binary (op : BinaryOp) {ts us : List Token} {l r : Expr}
    (hl : Reorders (op.operandCategory .left) ts l)
    (hr : Reorders (op.operandCategory .right) us r) :
    Reorders op.category (ts ++ .binary op :: us) (.binary op l r) := by
  intro inner outer hholds
  have hlevel (side : Side) : op.category.level ≤ (op.operandCategory side).level := by
    rw [op.level_category]
    exact op.precedence_le_level_operandCategory side
  obtain ⟨passedLeft, waitingLeft, hrunLeft, horderLeft, hlevelLeft⟩ :=
    hl inner outer (hholds.mono (hlevel .left))
  obtain ⟨passedRight, waitingRight, hrunRight, horderRight, hlevelRight⟩ :=
    hr (.binary op :: inner) outer (holdsBefore_right op inner)
  -- What waits of the left operand yields to `op`, what waited before both does not.
  have hfeed := Yard.feed_binary op outer
    (fun o ho => yieldsTo_of_left (hlevelLeft o ho))
    (fun o ho => hholds o ho op (Nat.le_of_eq op.level_category))
  refine ⟨passedLeft ++ (waitingLeft.map Operation.token ++ passedRight),
    waitingRight ++ [.binary op], ?_, ?_, ?_⟩
  · rw [Yard.run_append, hrunLeft]
    simp only [Except.bind, Yard.run, hfeed, hrunRight, Except.map]
    simp
  · rw [Expr.postorder, ← horderLeft, ← horderRight]
    simp [Operation.token]
  · intro o ho
    rcases List.mem_append.mp ho with ho | ho
    · exact Nat.le_trans (hlevel .right) (hlevelRight o ho)
    · rw [List.mem_singleton.mp ho, op.level_category]
      exact Nat.le_refl _

/-- By induction on the derivation, every part of a formula is reordered as its category demands. -/
theorem reorders_of_derives {c : Category} {ts : List Token} {e : Expr} (h : Derives c ts e) :
    Reorders c ts e := by
  induction h using Derives.inductionOn with
  | binary op _ _ ihl ihr => exact Reorders.binary op ihl ihr
  | lower _ _ hle ih => exact ih.lower hle
  | apply f _ ih => exact ih.apply f
  | number x => exact reorders_number x
  | group _ ih => exact ih.group

/-- A formula's tokens are brought into the postfix order of the expression that it stands for. -/
theorem ofFormula_of_derives {c : Category} {ts : List Token} {e : Expr} (h : Derives c ts e) :
    ofFormula ts = .ok e.postorder := by
  obtain ⟨passed, waiting, hrun, horder, _⟩ := reorders_of_derives h [] [] (.nil _)
  rw [ofFormula, Yard.drain_eq_run, Yard.empty, hrun, ← horder]
  simp [Except.bind, Except.map, Yard.close]

/-- The queue of some tokens has their numbers, in the same order. -/
theorem filter_isNumber_of_ofFormula {ts queue : List Token} (h : ofFormula ts = .ok queue) :
    queue.filter Token.isNumber = ts.filter Token.isNumber :=
  Yard.filter_isNumber_of_drain h

end Calculator.Postfix
