import Calculator.Proofs.Places
import Mathlib.Data.List.Chain

/-!
What lies on the stack. After any tokens that could be taken, sensible or not, operations and open
parentheses lie on it. An open parenthesis lies there for each one that none of the tokens closes;
and between them, in the stretches of the yard, lie operators in an order in which each holds its
operands more tightly than the one below, and functions above them.
-/

namespace Calculator.Postfix

/-- The operator `b` may lie on the operator `a`. -/
def Rises (a b : BinaryOp) : Prop := a.precedence < b.precedence ∨ (a = .power ∧ b = .power)

/-- From the bottom to the top, operators that rise, and functions on them. -/
def IsStretch (stretch : List Token) : Prop :=
  ∃ (ops : List BinaryOp) (fs : List Func),
    stretch = ops.map .binary ++ fs.map .func ∧ ops.IsChain Rises

/-- Closing parentheses with no open one before them. Each closes the last one that is open. -/
def unmatchedClosing : List Token → Nat
  | [] => 0
  | .leftParen :: ts => unmatchedClosing ts - 1
  | .rightParen :: ts => unmatchedClosing ts + 1
  | .number _ :: ts | .binary _ :: ts | .func _ :: ts => unmatchedClosing ts

/-- Open parentheses that none of the closing ones behind them closes. -/
def unmatchedOpening : List Token → Nat
  | [] => 0
  | .leftParen :: ts =>
    if unmatchedClosing ts = 0 then unmatchedOpening ts + 1 else unmatchedOpening ts
  | .rightParen :: ts | .number _ :: ts | .binary _ :: ts | .func _ :: ts => unmatchedOpening ts

example : unmatchedOpening [.leftParen, .rightParen, .rightParen, .leftParen, .leftParen,
    .rightParen] = 1 := rfl

/-- What waits in one stretch, the last operation first. -/
def Settled (waiting : List Operation) : Prop :=
  ∃ (fs : List Func) (ops : List BinaryOp),
    waiting = fs.map .func ++ ops.map .binary ∧ ops.IsChain fun b a => Rises a b

theorem rises_of_not_yieldsTo {op other : BinaryOp}
    (h : (Operation.binary other).yieldsTo op = false) : Rises other op := by
  revert h
  cases op <;> cases other <;>
    simp [Operation.yieldsTo, Rises, BinaryOp.precedence, BinaryOp.associativity]

theorem Settled.nil : Settled [] := ⟨[], [], rfl, .nil⟩

theorem Settled.func {waiting : List Operation} (h : Settled waiting) (f : Func) :
    Settled (.func f :: waiting) := by
  obtain ⟨fs, ops, rfl, hops⟩ := h
  exact ⟨f :: fs, ops, rfl, hops⟩

/-- All functions yield to an operator, and of the operators all down to the first one that it may
lie on. -/
theorem Settled.binary {waiting : List Operation} (h : Settled waiting) (op : BinaryOp) :
    Settled (.binary op :: waiting.dropWhile (·.yieldsTo op)) := by
  obtain ⟨fs, ops, rfl, hops⟩ := h
  have hfs : ∀ o ∈ fs.map Operation.func, o.yieldsTo op = true := by
    intro o ho
    obtain ⟨f, _, rfl⟩ := List.mem_map.mp ho
    rfl
  rw [List.dropWhile_append_of_pos hfs, List.dropWhile_map]
  refine ⟨[], op :: ops.dropWhile ((·.yieldsTo op) ∘ Operation.binary), rfl, ?_⟩
  refine List.isChain_cons.mpr ⟨?_, hops.suffix (List.dropWhile_suffix _)⟩
  intro other hother
  have hhead := List.head?_dropWhile_not ((·.yieldsTo op) ∘ Operation.binary) ops
  rw [hother] at hhead
  exact rises_of_not_yieldsTo hhead

theorem Settled.isStretch {waiting : List Operation} (h : Settled waiting) :
    IsStretch (waiting.map Operation.token).reverse := by
  obtain ⟨fs, ops, rfl, hops⟩ := h
  refine ⟨ops.reverse, fs.reverse, ?_, List.isChain_reverse.mpr hops⟩
  simp [Function.comp_def, Operation.token]

namespace Yard

/-- All stretches are settled. -/
def AllSettled (yard : Yard) : Prop := ∀ waiting ∈ yard.inner :: yard.outer, Settled waiting

theorem AllSettled.feed {yard next : Yard} {t : Token} {passed : List Token}
    (hyard : yard.AllSettled) (h : yard.feed t = .ok (passed, next)) : next.AllSettled := by
  obtain ⟨hinner, houter⟩ := List.forall_mem_cons.mp hyard
  cases t with
  | number x =>
      obtain ⟨_, rfl⟩ := Prod.mk.inj (Except.ok.inj h)
      exact hyard
  | binary op =>
      obtain ⟨_, rfl⟩ := Prod.mk.inj (Except.ok.inj h)
      exact List.forall_mem_cons.mpr ⟨hinner.binary op, houter⟩
  | func f =>
      obtain ⟨_, rfl⟩ := Prod.mk.inj (Except.ok.inj h)
      exact List.forall_mem_cons.mpr ⟨hinner.func f, houter⟩
  | leftParen =>
      obtain ⟨_, rfl⟩ := Prod.mk.inj (Except.ok.inj h)
      exact List.forall_mem_cons.mpr ⟨.nil, hyard⟩
  | rightParen =>
      obtain ⟨inner, outer⟩ := yard
      cases outer with
      | nil => cases h
      | cons around outer =>
          obtain ⟨_, rfl⟩ := Prod.mk.inj (Except.ok.inj h)
          exact houter

theorem AllSettled.run {yard last : Yard} {ts passed : List Token} (hyard : yard.AllSettled)
    (h : yard.run ts = .ok (passed, last)) : last.AllSettled := by
  induction ts generalizing yard passed with
  | nil =>
      obtain ⟨_, rfl⟩ := Prod.mk.inj (Except.ok.inj h)
      exact hyard
  | cons t ts ih =>
      obtain ⟨now, next, later, hfeed, hlater, _⟩ := exists_of_run_cons h
      exact ih (hyard.feed hfeed) hlater

theorem allSettled_empty : empty.AllSettled :=
  List.forall_mem_cons.mpr ⟨.nil, fun _ h => nomatch h⟩

/-- By induction on the tokens, for every yard before them. -/
theorem unmatched_of_run {yard last : Yard} {ts passed : List Token}
    (h : yard.run ts = .ok (passed, last)) :
    unmatchedClosing ts ≤ yard.outer.length ∧
      last.outer.length + unmatchedClosing ts = yard.outer.length + unmatchedOpening ts := by
  induction ts generalizing yard passed with
  | nil =>
      obtain ⟨_, rfl⟩ := Prod.mk.inj (Except.ok.inj h)
      exact ⟨Nat.zero_le _, rfl⟩
  | cons t ts ih =>
      obtain ⟨now, next, later, hfeed, hlater, _⟩ := exists_of_run_cons h
      have hrest := ih hlater
      cases t with
      | number _ | binary _ | func _ =>
          obtain ⟨_, rfl⟩ := Prod.mk.inj (Except.ok.inj hfeed)
          exact hrest
      | leftParen =>
          obtain ⟨_, rfl⟩ := Prod.mk.inj (Except.ok.inj hfeed)
          simp only [List.length_cons] at hrest
          rw [unmatchedClosing, unmatchedOpening]
          split <;> omega
      | rightParen =>
          obtain ⟨inner, outer⟩ := yard
          cases outer with
          | nil => cases hfeed
          | cons around outer =>
              obtain ⟨_, rfl⟩ := Prod.mk.inj (Except.ok.inj hfeed)
              rw [unmatchedClosing, unmatchedOpening, List.length_cons]
              dsimp only at hrest
              omega

theorem count_leftParen_map_token (inner : List Operation) :
    (inner.map Operation.token).count .leftParen = 0 := by
  refine List.count_eq_zero.mpr fun h => ?_
  obtain ⟨o, _, ho⟩ := List.mem_map.mp h
  cases o <;> cases ho

theorem count_leftParen_tokens (yard : Yard) :
    yard.tokens.count .leftParen = yard.outer.length := by
  obtain ⟨inner, outer⟩ := yard
  induction outer generalizing inner with
  | nil => rw [tokens_nil, count_leftParen_map_token]; rfl
  | cons around outer ih =>
      rw [tokens_cons, List.count_append, count_leftParen_map_token, List.count_cons_self, ih]
      exact Nat.zero_add _

/-- Cut at the open parentheses, the stack is the stretches of the yard. -/
theorem exists_of_mem_splitOn {yard : Yard} {stretch : List Token}
    (h : stretch ∈ yard.tokens.reverse.splitOn .leftParen) :
    ∃ waiting ∈ yard.inner :: yard.outer, stretch = (waiting.map Operation.token).reverse := by
  obtain ⟨inner, outer⟩ := yard
  have hsingle (inner : List Operation) :
      (inner.map Operation.token).reverse.splitOn .leftParen =
        [(inner.map Operation.token).reverse] := by
    refine List.splitOn_eq_singleton ?_
    rw [List.mem_reverse, ← List.count_eq_zero]
    exact count_leftParen_map_token inner
  induction outer generalizing inner with
  | nil =>
      rw [tokens_nil, hsingle, List.mem_singleton] at h
      exact ⟨inner, List.mem_cons_self, h⟩
  | cons around outer ih =>
      rw [tokens_cons, List.reverse_append, List.reverse_cons, List.append_assoc,
        List.singleton_append, List.splitOn_append_cons_self, hsingle, List.mem_append,
        List.mem_singleton] at h
      rcases h with h | h
      · obtain ⟨waiting, hwaiting, hstretch⟩ := ih around h
        exact ⟨waiting, List.mem_cons_of_mem inner hwaiting, hstretch⟩
      · exact ⟨inner, List.mem_cons_self, h⟩

end Yard

/-- What the stack holds after some tokens. -/
structure Holds (ts : List Token) (stack : Stack Token) : Prop where
  noNumber : ∀ t ∈ stack, t.isNumber = false
  noClosing : .rightParen ∉ stack
  openings : stack.count .leftParen = unmatchedOpening ts
  /-- Between open parentheses, from the bottom to the top. -/
  stretches : ∀ stretch ∈ stack.reverse.splitOn .leftParen, IsStretch stretch

theorem Holds.of_run {front passed : List Token} {stack : Stack Token}
    (h : Stack.run [] front = .ok (passed, stack)) : Holds front stack := by
  have hwaiting : stack.Waiting := Stack.waiting_of_run Stack.waiting_nil h
  have htokens : Stack.run [] front = _ := Yard.empty.run_tokens front
  obtain ⟨⟨_, yard⟩, hrun, heq⟩ := Fault.exists_of_map_eq_ok (htokens.symm.trans h)
  obtain ⟨rfl, rfl⟩ := Prod.mk.inj heq
  obtain ⟨hclosing, hopening⟩ := Yard.unmatched_of_run hrun
  refine ⟨fun t ht => Token.isNumber_of_waits (hwaiting t ht), ?_, ?_, ?_⟩
  · intro hclose
    cases hwaiting _ hclose
  · have hempty : Yard.empty.outer.length = 0 := rfl
    rw [Yard.count_leftParen_tokens]
    omega
  · intro stretch hstretch
    obtain ⟨waiting, hwaiting, rfl⟩ := Yard.exists_of_mem_splitOn hstretch
    exact (Yard.allSettled_empty.run hrun waiting hwaiting).isStretch

/-- Any tokens pass over the stack one after the other. After each of them that could be taken, no
number and no closing parenthesis lies on the stack, and an open parenthesis for each one that is
unmatched until then; in each stretch between these lie operators that rise, and functions on
them. -/
theorem ofFormula_keeps_stack (front back : List Token) :
    (ofFormula (front ++ back) = (Stack.run [] front).bind fun (passed, stack) =>
      (stack.run back).bind fun (more, last) => last.close.map (passed ++ more ++ ·)) ∧
      ∀ passed stack, Stack.run [] front = .ok (passed, stack) → Holds front stack :=
  ⟨ofFormula_append front back, fun _ _ h => .of_run h⟩

/-- Two stretches of tokens that are no formula: `+ * ^ ^ sqrt ( ) ( - sin cos`. -/
theorem ofFormula_keeps_stack_two_stretches :
    let front : List Token := [.binary .add, .binary .multiply, .binary .power, .binary .power,
      .func .sqrt, .leftParen, .rightParen, .leftParen, .binary .subtract, .func .sin, .func .cos]
    let stack : Stack Token := [.func .cos, .func .sin, .binary .subtract, .leftParen, .func .sqrt,
      .binary .power, .binary .power, .binary .multiply, .binary .add]
    Stack.run [] front = .ok ([], stack) ∧ Holds front stack :=
  ⟨rfl, (ofFormula_keeps_stack _ []).2 [] _ rfl⟩

end Calculator.Postfix
