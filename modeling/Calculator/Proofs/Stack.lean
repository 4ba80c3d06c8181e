import Calculator.Proofs.Reordering

/-!
The yard as one stack. What waits can be kept on a single stack of tokens, on which each open
parenthesis lies between what waits around it and what waits behind it. Taking the tokens with such
a stack is taking them with the yard. They may carry something along, such as the place where they
are read: what becomes of them is decided by the tokens alone.
-/

namespace Calculator.Postfix

/-- Values that are taken as tokens, whatever else they carry. -/
class HasToken (τ : Type) where
  token : τ → Token

instance : HasToken Token := ⟨id⟩

instance {α : Type} : HasToken (Token × α) := ⟨Prod.fst⟩

open HasToken (token)

/-- The operation of a token, if it is an operator or a function. -/
def Operation.ofToken? : Token → Option Operation
  | .binary op => some (.binary op)
  | .func f => some (.func f)
  | .number _ | .leftParen | .rightParen => none

/-- A stack of tokens, the last one first. -/
abbrev Stack (τ : Type) := List τ

namespace Stack

variable {τ σ : Type} [HasToken τ] [HasToken σ]

/-- Whether a token on top passes before the binary operator `op` comes onto the stack. Only an
operation does, as it would in the yard. -/
def yieldsTo (op : BinaryOp) (t : τ) : Bool :=
  (Operation.ofToken? (token t)).any (·.yieldsTo op)

/-- Takes tokens off down to the last open parenthesis, and that with them: what passes, and the
stack that is left. -/
def unwind : Stack τ → Except Fault (List τ × Stack τ)
  | [] => .error .missingOpen
  | t :: stack =>
    match token t with
    | .leftParen => .ok ([], stack)
    | .number _ | .binary _ | .func _ | .rightParen =>
      (unwind stack).map fun (passed, left) => (t :: passed, left)

/-- Takes one token: what passes, and the stack after it. -/
def feed (stack : Stack τ) (t : τ) : Except Fault (List τ × Stack τ) :=
  match token t with
  | .number _ => .ok ([t], stack)
  | .func _ | .leftParen => .ok ([], t :: stack)
  | .binary op => .ok (stack.takeWhile (yieldsTo op), t :: stack.dropWhile (yieldsTo op))
  | .rightParen => stack.unwind

/-- Takes off what is left, if that holds no parenthesis. -/
def close : Stack τ → Except Fault (List τ)
  | [] => .ok []
  | t :: stack =>
    if (token t).isParenthesis then .error .missingClose else (close stack).map (t :: ·)

/-- What passes while the tokens are taken one by one, and the stack after them. -/
def run (stack : Stack τ) : List τ → Except Fault (List τ × Stack τ)
  | [] => .ok ([], stack)
  | t :: ts =>
    match stack.feed t with
    | .error fault => .error fault
    | .ok (passed, next) => (next.run ts).map fun (more, last) => (passed ++ more, last)

/-- What passes of some tokens, the rest of them when all are taken. -/
def queue (ts : List τ) : Except Fault (List τ) :=
  (run [] ts).bind fun (passed, stack) => stack.close.map (passed ++ ·)

theorem exists_of_unwind {stack left : Stack τ} {passed : List τ}
    (h : stack.unwind = .ok (passed, left)) :
    ∃ paren, token paren = .leftParen ∧ stack = passed ++ paren :: left ∧
      ∀ u ∈ passed, token u ≠ .leftParen := by
  induction stack generalizing passed with
  | nil => cases h
  | cons t stack ih =>
      rw [unwind] at h
      split at h
      · next ht =>
        obtain ⟨rfl, rfl⟩ := Prod.mk.inj (Except.ok.inj h)
        exact ⟨t, ht, rfl, fun _ hu => nomatch hu⟩
      all_goals
        next ht =>
        obtain ⟨⟨more, _⟩, hunwind, heq⟩ := Fault.exists_of_map_eq_ok h
        obtain ⟨rfl, rfl⟩ := Prod.mk.inj heq
        obtain ⟨paren, hparen, rfl, hmore⟩ := ih hunwind
        refine ⟨paren, hparen, rfl, List.forall_mem_cons.mpr ⟨?_, hmore⟩⟩
        rw [ht]
        exact nofun

/-- What the stack does with a token: what passes, and the stack after it. -/
inductive Fed (stack : Stack τ) (t : τ) : List τ → Stack τ → Prop
  | number {x : Float} (ht : token t = .number x) : Fed stack t [t] stack
  | func {f : Func} (ht : token t = .func f) : Fed stack t [] (t :: stack)
  | leftParen (ht : token t = .leftParen) : Fed stack t [] (t :: stack)
  | binary {op : BinaryOp} {passed left : List τ} (ht : token t = .binary op)
      (hsplit : stack = passed ++ left) (hpassed : ∀ u ∈ passed, yieldsTo op u = true) :
      Fed stack t passed (t :: left)
  | rightParen {paren : τ} {passed left : List τ} (ht : token t = .rightParen)
      (hparen : token paren = .leftParen) (hsplit : stack = passed ++ paren :: left)
      (hpassed : ∀ u ∈ passed, token u ≠ .leftParen) : Fed stack t passed left

theorem fed_of_feed {stack next : Stack τ} {t : τ} {passed : List τ}
    (h : stack.feed t = .ok (passed, next)) : Fed stack t passed next := by
  rw [feed] at h
  split at h
  · next ht =>
    obtain ⟨rfl, rfl⟩ := Prod.mk.inj (Except.ok.inj h)
    exact .number ht
  · next ht =>
    obtain ⟨rfl, rfl⟩ := Prod.mk.inj (Except.ok.inj h)
    exact .func ht
  · next ht =>
    obtain ⟨rfl, rfl⟩ := Prod.mk.inj (Except.ok.inj h)
    exact .leftParen ht
  · next ht =>
    obtain ⟨rfl, rfl⟩ := Prod.mk.inj (Except.ok.inj h)
    exact .binary ht List.takeWhile_append_dropWhile.symm (List.all_eq_true.mp List.all_takeWhile)
  · next ht =>
    obtain ⟨paren, hparen, hsplit, hpassed⟩ := exists_of_unwind h
    exact .rightParen ht hparen hsplit hpassed

/-- One token is taken, and then the others. -/
theorem exists_of_run_cons {stack last : Stack τ} {t : τ} {ts passed : List τ}
    (h : stack.run (t :: ts) = .ok (passed, last)) :
    ∃ now next later, stack.feed t = .ok (now, next) ∧ next.run ts = .ok (later, last) ∧
      passed = now ++ later := by
  rw [run] at h
  cases hfeed : stack.feed t with
  | error fault => simp [hfeed] at h
  | ok fed =>
      rw [hfeed] at h
      obtain ⟨⟨later, _⟩, hlater, heq⟩ := Fault.exists_of_map_eq_ok h
      obtain ⟨rfl, rfl⟩ := Prod.mk.inj heq
      exact ⟨fed.1, fed.2, later, rfl, hlater, rfl⟩

section

/-! Where the tokens are the same, so is what becomes of them. -/

variable {g : τ → σ} (hg : ∀ t, token (g t) = token t)

include hg

theorem yieldsTo_map (op : BinaryOp) : yieldsTo op ∘ g = yieldsTo op := by
  funext t
  rw [Function.comp_apply, yieldsTo, hg, yieldsTo]

theorem unwind_map (stack : Stack τ) :
    unwind (stack.map g) = stack.unwind.map fun (passed, left) => (passed.map g, left.map g) := by
  induction stack with
  | nil => rfl
  | cons t stack ih =>
      rw [List.map_cons, unwind, unwind, hg, ih]
      cases token t with
      | leftParen => rfl
      | number _ | binary _ | func _ | rightParen => cases unwind stack <;> rfl

theorem feed_map (stack : Stack τ) (t : τ) :
    feed (stack.map g) (g t) =
      (stack.feed t).map fun (passed, next) => (passed.map g, next.map g) := by
  rw [feed, feed, hg]
  cases token t with
  | number _ | func _ | leftParen => rfl
  | binary op =>
      simp only [List.takeWhile_map, List.dropWhile_map, yieldsTo_map hg, Except.map, List.map_cons]
  | rightParen => exact unwind_map hg stack

theorem close_map (stack : Stack τ) : close (stack.map g) = stack.close.map (·.map g) := by
  induction stack with
  | nil => rfl
  | cons t stack ih =>
      rw [List.map_cons, close, close, hg, ih]
      split
      · rfl
      · cases close stack <;> rfl

theorem run_map (stack : Stack τ) (ts : List τ) :
    run (stack.map g) (ts.map g) =
      (stack.run ts).map fun (passed, last) => (passed.map g, last.map g) := by
  induction ts generalizing stack with
  | nil => rfl
  | cons t ts ih =>
      rw [List.map_cons, run, run, feed_map hg]
      cases stack.feed t with
      | error fault => rfl
      | ok fed =>
          simp only [Except.map, ih]
          cases fed.2.run ts <;> simp

theorem queue_map (ts : List τ) : queue (ts.map g) = (queue ts).map (·.map g) := by
  have hrun := run_map hg [] ts
  rw [List.map_nil] at hrun
  rw [queue, queue, hrun]
  cases run [] ts with
  | error fault => rfl
  | ok fed =>
      simp only [Except.map, Except.bind, close_map hg]
      cases fed.2.close <;> simp

end

end Stack

namespace Yard

theorem tokens_nil (inner : List Operation) :
    (Yard.mk inner []).tokens = inner.map Operation.token := List.append_nil _

theorem tokens_cons (inner around : List Operation) (outer : List (List Operation)) :
    (Yard.mk inner (around :: outer)).tokens =
      inner.map Operation.token ++ .leftParen :: (Yard.mk around outer).tokens := rfl

theorem yieldsTo_token (op : BinaryOp) (o : Operation) :
    Stack.yieldsTo op o.token = o.yieldsTo op := by
  cases o <;> rfl

/-- No operator reaches beyond an open parenthesis. -/
theorem takeWhile_tokens (yard : Yard) (op : BinaryOp) :
    yard.tokens.takeWhile (Stack.yieldsTo op) =
        (yard.inner.takeWhile (·.yieldsTo op)).map Operation.token ∧
      yard.tokens.dropWhile (Stack.yieldsTo op) =
        (Yard.mk (yard.inner.dropWhile (·.yieldsTo op)) yard.outer).tokens := by
  obtain ⟨inner, outer⟩ := yard
  induction inner with
  | nil => cases outer <;> exact ⟨rfl, rfl⟩
  | cons o inner ih =>
      have htokens :
          (Yard.mk (o :: inner) outer).tokens = o.token :: (Yard.mk inner outer).tokens := rfl
      rw [htokens]
      cases hyields : o.yieldsTo op with
      | false => simp [yieldsTo_token, hyields, htokens]
      | true => simpa [yieldsTo_token, hyields] using ih

theorem unwind_map_token (inner : List Operation) :
    Stack.unwind (inner.map Operation.token) = .error .missingOpen := by
  induction inner with
  | nil => rfl
  | cons o inner ih =>
      rw [List.map_cons, Stack.unwind, ih]
      cases o <;> rfl

theorem unwind_map_token_append (inner : List Operation) (stack : Stack Token) :
    Stack.unwind (inner.map Operation.token ++ .leftParen :: stack) =
      .ok (inner.map Operation.token, stack) := by
  induction inner with
  | nil => rfl
  | cons o inner ih =>
      rw [List.map_cons, List.cons_append, Stack.unwind, ih]
      cases o <;> rfl

/-- Each token is taken alike. -/
theorem feed_tokens (yard : Yard) (t : Token) :
    Stack.feed yard.tokens t =
      (yard.feed t).map fun (passed, next) => (passed, next.tokens) := by
  cases t with
  | number _ | func _ | leftParen => rfl
  | binary op =>
      obtain ⟨htake, hdrop⟩ := yard.takeWhile_tokens op
      have hfeed : Stack.feed yard.tokens (.binary op) =
          .ok (yard.tokens.takeWhile (Stack.yieldsTo op),
            .binary op :: yard.tokens.dropWhile (Stack.yieldsTo op)) := rfl
      rw [hfeed, htake, hdrop]
      rfl
  | rightParen =>
      have hfeed : Stack.feed yard.tokens .rightParen = Stack.unwind yard.tokens := rfl
      rw [hfeed]
      obtain ⟨inner, outer⟩ := yard
      cases outer with
      | nil => rw [tokens_nil, unwind_map_token]; rfl
      | cons around outer => rw [tokens_cons, unwind_map_token_append]; rfl

theorem run_tokens (yard : Yard) (ts : List Token) :
    Stack.run yard.tokens ts = (yard.run ts).map fun (passed, last) => (passed, last.tokens) := by
  induction ts generalizing yard with
  | nil => rfl
  | cons t ts ih =>
      rw [Stack.run, run, feed_tokens]
      cases yard.feed t with
      | error fault => rfl
      | ok fed =>
          simp only [Except.map, ih]
          cases fed.2.run ts <;> rfl

theorem close_tokens (yard : Yard) : Stack.close yard.tokens = yard.close := by
  obtain ⟨inner, outer⟩ := yard
  induction inner with
  | nil => cases outer <;> rfl
  | cons o inner ih =>
      have hparenthesis : (HasToken.token o.token).isParenthesis = false := by cases o <;> rfl
      have htokens :
          (Yard.mk (o :: inner) outer).tokens = o.token :: (Yard.mk inner outer).tokens := rfl
      rw [htokens, Stack.close, hparenthesis, ih]
      cases outer <;> rfl

end Yard

/-- The tokens of a formula pass over the stack as through the yard, wherever they are cut. -/
theorem ofFormula_append (front back : List Token) :
    ofFormula (front ++ back) = (Stack.run [] front).bind fun (passed, stack) =>
      (stack.run back).bind fun (more, last) => last.close.map (passed ++ more ++ ·) := by
  have hfront : Stack.run [] front = _ := Yard.empty.run_tokens front
  rw [ofFormula, Yard.drain_eq_run, Yard.run_append, hfront]
  cases hmid : Yard.empty.run front with
  | error fault => rfl
  | ok mid =>
      simp only [Except.bind, Except.map, Yard.run_tokens]
      cases hlast : mid.2.run back with
      | error fault => rfl
      | ok last => simp only [Yard.close_tokens]

theorem ofFormula_eq_queue (ts : List Token) : ofFormula ts = Stack.queue ts := by
  have hrun : Stack.run [] ts = _ := Yard.empty.run_tokens ts
  rw [ofFormula, Yard.drain_eq_run, Stack.queue, hrun]
  cases Yard.empty.run ts with
  | error fault => rfl
  | ok last => simp only [Except.bind, Except.map, Yard.close_tokens]

end Calculator.Postfix
