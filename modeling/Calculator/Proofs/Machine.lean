import Calculator.Expr
import Mathlib.Data.List.Forall2

/-!
Stack machines for queues. Computing a queue and building its tree are one machine with different
entries on its stack. What such a machine makes of the postfix order of an expression can be read
off the expression by recursion; and the queues that it makes something of are the postfix orders
of expressions.
-/

namespace Calculator

/-- What a stack machine does with the entries of its stack, and what it makes of the one that is
left at the end. -/
structure Machine (α β : Type) where
  number : Float → α
  binary : BinaryOp → α → α → Except Fault α
  apply : Func → α → Except Fault α
  result : α → β

namespace Machine

variable {α β : Type}

/-- Takes one token: the stack after it, the last entry first. -/
def step (m : Machine α β) (stack : List α) : Token → Except Fault (List α)
  | .number x => .ok (m.number x :: stack)
  | .binary op =>
    match stack with
    | b :: a :: rest => (m.binary op a b).map (· :: rest)
    | _ => .error .notEnoughOperands
  | .func f =>
    match stack with
    | a :: rest => (m.apply f a).map (· :: rest)
    | [] => .error .notEnoughOperands
  | .leftParen | .rightParen => .error .strayParenthesis

def finish (m : Machine α β) : List α → Except Fault β
  | [x] => .ok (m.result x)
  | _ => .error .tooManyOperands

/-- What the machine makes of a queue on top of a stack. -/
def computeOn (m : Machine α β) (stack : List α) (ts : List Token) : Except Fault β :=
  (ts.foldlM m.step stack).bind m.finish

def compute (m : Machine α β) (ts : List Token) : Except Fault β := m.computeOn [] ts

/-- The entry for an expression: those for its operands are made before it, the left one first. -/
def fold (m : Machine α β) : Expr → Except Fault α
  | .number x => .ok (m.number x)
  | .binary op left right =>
    (m.fold left).bind fun a => (m.fold right).bind fun b => m.binary op a b
  | .apply f argument => (m.fold argument).bind (m.apply f)

/-- An operation refuses operands that it has. -/
def Refuses (m : Machine α β) : Token → Fault → Prop
  | .binary op, fault => ∃ a b, m.binary op a b = .error fault
  | .func f, fault => ∃ a, m.apply f a = .error fault
  | .number _, _ | .leftParen, _ | .rightParen, _ => False

theorem computeOn_append (m : Machine α β) (stack : List α) (front ts : List Token) :
    m.computeOn stack (front ++ ts) =
      (front.foldlM m.step stack).bind (m.computeOn · ts) := by
  rw [computeOn, List.foldlM_append]
  cases front.foldlM m.step stack <;> rfl

theorem computeOn_cons (m : Machine α β) (stack : List α) (t : Token) (ts : List Token) :
    m.computeOn stack (t :: ts) = (m.step stack t).bind (m.computeOn · ts) := by
  rw [computeOn, List.foldlM_cons]
  cases m.step stack t <;> rfl

theorem finish_of_length_ne_one (m : Machine α β) {stack : List α} (h : stack.length ≠ 1) :
    m.finish stack = .error .tooManyOperands := by
  match stack with
  | [] | _ :: _ :: _ => rfl
  | [_] => exact absurd rfl h

/-- A machine that has taken the postfix order of an expression has put its entry on the stack. -/
theorem run_postorder (m : Machine α β) (e : Expr) (stack : List α) :
    e.postorder.foldlM m.step stack = (m.fold e).map (· :: stack) := by
  induction e generalizing stack with
  | number x => rfl
  | binary op l r ihl ihr =>
      rw [Expr.postorder, List.foldlM_append, List.foldlM_append, ihl, fold]
      cases m.fold l with
      | error fault => rfl
      | ok a =>
          have hright := ihr (a :: stack)
          cases hr : m.fold r with
          | error fault => simp [hright, hr, Except.map, Except.bind, bind]
          | ok b => cases hop : m.binary op a b <;>
              simp [hright, hr, hop, step, Except.map, Except.bind, bind, pure, Except.pure]
  | apply f argument ih =>
      rw [Expr.postorder, List.foldlM_append, ih, fold]
      cases m.fold argument with
      | error fault => rfl
      | ok a => cases hf : m.apply f a <;>
          simp [hf, step, Except.map, Except.bind, bind, pure, Except.pure]

theorem compute_postorder (m : Machine α β) (e : Expr) :
    m.compute e.postorder = (m.fold e).map m.result := by
  rw [compute, computeOn, run_postorder]
  cases m.fold e <;> rfl

/-- The entries on the stack are those for some expressions, the last one first. -/
def Holds (m : Machine α β) (stack : List α) (es : List Expr) : Prop :=
  List.Forall₂ (fun a e => m.fold e = .ok a) stack es

/-- The postfix order of expressions on a stack, the last of which comes first. -/
def listing (es : List Expr) : List Token := es.reverse.flatMap Expr.postorder

theorem listing_cons (e : Expr) (es : List Expr) :
    listing (e :: es) = listing es ++ e.postorder := by
  simp [listing]

variable {m : Machine α β} {stack : List α} {es : List Expr} {t : Token} {ts : List Token}

/-- One token more is listed by the expressions for the stack after it. -/
theorem Holds.step {next : List α} (h : m.Holds stack es) (hstep : m.step stack t = .ok next) :
    ∃ es', m.Holds next es' ∧ listing es' = listing es ++ [t] := by
  cases t with
  | number x =>
      obtain rfl := Except.ok.inj hstep
      exact ⟨.number x :: es, .cons rfl h, listing_cons _ _⟩
  | binary op =>
      cases h with
      | nil => cases hstep
      | @cons b r _ _ hr h =>
          cases h with
          | nil => cases hstep
          | @cons a l _ rest hl hrest =>
              obtain ⟨c, hop, rfl⟩ := Fault.exists_of_map_eq_ok hstep
              refine ⟨.binary op l r :: rest, .cons ?_ hrest, ?_⟩
              · rw [fold, hl, Except.bind, hr, Except.bind, hop]
              · simp [listing_cons, Expr.postorder]
  | func f =>
      cases h with
      | nil => cases hstep
      | @cons a argument _ rest ha hrest =>
          obtain ⟨b, hf, rfl⟩ := Fault.exists_of_map_eq_ok hstep
          refine ⟨.apply f argument :: rest, .cons ?_ hrest, ?_⟩
          · rw [fold, ha, Except.bind, hf]
          · simp [listing_cons, Expr.postorder]
  | leftParen | rightParen => cases hstep

theorem Holds.run {last : List α} (h : m.Holds stack es)
    (hrun : ts.foldlM m.step stack = .ok last) :
    ∃ es', m.Holds last es' ∧ listing es' = listing es ++ ts := by
  induction ts generalizing stack es with
  | nil =>
      obtain rfl := Except.ok.inj hrun
      exact ⟨es, h, (List.append_nil _).symm⟩
  | cons t ts ih =>
      rw [List.foldlM_cons] at hrun
      obtain ⟨next, hstep, hrest⟩ := Fault.exists_of_bind_eq_ok hrun
      obtain ⟨es', hnext, hlisting⟩ := h.step hstep
      obtain ⟨es'', hlast, hlisting'⟩ := ih hnext hrest
      refine ⟨es'', hlast, ?_⟩
      rw [hlisting', hlisting, List.append_assoc, List.singleton_append]

/-- A machine makes something of a queue exactly if that is the postfix order of an expression, and
then it makes of it what it makes of the expression. -/
theorem compute_eq_ok_iff {y : β} :
    m.compute ts = .ok y ↔ ∃ e, ts = e.postorder ∧ (m.fold e).map m.result = .ok y := by
  constructor
  · intro h
    obtain ⟨last, hrun, hfinish⟩ := Fault.exists_of_bind_eq_ok h
    obtain ⟨es, hholds, hlisting⟩ := Holds.run .nil hrun
    cases hholds with
    | nil => cases hfinish
    | @cons a e _ rest he hholds =>
        cases hholds with
        | nil =>
            refine ⟨e, ?_, ?_⟩
            · simpa [listing] using hlisting.symm
            · rw [he]
              exact hfinish
        | cons _ _ => cases hfinish
  · rintro ⟨e, rfl, he⟩
    rw [compute_postorder, he]

end Machine

end Calculator
