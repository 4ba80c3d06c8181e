import Calculator.Proofs.Stack

/-!
Tokens with their places. Two tokens of one kind look alike in a queue, so the stack is run on
tokens that carry the place where they are read. Only operations and open parentheses ever wait on
it, and no parenthesis passes; so every token that is no parenthesis comes out once.
-/

namespace Calculator

/-- Whether a token waits on the stack once it has been taken. -/
def Token.waits : Token → Bool
  | binary _ | func _ | leftParen => true
  | number _ | rightParen => false

theorem Token.isNumber_of_waits {t : Token} (h : t.waits = true) : t.isNumber = false := by
  cases t with
  | number _ => cases h
  | binary _ | func _ | leftParen | rightParen => rfl

theorem Token.isParenthesis_of_waits {t : Token} (h : t.waits = true) (hopen : t ≠ leftParen) :
    t.isParenthesis = false := by
  cases t with
  | leftParen => exact absurd rfl hopen
  | rightParen => cases h
  | number _ | binary _ | func _ => rfl

namespace Postfix

open HasToken (token)
open scoped List

namespace Stack

variable {τ : Type} [HasToken τ] {stack next : Stack τ} {t : τ} {passed : List τ}

/-- Only tokens that wait are on the stack. -/
def Waiting (stack : Stack τ) : Prop := ∀ u ∈ stack, (token u).waits = true

theorem waiting_nil : Waiting ([] : Stack τ) := fun _ hu => nomatch hu

/-- The tokens that are no parentheses. -/
def withoutParens (ts : List τ) : List τ := ts.filter fun t => !(token t).isParenthesis

theorem withoutParens_append (ts us : List τ) :
    withoutParens (ts ++ us) = withoutParens ts ++ withoutParens us := List.filter_append ..

theorem withoutParens_eq_self {ts : List τ} (h : ∀ t ∈ ts, (token t).isParenthesis = false) :
    withoutParens ts = ts :=
  List.filter_eq_self.mpr fun t ht => by rw [h t ht]; rfl

theorem isParenthesis_of_yieldsTo {op : BinaryOp} (h : yieldsTo op t = true) :
    (token t).isParenthesis = false := by
  rw [yieldsTo] at h
  cases ht : token t with
  | leftParen | rightParen => rw [ht] at h; cases h
  | number _ | binary _ | func _ => rfl

/-- What passes and what is on the stack then is the token that is taken or was there before. -/
theorem Fed.eq_or_mem (h : Fed stack t passed next) {u : τ} (hu : u ∈ passed ++ next) :
    u = t ∨ u ∈ stack := by
  cases h with
  | number ht => simpa using hu
  | func ht | leftParen ht => simpa using hu
  | binary ht hsplit hpassed =>
      rw [hsplit]
      rcases List.mem_append.mp hu with hu | hu
      · exact .inr (List.mem_append_left _ hu)
      · exact (List.mem_cons.mp hu).imp id (List.mem_append_right passed)
  | rightParen ht hparen hsplit hpassed =>
      rw [hsplit]
      rcases List.mem_append.mp hu with hu | hu
      · exact .inr (List.mem_append_left _ hu)
      · exact .inr (List.mem_append_right passed (List.mem_cons_of_mem _ hu))

theorem Fed.waiting (h : Fed stack t passed next) (hstack : Waiting stack) : Waiting next := by
  intro u hu
  rcases h.eq_or_mem (List.mem_append_right passed hu) with rfl | hmem
  · cases h with
    | func ht | leftParen ht | binary ht _ _ => rw [ht]; rfl
    | number ht => exact hstack _ hu
    | rightParen ht hparen hsplit hpassed => exact hstack _ (hsplit ▸ by simp [hu])
  · exact hstack u hmem

/-- No parenthesis passes. -/
theorem Fed.isParenthesis (h : Fed stack t passed next) (hstack : Waiting stack) :
    ∀ u ∈ passed, (token u).isParenthesis = false := by
  cases h with
  | number ht => exact List.forall_mem_singleton.mpr (by rw [ht]; rfl)
  | func _ | leftParen _ => exact fun u hu => nomatch hu
  | binary ht hsplit hpassed => exact fun u hu => isParenthesis_of_yieldsTo (hpassed u hu)
  | rightParen ht hparen hsplit hpassed =>
      intro u hu
      have hmem : u ∈ stack := hsplit ▸ List.mem_append_left _ hu
      exact Token.isParenthesis_of_waits (hstack u hmem) (hpassed u hu)

theorem Fed.perm (h : Fed stack t passed next) (hstack : Waiting stack) :
    (passed ++ withoutParens next).Perm (withoutParens [t] ++ withoutParens stack) := by
  have hpassing := withoutParens_eq_self (h.isParenthesis hstack)
  cases h with
  | number ht => rw [hpassing]
  | func _ | leftParen _ => exact .of_eq (withoutParens_append [t] stack)
  | @binary op passed left ht hsplit hpassed =>
      rw [hsplit, withoutParens_append, hpassing, ← List.singleton_append, withoutParens_append]
      exact List.perm_append_comm_assoc ..
  | @rightParen paren passed left ht hparen hsplit hpassed =>
      have htaken : withoutParens [t] = [] := by simp [withoutParens, ht, Token.isParenthesis]
      have hopen : withoutParens [paren] = [] := by
        simp [withoutParens, hparen, Token.isParenthesis]
      rw [hsplit, htaken, withoutParens_append, hpassing, ← List.singleton_append,
        withoutParens_append, hopen]
      exact .refl _

theorem waiting_of_run {last : Stack τ} {ts : List τ} (hstack : Waiting stack)
    (h : stack.run ts = .ok (passed, last)) : Waiting last := by
  induction ts generalizing stack passed with
  | nil =>
      obtain ⟨_, rfl⟩ := Prod.mk.inj (Except.ok.inj h)
      exact hstack
  | cons t ts ih =>
      obtain ⟨now, next, later, hfeed, hlater, _⟩ := exists_of_run_cons h
      exact ih ((fed_of_feed hfeed).waiting hstack) hlater

/-- What passes and what waits in the end, without the open parentheses, is what is taken and what
waited before. -/
theorem perm_of_run {last : Stack τ} {ts : List τ} (hstack : Waiting stack)
    (h : stack.run ts = .ok (passed, last)) :
    (passed ++ withoutParens last).Perm (withoutParens ts ++ withoutParens stack) := by
  induction ts generalizing stack passed with
  | nil =>
      obtain ⟨rfl, rfl⟩ := Prod.mk.inj (Except.ok.inj h)
      exact .refl _
  | cons t ts ih =>
      obtain ⟨now, next, later, hfeed, hlater, rfl⟩ := exists_of_run_cons h
      have hfed := fed_of_feed hfeed
      have hrest := ih (hfed.waiting hstack) hlater
      rw [← List.singleton_append, withoutParens_append, List.append_assoc]
      calc now ++ (later ++ withoutParens last)
        _ ~ now ++ (withoutParens ts ++ withoutParens next) := hrest.append_left now
        _ ~ withoutParens ts ++ (now ++ withoutParens next) := List.perm_append_comm_assoc ..
        _ ~ withoutParens ts ++ (withoutParens [t] ++ withoutParens stack) :=
          (hfed.perm hstack).append_left _
        _ ~ withoutParens [t] ++ (withoutParens ts ++ withoutParens stack) :=
          List.perm_append_comm_assoc ..
        _ = withoutParens [t] ++ withoutParens ts ++ withoutParens stack :=
          (List.append_assoc ..).symm

theorem close_eq_ok {queue : List τ} (h : stack.close = .ok queue) :
    queue = stack ∧ ∀ u ∈ stack, (token u).isParenthesis = false := by
  induction stack generalizing queue with
  | nil => exact ⟨(Except.ok.inj h).symm, fun u hu => nomatch hu⟩
  | cons t stack ih =>
      rw [close] at h
      split at h
      · cases h
      · next ht =>
        obtain ⟨rest, hrest, rfl⟩ := Fault.exists_of_map_eq_ok h
        obtain ⟨rfl, hstack⟩ := ih hrest
        exact ⟨rfl, List.forall_mem_cons.mpr ⟨by simpa using ht, hstack⟩⟩

/-- All that is taken but the parentheses passes, in some order. -/
theorem perm_of_queue {ts queued : List τ} (h : queue ts = .ok queued) :
    queued.Perm (withoutParens ts) := by
  obtain ⟨⟨passed, last⟩, hrun, h⟩ := Fault.exists_of_bind_eq_ok h
  obtain ⟨rest, hclose, rfl⟩ := Fault.exists_of_map_eq_ok h
  obtain ⟨rfl, hparens⟩ := close_eq_ok hclose
  have hperm := perm_of_run waiting_nil hrun
  rwa [withoutParens_eq_self hparens, withoutParens, withoutParens, List.filter_nil,
    List.append_nil] at hperm

end Stack

/-- The queue of some tokens, each with the place where it is read. -/
def placedQueue (ts : List Token) : Except Fault (List (Token × Nat)) := Stack.queue ts.zipIdx

theorem ofFormula_eq_map_placedQueue (ts : List Token) :
    ofFormula ts = (placedQueue ts).map (·.map Prod.fst) := by
  have hqueue := Stack.queue_map (g := Prod.fst) (fun _ => rfl) ts.zipIdx
  rw [List.zipIdx_map_fst] at hqueue
  rw [ofFormula_eq_queue, hqueue, placedQueue]

/-- A queue has its places: those of the tokens that are no parentheses, each once. -/
theorem exists_placedQueue {ts queue : List Token} (h : ofFormula ts = .ok queue) :
    ∃ placed, placedQueue ts = .ok placed ∧ placed.map Prod.fst = queue ∧
      placed.Perm (ts.zipIdx.filter (!·.1.isParenthesis)) := by
  rw [ofFormula_eq_map_placedQueue] at h
  obtain ⟨placed, hplaced, hqueue⟩ := Fault.exists_of_map_eq_ok h
  exact ⟨placed, hplaced, hqueue, Stack.perm_of_queue hplaced⟩

end Postfix

end Calculator
