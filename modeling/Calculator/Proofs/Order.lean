import Calculator.Proofs.Conservation
import Calculator.Proofs.Faults

/-!
The order in which tokens come off the stack. A number comes out as soon as it is read, so whatever
stands before it in the queue was read before it: numbers keep their order, and no operation comes
out before a number that it was read behind. And since no parenthesis comes out at all, no answer
about a text ever meets one in a queue.
-/

namespace Calculator

namespace Postfix

/-- Whatever stands before a number has an earlier place. -/
def Ordered (placed : List (Token × Nat)) : Prop :=
  placed.Pairwise fun a b => b.1.isNumber = true → a.2 < b.2

theorem ordered_of_no_number {placed : List (Token × Nat)}
    (h : ∀ t ∈ placed, t.1.isNumber = false) : Ordered placed := by
  refine List.pairwise_of_forall_mem_list ?_
  intro a _ b hb hnumber
  rw [h b hb] at hnumber
  cases hnumber

namespace Stack

variable {stack next : Stack (Token × Nat)} {t : Token × Nat} {passed : List (Token × Nat)}

theorem isNumber_of_waiting (hstack : Waiting stack) {u : Token × Nat} (hu : u ∈ stack) :
    u.1.isNumber = false :=
  Token.isNumber_of_waits (hstack u hu)

theorem Fed.ordered (h : Fed stack t passed next) (hstack : Waiting stack) : Ordered passed := by
  cases h with
  | number _ => exact List.pairwise_singleton _ _
  | func _ | leftParen _ => exact .nil
  | binary ht hsplit hpassed =>
      exact ordered_of_no_number fun u hu =>
        isNumber_of_waiting hstack (hsplit ▸ List.mem_append_left _ hu)
  | rightParen ht hparen hsplit hpassed =>
      exact ordered_of_no_number fun u hu =>
        isNumber_of_waiting hstack (hsplit ▸ List.mem_append_left _ hu)

/-- By induction on the tokens, of which `place` have been read before: what has come out until then
has earlier places than all numbers that are still to come. -/
theorem ordered_of_run {last : Stack (Token × Nat)} {ts : List Token} {place : Nat}
    (hstack : Waiting stack) (hearlier : ∀ u ∈ stack, u.2 < place)
    (h : stack.run (ts.zipIdx place) = .ok (passed, last)) : Ordered passed := by
  induction ts generalizing stack place passed with
  | nil =>
      obtain ⟨rfl, _⟩ := Prod.mk.inj (Except.ok.inj h)
      exact .nil
  | cons t ts ih =>
      rw [List.zipIdx_cons] at h
      obtain ⟨now, next, later, hfeed, hlater, rfl⟩ := exists_of_run_cons h
      have hfed := fed_of_feed hfeed
      have hnext := hfed.waiting hstack
      have hread (u : Token × Nat) (hu : u ∈ now ++ next) : u.2 < place + 1 := by
        rcases hfed.eq_or_mem hu with rfl | hmem
        · exact Nat.lt_succ_self place
        · exact Nat.lt_succ_of_lt (hearlier u hmem)
      have hrest := ih hnext (fun u hu => hread u (List.mem_append_right now hu)) hlater
      refine List.pairwise_append.mpr ⟨hfed.ordered hstack, hrest, ?_⟩
      intro a ha b hb hnumber
      have hplace : place + 1 ≤ b.2 := by
        have hmem := (perm_of_run hnext hlater).subset (List.mem_append_left _ hb)
        rcases List.mem_append.mp hmem with hmem | hmem
        · exact List.le_snd_of_mem_zipIdx (List.mem_filter.mp hmem).1
        · rw [isNumber_of_waiting hnext (List.mem_filter.mp hmem).1] at hnumber
          cases hnumber
      exact Nat.lt_of_lt_of_le (hread a (List.mem_append_left _ ha)) hplace

end Stack

theorem ordered_of_placedQueue {ts : List Token} {placed : List (Token × Nat)}
    (h : placedQueue ts = .ok placed) : Ordered placed := by
  obtain ⟨⟨passed, last⟩, hrun, h⟩ := Fault.exists_of_bind_eq_ok h
  obtain ⟨rest, hclose, rfl⟩ := Fault.exists_of_map_eq_ok h
  obtain ⟨rfl, _⟩ := Stack.close_eq_ok hclose
  have hlast := Stack.waiting_of_run Stack.waiting_nil hrun
  have hnone : ∀ u ∈ rest, u.1.isNumber = false := fun u hu => Stack.isNumber_of_waiting hlast hu
  refine List.pairwise_append.mpr ⟨?_, ordered_of_no_number hnone, ?_⟩
  · exact Stack.ordered_of_run Stack.waiting_nil (fun _ hu => nomatch hu) hrun
  · intro a _ b hb hnumber
    rw [hnone b hb] at hnumber
    cases hnumber

/-- The queue is the tokens that are no parentheses, in another order that leaves the numbers in
theirs and puts no operation before a number that it was read behind. The places say where each
token of the queue was read. -/
structure Reordered (ts queue : List Token) (placed : List (Token × Nat)) : Prop where
  no_parenthesis : ∀ t ∈ queue, t.isParenthesis = false
  perm : queue.Perm (ts.filter (!·.isParenthesis))
  numbers : queue.filter Token.isNumber = ts.filter Token.isNumber
  tokens : placed.map Prod.fst = queue
  places : placed.Perm (ts.zipIdx.filter (!·.1.isParenthesis))
  ordered : Ordered placed

theorem exists_reordered {ts queue : List Token} (h : ofFormula ts = .ok queue) :
    ∃ placed, placedQueue ts = .ok placed ∧ Reordered ts queue placed := by
  obtain ⟨placed, hplaced, htokens, hplaces⟩ := exists_placedQueue h
  have hperm := perm_of_ofFormula h
  refine ⟨placed, hplaced, ?_, hperm, filter_isNumber_of_ofFormula h, htokens, hplaces, ?_⟩
  · intro t ht
    have hmem := hperm.subset ht
    rw [List.mem_filter, Bool.not_eq_true'] at hmem
    exact hmem.2
  · exact ordered_of_placedQueue hplaced

end Postfix

namespace Formula

theorem isParenthesis_of_mem_queue {text : String} {queued : List Token}
    (h : queue text = .ok queued) {t : Token} (ht : t ∈ queued) : t.isParenthesis = false := by
  unfold queue at h
  split at h
  · obtain rfl := Except.ok.inj h
    rw [List.mem_singleton.mp ht]
    rfl
  · obtain ⟨ts, _, horder⟩ := Fault.exists_of_bind_eq_ok h
    obtain ⟨_, _, hreordered⟩ := Postfix.exists_reordered horder
    exact hreordered.no_parenthesis t ht

/-- No answer that is got from the queue of a text meets a parenthesis there. -/
theorem bind_queue_ne_strayParenthesis {α : Type} (text : String)
    {answer : List Token → Except Fault α}
    (hanswer : ∀ queued fault, answer queued = .error fault → fault.OfQueue queued) :
    (queue text).bind answer ≠ .error .strayParenthesis := by
  intro h
  cases hqueue : queue text with
  | error fault =>
      rw [hqueue] at h
      obtain rfl := Except.error.inj h
      rcases fault_of_queue hqueue with hfault | hfault <;> cases hfault
  | ok queued =>
      rw [hqueue] at h
      cases hanswer queued _ h with
      | strayParenthesis hmem hparen =>
          rw [isParenthesis_of_mem_queue hqueue hmem] at hparen
          cases hparen

/-- Reordering keeps every token but the parentheses, each once, the numbers in their order and
every operation behind the numbers before it. So no value and no tree of a text fails at a
parenthesis. -/
theorem reordered_and_ne_strayParenthesis :
    (∀ ts queue, Postfix.ofFormula ts = .ok queue →
        ∃ placed, Postfix.placedQueue ts = .ok placed ∧ Postfix.Reordered ts queue placed) ∧
      ∀ text, value text ≠ .error .strayParenthesis ∧ tree text ≠ .error .strayParenthesis ∧
        plainText text ≠ .error .strayParenthesis := by
  refine ⟨fun ts queue => Postfix.exists_reordered, ?_⟩
  intro text
  refine ⟨?_, ?_, ?_⟩
  · rw [value_eq_bind_queue]
    exact bind_queue_ne_strayParenthesis text fun queued fault => Postfix.ofQueue_of_valueOn
  · exact bind_queue_ne_strayParenthesis text fun queued fault => Expr.ofQueue_of_ofPostfixOn
  · rw [plainText_eq_bind_queue]
    exact bind_queue_ne_strayParenthesis text fun queued fault herror =>
      Expr.ofQueue_of_ofPostfixOn (Fault.map_eq_error.mp herror)

/-- No formula, but reordered all the same: the difference leaves its parentheses, and the root
waits for the sum. -/
theorem reordered_misplaced :
    ∃ placed, Postfix.placedQueue [.func .sqrt, .number 2, .number 3, .leftParen, .binary .subtract,
        .rightParen, .binary .add] = .ok placed ∧
      Postfix.Reordered [.func .sqrt, .number 2, .number 3, .leftParen, .binary .subtract,
          .rightParen, .binary .add]
        [.number 2, .number 3, .binary .subtract, .func .sqrt, .binary .add] placed :=
  reordered_and_ne_strayParenthesis.1 _ _ rfl

end Formula

end Calculator
