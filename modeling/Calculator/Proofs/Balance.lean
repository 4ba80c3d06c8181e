import Calculator.Proofs.Conservation
import Calculator.Proofs.Faults

/-!
Parentheses that do not match. The yard has as many stretches open as parentheses are open among the
tokens before, whatever the operators between them did to what waits. So it misses an open
parenthesis exactly where more have been closed than opened, and a closing one exactly if some are
open at the end. The parentheses of a text are those of its tokens, and all else that can be wrong
with the tokens comes later: every answer about the text names the mismatch.
-/

namespace Calculator

/-- Among some characters, with `opened` parentheses open before them, more parentheses are closed
at some point than have been opened. -/
def Overcloses (opened : Nat) (cs : List Char) : Prop :=
  ∃ front, front <+: cs ∧ opened + front.count '(' < front.count ')'

theorem not_overcloses_nil (opened : Nat) : ¬Overcloses opened [] := by
  rintro ⟨front, hfront, hcount⟩
  obtain rfl := List.prefix_nil.mp hfront
  simp at hcount

theorem overcloses_leftParen {opened : Nat} {cs : List Char} :
    Overcloses opened ('(' :: cs) ↔ Overcloses (opened + 1) cs := by
  constructor
  · rintro ⟨front, hfront, hcount⟩
    rcases List.prefix_cons_iff.mp hfront with rfl | ⟨rest, rfl, hrest⟩
    · simp at hcount
    · refine ⟨rest, hrest, ?_⟩
      simp at hcount
      omega
  · rintro ⟨rest, hrest, hcount⟩
    refine ⟨'(' :: rest, List.cons_prefix_cons.mpr ⟨rfl, hrest⟩, ?_⟩
    simp
    omega

theorem overcloses_zero_rightParen (cs : List Char) : Overcloses 0 (')' :: cs) :=
  ⟨[')'], List.cons_prefix_cons.mpr ⟨rfl, List.nil_prefix⟩, by decide⟩

theorem overcloses_succ_rightParen {opened : Nat} {cs : List Char} :
    Overcloses (opened + 1) (')' :: cs) ↔ Overcloses opened cs := by
  constructor
  · rintro ⟨front, hfront, hcount⟩
    rcases List.prefix_cons_iff.mp hfront with rfl | ⟨rest, rfl, hrest⟩
    · simp at hcount
    · refine ⟨rest, hrest, ?_⟩
      simp at hcount
      omega
  · rintro ⟨rest, hrest, hcount⟩
    refine ⟨')' :: rest, List.cons_prefix_cons.mpr ⟨rfl, hrest⟩, ?_⟩
    simp
    omega

def isParenChar (c : Char) : Bool := c == '(' || c == ')'

/-- Only parentheses count. -/
theorem overcloses_filter {opened : Nat} {cs : List Char} :
    Overcloses opened (cs.filter isParenChar) ↔ Overcloses opened cs := by
  have hcount (front : List Char) :
      (front.filter isParenChar).count '(' = front.count '(' ∧
        (front.filter isParenChar).count ')' = front.count ')' :=
    ⟨List.count_filter rfl, List.count_filter rfl⟩
  constructor
  · rintro ⟨_, ⟨rest, hsplit⟩, hlt⟩
    obtain ⟨front, back, rfl, rfl, _⟩ := List.filter_eq_append_iff.mp hsplit.symm
    rw [(hcount front).1, (hcount front).2] at hlt
    exact ⟨front, List.prefix_append front back, hlt⟩
  · rintro ⟨front, hfront, hlt⟩
    rw [← (hcount front).1, ← (hcount front).2] at hlt
    exact ⟨front.filter isParenChar, hfront.filter isParenChar, hlt⟩

namespace Token

/-- The parentheses among some tokens, as characters. -/
def parens (ts : List Token) : List Char := (ts.filter isParenthesis).flatMap chars

theorem parens_append (ts us : List Token) : parens (ts ++ us) = parens ts ++ parens us := by
  simp [parens]

theorem filter_dropWhile {p : Char → Bool} (h : ∀ c, p c = true → isParenChar c = false)
    (cs : List Char) : (cs.dropWhile p).filter isParenChar = cs.filter isParenChar := by
  have htake : (cs.takeWhile p).filter isParenChar = [] := by
    rw [List.filter_eq_nil_iff]
    intro c hc
    simp [h c (List.all_eq_true.mp List.all_takeWhile c hc)]
  conv_rhs => rw [← List.takeWhile_append_dropWhile (p := p) (l := cs)]
  rw [List.filter_append, htake, List.nil_append]

theorem isParenChar_of_isNumeral {c : Char} (h : isNumeral c = true) : isParenChar c = false := by
  rw [Bool.eq_false_iff]
  intro hparen
  simp only [isParenChar, Bool.or_eq_true, beq_iff_eq] at hparen
  rcases hparen with rfl | rfl <;> cases h

theorem isParenChar_of_isLetter {c : Char} (h : isLetter c = true) : isParenChar c = false := by
  rw [isParenChar, ne_of_isLetter h (by decide), ne_of_isLetter h (by decide), Bool.or_self]

/-- The characters that a token is read from have its parentheses. -/
theorem filter_of_first {afterNumber : Bool} {c : Char} {cs rest : List Char} {t : Token}
    (h : first afterNumber c cs = .ok (t, rest)) :
    (c :: cs).filter isParenChar = parens [t] ++ rest.filter isParenChar := by
  cases start afterNumber c with
  | literal hliteral =>
      rw [first_literal hliteral] at h
      obtain ⟨u, hread, heq⟩ := Fault.exists_of_map_eq_ok h
      obtain ⟨rfl, rfl⟩ := Prod.mk.inj heq
      obtain ⟨x, rfl, _⟩ := ofLiteral_eq_ok hread
      have hc : isParenChar c = false := by
        rw [Bool.or_eq_true, Bool.and_eq_true, beq_iff_eq] at hliteral
        rcases hliteral with hnumeral | ⟨rfl, _⟩
        · exact isParenChar_of_isNumeral hnumeral
        · decide
      rw [List.filter_cons_of_neg (by simp [hc]),
        filter_dropWhile fun _ => isParenChar_of_isNumeral]
      rfl
  | name hletter =>
      rw [first_name hletter] at h
      obtain ⟨u, hread, heq⟩ := Fault.exists_of_map_eq_ok h
      obtain ⟨rfl, rfl⟩ := Prod.mk.inj heq
      obtain ⟨f, rfl⟩ := ofName_eq_ok hread
      rw [List.filter_cons_of_neg (by simp [isParenChar_of_isLetter hletter]),
        filter_dropWhile fun _ => isParenChar_of_isLetter]
      rfl
  | leftParen | rightParen =>
      obtain ⟨rfl, rfl⟩ := Prod.mk.inj (Except.ok.inj h)
      rfl
  | symbol op hop =>
      rw [first_symbol afterNumber op hop] at h
      obtain ⟨rfl, rfl⟩ := Prod.mk.inj (Except.ok.inj h)
      cases op <;> rfl
  | nothing hnothing =>
      rw [first_nothing hnothing] at h
      cases h

theorem isParenChar_of_isBlank {c : Char} (h : Text.isBlank c = true) : isParenChar c = false := by
  rw [Bool.eq_false_iff]
  intro hparen
  simp only [isParenChar, Bool.or_eq_true, beq_iff_eq] at hparen
  rcases hparen with rfl | rfl <;> cases h

/-- The parentheses of a text are those of its tokens, in the same order. -/
theorem filter_of_scanAfter {afterNumber : Bool} {cs : List Char} {ts : List Token}
    (h : scanAfter afterNumber cs = .ok ts) : cs.filter isParenChar = parens ts := by
  fun_induction scanAfter afterNumber cs generalizing ts with
  | case1 =>
      obtain rfl := Except.ok.inj h
      rfl
  | case2 afterNumber c cs hblank ih =>
      rw [List.filter_cons_of_neg (by simp [isParenChar_of_isBlank hblank])]
      exact ih h
  | case3 => cases h
  | case4 afterNumber c cs hblank t rest hfirst hlength ih =>
      obtain ⟨us, hrest, rfl⟩ := Fault.exists_of_map_eq_ok h
      rw [filter_of_first hfirst, ih hrest, ← parens_append, List.singleton_append]

end Token

namespace Postfix.Yard

open Token (parens)

/-- The tokens fail to pass exactly where more parentheses are closed than opened. -/
theorem run_eq_error_iff {yard : Yard} {ts : List Token} {fault : Fault} :
    yard.run ts = .error fault ↔
      fault = .missingOpen ∧ Overcloses yard.outer.length (parens ts) := by
  induction ts generalizing yard with
  | nil => simp [run, parens, not_overcloses_nil]
  | cons t ts ih =>
      cases t with
      | number _ | binary _ | func _ =>
          simp only [run, feed, Fault.map_eq_error, ih]
          rfl
      | leftParen =>
          have hparens : parens (.leftParen :: ts) = '(' :: parens ts := rfl
          simp only [run, feed, Fault.map_eq_error, ih, hparens, overcloses_leftParen,
            List.length_cons]
      | rightParen =>
          have hparens : parens (.rightParen :: ts) = ')' :: parens ts := rfl
          obtain ⟨inner, outer⟩ := yard
          cases outer with
          | nil =>
              simp only [run, feed, hparens, List.length_nil, overcloses_zero_rightParen, and_true,
                Except.error.injEq]
              exact eq_comm
          | cons around outer =>
              simp only [run, feed, Fault.map_eq_error, ih, hparens, List.length_cons,
                overcloses_succ_rightParen]

/-- As many stretches are open as parentheses are. -/
theorem length_outer_of_run {yard last : Yard} {ts passed : List Token}
    (h : yard.run ts = .ok (passed, last)) :
    last.outer.length + (parens ts).count ')' = yard.outer.length + (parens ts).count '(' := by
  induction ts generalizing yard passed with
  | nil =>
      obtain ⟨rfl, rfl⟩ := Prod.mk.inj (Except.ok.inj h)
      rfl
  | cons t ts ih =>
      obtain ⟨now, next, later, hfeed, hlater, rfl⟩ := exists_of_run_cons h
      have hrest := ih hlater
      cases t with
      | number _ | binary _ | func _ =>
          obtain ⟨rfl, rfl⟩ := Prod.mk.inj (Except.ok.inj hfeed)
          exact hrest
      | leftParen =>
          have hparens : parens (.leftParen :: ts) = '(' :: parens ts := rfl
          obtain ⟨rfl, rfl⟩ := Prod.mk.inj (Except.ok.inj hfeed)
          simp only [hparens, List.count_cons_self, List.length_cons,
            List.count_cons_of_ne (a := ')') (b := '(') (by decide)] at hrest ⊢
          omega
      | rightParen =>
          have hparens : parens (.rightParen :: ts) = ')' :: parens ts := rfl
          obtain ⟨inner, outer⟩ := yard
          cases outer with
          | nil => cases hfeed
          | cons around outer =>
              obtain ⟨rfl, rfl⟩ := Prod.mk.inj (Except.ok.inj hfeed)
              simp only [hparens, List.count_cons_self, List.length_cons,
                List.count_cons_of_ne (a := '(') (b := ')') (by decide)] at hrest ⊢
              omega

end Postfix.Yard

/-- What an answer about some characters says of their parentheses: that there are too many closing
ones exactly if there are at some point, and that there are too few exactly if there are at the
end. -/
structure NamesMismatch {α : Type} (cs : List Char) (answer : Except Fault α) : Prop where
  missingOpen : answer = .error .missingOpen ↔ Overcloses 0 cs
  missingClose : answer = .error .missingClose ↔ ¬Overcloses 0 cs ∧ cs.count ')' < cs.count '('

theorem Postfix.ofFormula_cases (ts : List Token) :
    (ofFormula ts = .error .missingOpen ∧ Overcloses 0 (Token.parens ts)) ∨
      ¬Overcloses 0 (Token.parens ts) ∧
        ((ofFormula ts = .error .missingClose ∧
            (Token.parens ts).count ')' < (Token.parens ts).count '(') ∨
          ∃ queue, ofFormula ts = .ok queue ∧
            (Token.parens ts).count '(' = (Token.parens ts).count ')') := by
  rw [ofFormula, Yard.drain_eq_run]
  cases hrun : Yard.empty.run ts with
  | error fault =>
      obtain ⟨rfl, hover⟩ := Yard.run_eq_error_iff.mp hrun
      exact .inl ⟨rfl, hover⟩
  | ok mid =>
      obtain ⟨passed, last⟩ := mid
      have hbalanced : ¬Overcloses 0 (Token.parens ts) := by
        intro hover
        have hfails : Yard.empty.run ts = .error .missingOpen :=
          Yard.run_eq_error_iff.mpr ⟨rfl, hover⟩
        rw [hrun] at hfails
        cases hfails
      have hcount := Yard.length_outer_of_run hrun
      obtain ⟨inner, outer⟩ := last
      refine .inr ⟨hbalanced, ?_⟩
      cases outer with
      | nil =>
          simp only [Yard.empty, List.length_nil, Nat.zero_add] at hcount
          exact .inr ⟨_, rfl, hcount.symm⟩
      | cons around outer =>
          simp only [Yard.empty, List.length_nil, List.length_cons] at hcount
          exact .inl ⟨rfl, by omega⟩

namespace Formula

/-- The queue of a text is that of its tokens, if these match, and names the mismatch otherwise. -/
theorem queue_cases {text : String} {ts : List Token} (h : tokens text = .ok ts) :
    (queue text = .error .missingOpen ∧ Overcloses 0 text.toList) ∨
      ¬Overcloses 0 text.toList ∧
        ((queue text = .error .missingClose ∧ text.toList.count ')' < text.toList.count '(') ∨
          ∃ queued, queue text = .ok queued ∧
            text.toList.count '(' = text.toList.count ')') := by
  have hparens : text.toList.filter isParenChar = Token.parens ts := Token.filter_of_scanAfter h
  have hover : Overcloses 0 (Token.parens ts) ↔ Overcloses 0 text.toList :=
    hparens ▸ overcloses_filter
  have hopen : (Token.parens ts).count '(' = text.toList.count '(' :=
    hparens ▸ List.count_filter rfl
  have hclose : (Token.parens ts).count ')' = text.toList.count ')' :=
    hparens ▸ List.count_filter rfl
  rw [← hover, ← hopen, ← hclose]
  cases hblank : isBlank text with
  | true =>
      obtain rfl := Except.ok.inj ((tokens_of_isBlank hblank).symm.trans h)
      exact .inr ⟨not_overcloses_nil 0, .inr ⟨_, by rw [queue, if_pos hblank], rfl⟩⟩
  | false =>
      have hqueue : queue text = Postfix.ofFormula ts := by
        rw [queue, hblank, h]
        rfl
      rw [hqueue]
      exact Postfix.ofFormula_cases ts

/-- An answer that is got from the queue and fails for no parentheses of its own names those of the
text. -/
theorem namesMismatch_bind {α : Type} {text : String} {ts : List Token} (h : tokens text = .ok ts)
    {answer : List Token → Except Fault α}
    (hanswer : ∀ queued fault, answer queued = .error fault → fault.OfQueue queued) :
    NamesMismatch text.toList ((queue text).bind answer) := by
  rcases queue_cases h with ⟨hqueue, hover⟩ | ⟨hover, ⟨hqueue, hlt⟩ | ⟨queued, hqueue, heq⟩⟩
  · rw [hqueue]
    exact ⟨by simp [Except.bind, hover], by simp [Except.bind, hover]⟩
  · rw [hqueue]
    exact ⟨by simp [Except.bind, hover], by simp [Except.bind, hover, hlt]⟩
  · rw [hqueue, Except.bind]
    have hother (fault : Fault) (hfault : fault.OfParentheses) :
        answer queued ≠ .error fault := by
      intro herror
      cases hanswer queued fault herror <;> cases hfault
    refine ⟨?_, ?_⟩
    · simp [hother _ .missingOpen, hover]
    · simp [hother _ .missingClose, heq]

/-- Of a text with tokens, the queue, the value, the tree and either text name a mismatch of the
parentheses exactly if there is one, whatever else is wrong; and there is a queue exactly if there
is none. -/
theorem parentheses_of_tokens {text : String} {ts : List Token} (h : tokens text = .ok ts) :
    ((∃ queued, queue text = .ok queued) ↔
        ¬Overcloses 0 text.toList ∧ text.toList.count '(' = text.toList.count ')') ∧
      NamesMismatch text.toList (queue text) ∧ NamesMismatch text.toList (value text) ∧
      NamesMismatch text.toList (tree text) ∧ NamesMismatch text.toList (queueText text) ∧
      NamesMismatch text.toList (plainText text) := by
  have hqueue : queue text = (queue text).bind .ok := by cases queue text <;> rfl
  have hqueueText : queueText text =
      (queue text).bind fun queued => .ok (Token.queueText queued) := rfl
  refine ⟨?_, ?_, ?_, ?_, ?_, ?_⟩
  · rcases queue_cases h with ⟨hq, hover⟩ | ⟨hover, ⟨hq, hlt⟩ | ⟨queued, hq, heq⟩⟩
    · simp [hq, hover]
    · simp [hq, Nat.ne_of_gt hlt]
    · simp [hq, hover, heq]
  · rw [hqueue]
    exact namesMismatch_bind h fun queued fault herror => nomatch herror
  · rw [value_eq_bind_queue]
    exact namesMismatch_bind h fun queued fault => Postfix.ofQueue_of_valueOn
  · exact namesMismatch_bind h fun queued fault => Expr.ofQueue_of_ofPostfixOn
  · rw [hqueueText]
    exact namesMismatch_bind h fun queued fault herror => nomatch herror
  · rw [plainText_eq_bind_queue]
    exact namesMismatch_bind h fun queued fault herror =>
      Expr.ofQueue_of_ofPostfixOn (Fault.map_eq_error.mp herror)

/-- A logarithm outside its domain and a power without an exponent, but a parenthesis too many is
closed before both. -/
theorem parentheses_of_tokens_unopened :
    value "log(-1)) * (2 ^" = .error .missingOpen ∧
      tree "log(-1)) * (2 ^" = .error .missingOpen := by
  have htokens : tokens "log(-1)) * (2 ^" = .ok [.func .log, .leftParen, .number (-1), .rightParen,
      .rightParen, .binary .multiply, .leftParen, .number 2, .binary .power] := by decide +kernel
  have hover : Overcloses 0 "log(-1)) * (2 ^".toList :=
    ⟨"log(-1))".toList, by decide, by decide⟩
  obtain ⟨_, _, hvalue, htree, _, _⟩ := parentheses_of_tokens htokens
  exact ⟨hvalue.missingOpen.mpr hover, htree.missingOpen.mpr hover⟩

end Formula

end Calculator
