import Calculator.Proofs.Legibility
import Calculator.Proofs.PlainText

/-!
Plain texts of formulas. A formula that is read from a text has no closing parenthesis before a
dash, and it gets none where it is written with fewer parentheses: what ends in a number is written
so that it still does, whatever the place. So the plain text of a formula reads as the tokens it is
written from, and it is its own plain text.
-/

namespace Calculator

namespace Token

theorem eachAfter_dashBehindNumber_of_head {ts : List Token}
    (h : ts.head? ≠ some (.binary .subtract)) (before before' : Option Token) :
    eachAfter dashBehindNumber before ts = eachAfter dashBehindNumber before' ts := by
  cases ts with
  | nil => rfl
  | cons t ts =>
      have ht : dashBehindNumber before t = dashBehindNumber before' t := by
        cases t with
        | binary op =>
            cases op with
            | subtract => exact absurd rfl h
            | add | multiply | divide | power => rfl
        | number _ | func _ | leftParen | rightParen => rfl
      rw [eachAfter, eachAfter, ht]

theorem endsInNumber_append_cons (front : List Token) (t : Token) {ts : List Token} (h : ts ≠ []) :
    endsInNumber (front ++ t :: ts) = endsInNumber ts := by
  obtain ⟨u, us, rfl⟩ := List.exists_cons_of_ne_nil h
  simp [endsInNumber, List.getLast?_append, List.getLast?_cons]

end Token

namespace Grammar

open Token

theorem Derives.head_ne_subtract {c : Category} {ts : List Token} {e : Expr}
    (h : Derives c ts e) : ts.head? ≠ some (.binary .subtract) := by
  intro hhead
  obtain ⟨us, rfl⟩ := List.head?_eq_some_iff.mp hhead
  cases h.placed.1 none rfl

end Grammar

namespace Expr

open Grammar Token

theorem formulaIn_ne_nil (e : Expr) (c : Category) : e.formulaIn c ≠ [] :=
  (derives_formulaIn e.derives_formula c).ne_nil

theorem endsInNumber_formulaIn_mono {c d : Category} (hle : c.level ≤ d.level) {e : Expr}
    (h : endsInNumber (e.formulaIn d) = true) : endsInNumber (e.formulaIn c) = true := by
  by_cases hd : d.level ≤ e.category.level
  · rw [formulaIn_of_le hd] at h
    rwa [formulaIn_of_le (hle.trans hd)]
  · rw [formulaIn, decide_eq_true (Nat.not_le.mp hd), parensIf, if_pos rfl,
      endsInNumber_append_singleton] at h
    cases h

/-- A part that ends in a number ends in one as it is written in its place, too. -/
theorem endsInNumber_formulaIn {c : Category} {ts : List Token} {e : Expr} (h : Derives c ts e)
    (hends : endsInNumber ts = true) : endsInNumber (e.formulaIn c) = true := by
  induction h using Derives.inductionOn with
  | binary op hl hr ihl ihr =>
      rw [endsInNumber_append_cons _ _ hr.ne_nil] at hends
      rw [formulaIn_binary, endsInNumber_append_cons _ _ (formulaIn_ne_nil _ _)]
      exact ihr hends
  | lower d h hle ih => exact endsInNumber_formulaIn_mono hle (ih hends)
  | apply f h ih =>
      rw [← List.nil_append (Token.func f :: _), endsInNumber_append_cons _ _ h.ne_nil] at hends
      rw [formulaIn_apply, ← List.nil_append (Token.func f :: _),
        endsInNumber_append_cons _ _ (formulaIn_ne_nil _ _)]
      exact ih hends
  | number x => rfl
  | group h ih =>
      rw [endsInNumber_append_singleton] at hends
      cases hends

theorem eachAfter_dashBehindNumber_formulaIn (c : Category) (e : Expr) :
    eachAfter dashBehindNumber none (e.formulaIn c) =
      eachAfter dashBehindNumber none e.formula := by
  rw [formulaIn]
  cases decide (e.category.level < c.level) with
  | false => rfl
  | true =>
      have hhead := e.derives_formula.head_ne_subtract
      rw [parensIf, if_pos rfl, List.cons_append, eachAfter, eachAfter_append,
        eachAfter_dashBehindNumber_of_head hhead (some .leftParen) none]
      simp [eachAfter, dashBehindNumber]

/-- By induction on the derivation: if every dash of a formula stands behind a number, then so does
every dash of what its tree is written as. -/
theorem eachAfter_dashBehindNumber_formula {c : Category} {ts : List Token} {e : Expr}
    (h : Derives c ts e) (hdash : eachAfter dashBehindNumber none ts = true) :
    eachAfter dashBehindNumber none e.formula = true := by
  induction h using Derives.inductionOn with
  | @binary op ts us l r hl hr ihl ihr =>
      rw [eachAfter_append, eachAfter, Bool.and_eq_true, Bool.and_eq_true, Option.or_none,
        eachAfter_dashBehindNumber_of_head hr.head_ne_subtract _ none] at hdash
      obtain ⟨hleft, hop, hright⟩ := hdash
      have hright' := derives_formulaIn r.derives_formula (op.operandCategory .right)
      have hhead := hright'.head_ne_subtract
      have hl' :
          eachAfter dashBehindNumber none (l.formulaIn (op.operandCategory .left)) = true := by
        rw [eachAfter_dashBehindNumber_formulaIn]
        exact ihl hleft
      have hr' :
          eachAfter dashBehindNumber none (r.formulaIn (op.operandCategory .right)) = true := by
        rw [eachAfter_dashBehindNumber_formulaIn]
        exact ihr hright
      have hop' : dashBehindNumber (l.formulaIn (op.operandCategory .left)).getLast? (.binary op) =
          true := by
        cases op with
        | subtract => exact endsInNumber_formulaIn hl hop
        | add | multiply | divide | power => rfl
      rw [formula_binary, eachAfter_append, eachAfter, Option.or_none,
        eachAfter_dashBehindNumber_of_head hhead _ none, hl', hop', hr']
      rfl
  | lower d h hle ih => exact ih hdash
  | @apply f ts e h ih =>
      have hhead := (derives_formulaIn e.derives_formula .operand).head_ne_subtract
      rw [eachAfter, eachAfter_dashBehindNumber_of_head h.head_ne_subtract _ none] at hdash
      rw [formula_apply, eachAfter, eachAfter_dashBehindNumber_of_head hhead _ none,
        eachAfter_dashBehindNumber_formulaIn]
      exact ih hdash
  | number x => rfl
  | group h ih =>
      rw [List.cons_append, eachAfter, eachAfter_append, Bool.and_eq_true, Bool.and_eq_true,
        eachAfter_dashBehindNumber_of_head h.head_ne_subtract _ none] at hdash
      exact ih hdash.2.1

end Expr

namespace Formula

open Grammar

theorem tree_eq_of_tokens {text : String} {ts : List Token} {e e' : Expr}
    (h : tokens text = .ok ts) (hderives : Derives .sum ts e) (htree : tree text = .ok e') :
    e' = e := by
  have hqueue := (queue_of_tokens h hderives.ne_nil).trans (Postfix.ofFormula_of_derives hderives)
  rw [queue_of_tree htree] at hqueue
  exact Expr.postorder_injective (Except.ok.inj hqueue)

/-- The text of a tree that is read as the tokens of the tree has the tree, and is its own plain
text. -/
theorem plainText_of_tokens_formula {text plain : String} {e : Expr} (htree : tree text = .ok e)
    (h : tokens plain = .ok e.formula) : plainText plain = .ok (Token.formulaText e.formula) := by
  have hderives := e.derives_formula
  have hqueue := (queue_of_tokens h hderives.ne_nil).trans (Postfix.ofFormula_of_derives hderives)
  have hsame : tree plain = tree text := by
    unfold tree
    rw [hqueue, queue_of_tree htree]
  rw [plainText, hsame, htree]
  rfl

/-- Of a formula with a tree, the plain text has a number before each dash, is read as the tokens it
is written from, and is its own plain text. -/
theorem plainText_of_derives {text : String} {ts : List Token} {e e' : Expr}
    (htokens : tokens text = .ok ts) (hderives : Derives .sum ts e) (htree : tree text = .ok e') :
    (∀ front back, e'.formula = front ++ .binary .subtract :: back →
        Token.endsInNumber front = true) ∧
      ∃ plain, plainText text = .ok plain ∧ tokens plain = .ok e'.formula ∧
        plainText plain = .ok plain := by
  obtain rfl := tree_eq_of_tokens htokens hderives htree
  have hlegible := (Token.legible_of_tokens htokens).dashBehindNumber
  have hdash := Expr.eachAfter_dashBehindNumber_formula hderives
    (Token.eachAfter_dashBehindNumber_iff.mpr hlegible)
  refine ⟨Token.eachAfter_dashBehindNumber_iff.mp hdash, Token.formulaText e'.formula, ?_, ?_, ?_⟩
  · rw [plainText, htree]
    rfl
  · rw [tokens_formulaText_of_tree htree, if_pos hdash]
  · refine plainText_of_tokens_formula htree ?_
    rw [tokens_formulaText_of_tree htree, if_pos hdash]

/-- Parentheses around a number, around an argument and around a product are gone for good. -/
theorem plainText_of_derives_product :
    (∃ ts e, tokens "7 - ((2) * sqrt (3)) * (4 - 5)" = .ok ts ∧ Derives .sum ts e) ∧
      plainText "7 - ((2) * sqrt (3)) * (4 - 5)" = .ok "7 - 2 * sqrt 3 * (4 - 5)" ∧
      plainText "7 - 2 * sqrt 3 * (4 - 5)" = .ok "7 - 2 * sqrt 3 * (4 - 5)" := by
  have hread : ∃ ts e, tokens "7 - ((2) * sqrt (3)) * (4 - 5)" = .ok ts ∧ Derives .sum ts e := by
    obtain ⟨e, he⟩ := @exists_derives_of_ofFormula [.number 7, .binary .subtract, .leftParen,
      .leftParen, .number 2, .rightParen, .binary .multiply, .func .sqrt, .leftParen, .number 3,
      .rightParen, .rightParen, .binary .multiply, .leftParen, .number 4, .binary .subtract,
      .number 5, .rightParen] _ rfl rfl rfl
    exact ⟨_, e, by decide +kernel, he⟩
  have htree : tree "7 - ((2) * sqrt (3)) * (4 - 5)" = .ok (.binary .subtract (.number 7)
      (.binary .multiply (.binary .multiply (.number 2) (.apply .sqrt (.number 3)))
        (.binary .subtract (.number 4) (.number 5)))) := by decide +kernel
  have hplain : plainText "7 - ((2) * sqrt (3)) * (4 - 5)" = .ok "7 - 2 * sqrt 3 * (4 - 5)" := by
    decide +kernel
  refine ⟨hread, hplain, ?_⟩
  obtain ⟨ts, e, htokens, hderives⟩ := hread
  obtain ⟨_, plain, hfirst, _, hagain⟩ := plainText_of_derives htokens hderives htree
  obtain rfl := Except.ok.inj (hplain.symm.trans hfirst)
  exact hagain

end Formula

end Calculator
