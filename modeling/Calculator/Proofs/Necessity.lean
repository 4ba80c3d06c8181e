import Calculator.Proofs.Balance
import Calculator.Proofs.Parentheses
import Calculator.Proofs.Placement

/-!
The parentheses that a tree is written with are all needed. No tokens that stand for the tree have
fewer of them: a part whose place asks for a higher level than its root has is a group in any
derivation. Taking away two parentheses that match leaves a formula, since its tokens still follow
each other, and so that formula has to stand for another tree.
-/

namespace Calculator

/-- Behind characters that leave `left` parentheses open, what follows decides. -/
theorem overcloses_append {opened left : Nat} {cs : List Char} (h : ¬Overcloses opened cs)
    (hleft : left + cs.count ')' = opened + cs.count '(') (ds : List Char) :
    Overcloses opened (cs ++ ds) ↔ Overcloses left ds := by
  constructor
  · rintro ⟨front, ⟨back, hsplit⟩, hcount⟩
    rcases List.append_eq_append_iff.mp hsplit with ⟨rest, rfl, _⟩ | ⟨rest, rfl, rfl⟩
    · exact absurd ⟨front, List.prefix_append front rest, hcount⟩ h
    · refine ⟨rest, List.prefix_append rest back, ?_⟩
      simp only [List.count_append] at hcount
      omega
  · rintro ⟨rest, hrest, hcount⟩
    refine ⟨cs ++ rest, (List.prefix_append_right_inj cs).mpr hrest, ?_⟩
    simp only [List.count_append]
    omega

theorem not_overcloses_left {opened : Nat} {cs ds : List Char} (h : ¬Overcloses opened (cs ++ ds)) :
    ¬Overcloses opened cs := by
  rintro ⟨front, hfront, hcount⟩
  exact h ⟨front, hfront.trans (List.prefix_append cs ds), hcount⟩

/-- Tokens in which every parenthesis has the one that it matches. -/
structure Matched (ts : List Token) : Prop where
  notOverclosed : ¬Overcloses 0 (Token.parens ts)
  count_eq : (Token.parens ts).count '(' = (Token.parens ts).count ')'

theorem Token.parens_leftParen (ts : List Token) :
    parens (.leftParen :: ts) = '(' :: parens ts := rfl

theorem Token.parens_rightParen (ts : List Token) :
    parens (.rightParen :: ts) = ')' :: parens ts := rfl

namespace Matched

theorem notOverclosed_of {ts : List Token} (h : Matched ts) (opened : Nat) :
    ¬Overcloses opened (Token.parens ts) := by
  rintro ⟨front, hfront, hcount⟩
  exact h.notOverclosed ⟨front, hfront, by omega⟩

/-- Without two parentheses that match the others still do. -/
theorem without {front inside back : List Token}
    (h : Matched (front ++ .leftParen :: inside ++ .rightParen :: back))
    (hinside : Matched inside) : Matched (front ++ inside ++ back) := by
  obtain ⟨hover, hcount⟩ := h
  have hwhole : Token.parens (front ++ .leftParen :: inside ++ .rightParen :: back) =
      Token.parens front ++ '(' :: (Token.parens inside ++ ')' :: Token.parens back) := by
    simp [Token.parens_append, Token.parens_leftParen, Token.parens_rightParen]
  rw [hwhole] at hover hcount
  have hfront := not_overcloses_left hover
  obtain ⟨left, hleft⟩ : ∃ left, left + (Token.parens front).count ')' =
      0 + (Token.parens front).count '(' := by
    refine ⟨(Token.parens front).count '(' - (Token.parens front).count ')', ?_⟩
    by_contra hne
    exact hfront ⟨_, List.prefix_rfl, by omega⟩
  have hsame (opened : Nat) (ds : List Char) :
      Overcloses opened (Token.parens inside ++ ds) ↔ Overcloses opened ds :=
    overcloses_append (hinside.notOverclosed_of opened) (by rw [hinside.count_eq]) ds
  rw [overcloses_append hfront hleft, overcloses_leftParen, hsame,
    overcloses_succ_rightParen] at hover
  refine ⟨?_, ?_⟩
  · rwa [List.append_assoc, Token.parens_append, Token.parens_append,
      overcloses_append hfront hleft, hsame]
  · simp only [Token.parens_append, List.count_append, List.count_cons_self,
      List.count_cons_of_ne (a := ')') (b := '(') (by decide),
      List.count_cons_of_ne (a := '(') (b := ')') (by decide)] at hcount ⊢
    omega

end Matched

theorem Postfix.exists_ofFormula_iff {ts : List Token} :
    (∃ queue, ofFormula ts = .ok queue) ↔ Matched ts := by
  rcases ofFormula_cases ts with ⟨hfault, hover⟩ | ⟨hover, ⟨hfault, hlt⟩ | ⟨queue, hqueue, heq⟩⟩
  · rw [hfault]
    refine ⟨?_, fun h => absurd hover h.notOverclosed⟩
    rintro ⟨_, hfalse⟩
    cases hfalse
  · rw [hfault]
    refine ⟨?_, fun h => absurd h.count_eq (Nat.ne_of_gt hlt)⟩
    rintro ⟨_, hfalse⟩
    cases hfalse
  · exact ⟨fun _ => ⟨hover, heq⟩, fun _ => ⟨queue, hqueue⟩⟩

namespace Grammar

/-- What may follow depends on no more of the token before than whether it ends a part. -/
theorem eachAfter_follows_congr {before before' : Option Token}
    (h : before.any endsPart = before'.any endsPart) (ts : List Token) :
    Token.eachAfter follows before ts = Token.eachAfter follows before' ts := by
  cases ts with
  | nil => rfl
  | cons t ts =>
      have ht : follows before t = follows before' t := by cases t <;> simp [follows, h]
      rw [Token.eachAfter, Token.eachAfter, ht]

/-- Without a pair of parentheses the tokens still follow each other: what stands in it begins where
a part may begin, and ends one. -/
theorem follows_without {front inside back : List Token}
    (h : Token.eachAfter follows none (front ++ .leftParen :: inside ++ .rightParen :: back) =
      true) :
    Token.eachAfter follows none (front ++ inside ++ back) = true ∧
      inside.getLast?.any endsPart = true := by
  simp only [Token.eachAfter_append, Token.eachAfter, Bool.and_eq_true, List.append_assoc,
    List.cons_append, Option.or_none] at h ⊢
  obtain ⟨hfront, hopen, hinside, hclose, hback⟩ := h
  have hbegins : front.getLast?.any endsPart = false := by simpa [follows] using hopen
  have hends : inside.getLast?.any endsPart = true := by
    cases hlast : inside.getLast? with
    | none => simp [hlast, follows, endsPart] at hclose
    | some t => simpa [hlast, follows] using hclose
  rw [getLast?_or_of_any hends]
  refine ⟨⟨hfront, ?_, ?_⟩, hends⟩
  · have hsame : front.getLast?.any endsPart = (some .leftParen).any endsPart := hbegins
    rwa [eachAfter_follows_congr hsame]
  · have hsame : inside.getLast?.any endsPart = (some .rightParen).any endsPart := hends
    rwa [eachAfter_follows_congr hsame]

/-- Tokens of a formula are one without any two parentheses in it that match. -/
theorem Derives.without {front inside back : List Token} {e : Expr}
    (h : Derives .sum (front ++ .leftParen :: inside ++ .rightParen :: back) e)
    (hinside : Matched inside) : ∃ e', Derives .sum (front ++ inside ++ back) e' := by
  have hmatched := Postfix.exists_ofFormula_iff.mp ⟨_, Postfix.ofFormula_of_derives h⟩
  obtain ⟨queue, hqueue⟩ := Postfix.exists_ofFormula_iff.mpr (hmatched.without hinside)
  obtain ⟨hfollows, hends⟩ := h.placed
  obtain ⟨hfollows, hinside⟩ := follows_without (hfollows none rfl)
  refine exists_derives_of_ofFormula hqueue hfollows ?_
  cases back with
  | nil => simpa using any_getLast?_append front hinside
  | cons t back => simpa [List.getLast?_append, List.getLast?_cons] using hends

end Grammar

namespace Expr

open Grammar

theorem count_parensIf (needed : Bool) (ts : List Token) :
    (parensIf needed ts).count .leftParen = ts.count .leftParen + needed.toNat := by
  cases needed <;> simp [parensIf]

theorem count_formulaIn_mono {c d : Category} (hle : c.level ≤ d.level) (e : Expr) :
    (e.formulaIn c).count .leftParen ≤ (e.formulaIn d).count .leftParen := by
  rw [formulaIn, formulaIn, count_parensIf, count_parensIf]
  refine Nat.add_le_add_left (Bool.toNat_le_toNat ?_) _
  rw [Bool.le_iff_imp]
  simp only [decide_eq_true_eq]
  omega

/-- By induction on the derivation, no tokens that stand for a tree have fewer parentheses than it
is written with. -/
theorem count_formulaIn_le {c : Category} {ts : List Token} {e : Expr} (h : Derives c ts e) :
    (e.formulaIn c).count .leftParen ≤ ts.count .leftParen := by
  induction h using Derives.inductionOn with
  | binary op hl hr ihl ihr =>
      rw [formulaIn_binary, List.count_append, List.count_append,
        List.count_cons_of_ne (by simp), List.count_cons_of_ne (by simp)]
      omega
  | lower d h hle ih => exact (count_formulaIn_mono hle _).trans ih
  | apply f h ih =>
      rw [formulaIn_apply, List.count_cons_of_ne (by simp), List.count_cons_of_ne (by simp)]
      exact ih
  | number x => exact Nat.le_refl _
  | @group ts e h ih =>
      -- the parentheses of a group make up for those that it may be written with as an atom
      rw [formulaIn_of_le (by cases e.category <;> decide)] at ih
      have hone := Bool.toNat_le (decide (e.category.level < Category.atom.level))
      rw [formulaIn, count_parensIf, List.cons_append, List.count_cons_self, List.count_append]
      omega

/-- Any two parentheses that match in what a tree is written as are needed: without them the tokens
still have a queue, but not the one of the tree. -/
theorem formula_without_parentheses {e : Expr} {front inside back : List Token}
    (h : e.formula = front ++ .leftParen :: inside ++ .rightParen :: back)
    (hinside : Matched inside) :
    ∃ queue, Postfix.ofFormula (front ++ inside ++ back) = .ok queue ∧
      Postfix.ofFormula e.formula = .ok e.postorder ∧ queue ≠ e.postorder := by
  have hwhole : Derives .sum e.formula e :=
    e.derives_formula.lower .sum (by cases e.category <;> decide)
  rw [h] at hwhole
  obtain ⟨e', hwithout⟩ := hwhole.without hinside
  refine ⟨e'.postorder, Postfix.ofFormula_of_derives hwithout,
    Postfix.ofFormula_of_derives e.derives_formula, ?_⟩
  intro hsame
  obtain rfl := postorder_injective hsame
  -- without the two the tokens would stand for the same tree and have one parenthesis too few
  have hcount := count_formulaIn_le hwithout
  rw [formulaIn_of_le (by cases e'.category <;> decide), h] at hcount
  simp only [List.count_append, List.count_cons_self] at hcount
  rw [List.count_cons_of_ne (by decide)] at hcount
  omega

/-- The outer ones of two pairs, around the argument of a function. -/
theorem formula_without_parentheses_root_of_difference :
    Matched [.number 1, .binary .subtract, .leftParen, .number 2, .binary .subtract, .number 3,
        .rightParen] ∧
      ∃ queue, Postfix.ofFormula [.func .sqrt, .number 1, .binary .subtract, .leftParen, .number 2,
          .binary .subtract, .number 3, .rightParen] = .ok queue ∧
        queue ≠ [.number 1, .number 2, .number 3, .binary .subtract, .binary .subtract,
          .func .sqrt] := by
  have hinside : Matched [.number 1, .binary .subtract, .leftParen, .number 2, .binary .subtract,
      .number 3, .rightParen] := Postfix.exists_ofFormula_iff.mp ⟨_, rfl⟩
  obtain ⟨queue, hqueue, _, hne⟩ := @formula_without_parentheses
    (.apply .sqrt (.binary .subtract (.number 1) (.binary .subtract (.number 2) (.number 3))))
    [.func .sqrt] _ [] rfl hinside
  exact ⟨hinside, queue, hqueue, hne⟩

end Expr

end Calculator
