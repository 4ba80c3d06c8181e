import Calculator.Proofs.PlainText

/-!
Plain texts as names of trees. The text of a formula says which tokens it is written from even where
the scanner cannot read it back: what the scanner takes for the start of a number, a dash behind a
closing parenthesis, is told from a sign by standing where no part of a formula can begin. And the
tokens of a tree say which tree it is. So two texts have one plain text exactly if they have one
tree.
-/

namespace Calculator

namespace Grammar

/-- A token that follows another as in a formula may stand there for a scanner that is told whether
a part has just ended, instead of whether a number has. -/
theorem readable_of_follows {before : Option Token} {t : Token} (h : follows before t = true)
    (hfinite : ∀ x, t = .number x → Number.isFinite x = true) :
    Token.readable (before.any endsPart) t = true := by
  cases t with
  | number x =>
      have hbefore : before.any endsPart = false := by simpa [follows] using h
      simp [Token.readable, hbefore, hfinite x rfl]
  | binary op =>
      cases op with
      | subtract => exact h
      | add | multiply | divide | power => rfl
  | func _ | leftParen | rightParen => rfl

/-- Finite tokens that follow each other behind the token `before` as in a formula. -/
structure Fits (before : Option Token) (ts : List Token) : Prop where
  follows : Token.eachAfter follows before ts = true
  isFinite : ∀ x, .number x ∈ ts → Number.isFinite x = true

namespace Fits

variable {before : Option Token} {t : Token} {ts us : List Token}

theorem tail (h : Fits before (t :: ts)) : Fits (some t) ts := by
  have hfollows := h.follows
  rw [Token.eachAfter, Bool.and_eq_true] at hfollows
  exact ⟨hfollows.2, fun x hx => h.isFinite x (List.mem_cons_of_mem t hx)⟩

/-- The text of such tokens begins with the first of them. -/
theorem exists_begins (h : Fits before (t :: ts)) :
    ∃ gap, Text.isBlankText gap = true ∧
      Token.Begins (before.any endsPart) (Token.formulaChars (t :: ts)) t
        (gap ++ Token.formulaChars ts) := by
  have hfollows := h.follows
  rw [Token.eachAfter, Bool.and_eq_true] at hfollows
  have hfinite : ∀ x, t = .number x → Number.isFinite x = true := by
    rintro x rfl
    exact h.isFinite x List.mem_cons_self
  have hapart := Token.eachAfter_mono hfollows.2 fun _ _ => Token.apart_of_follows
  exact Token.exists_begins_formulaChars (readable_of_follows hfollows.1 hfinite)
    (Token.head_isNumber_of_apart hapart)

theorem formulaChars_ne_blank (h : Fits before (t :: ts)) :
    (Token.formulaChars (t :: ts)).dropWhile Text.isBlank ≠ [] := by
  obtain ⟨gap, _, c, tail, htext, _⟩ := h.exists_begins
  rw [htext]
  exact List.cons_ne_nil c tail

/-- By induction on the tokens: two lists of them that fit in one place and have one text, but for
blanks in front, begin with one token, and what follows it has one text again. -/
theorem eq_of_formulaChars (hts : Fits before ts) (hus : Fits before us)
    (h : (Token.formulaChars ts).dropWhile Text.isBlank =
      (Token.formulaChars us).dropWhile Text.isBlank) : ts = us := by
  induction ts generalizing before us with
  | nil =>
      cases us with
      | nil => rfl
      | cons u us => exact absurd h.symm hus.formulaChars_ne_blank
  | cons t ts ih =>
      cases us with
      | nil => exact absurd h hts.formulaChars_ne_blank
      | cons u us =>
          obtain ⟨gap, hgap, hbegins⟩ := hts.exists_begins
          obtain ⟨gap', hgap', hbegins'⟩ := hus.exists_begins
          obtain ⟨rfl, hrest⟩ := hbegins.unique hbegins' h
          have hrest' := congrArg (List.dropWhile Text.isBlank) hrest
          rw [Token.dropWhile_blanks_append hgap, Token.dropWhile_blanks_append hgap'] at hrest'
          rw [ih hts.tail hus.tail hrest']

end Fits

end Grammar

namespace Expr

open Grammar

theorem fits_formula {e : Expr} (h : ∀ x, .number x ∈ e.formula → Number.isFinite x = true) :
    Fits none e.formula :=
  ⟨e.derives_formula.placed.1 none rfl, h⟩

/-- The tokens of a tree are no other tree's. -/
theorem formula_injective {e e' : Expr} (h : e.formula = e'.formula) : e = e' := by
  have horder := Postfix.ofFormula_of_derives e.derives_formula
  rw [h, Postfix.ofFormula_of_derives e'.derives_formula] at horder
  exact postorder_injective (Except.ok.inj horder.symm)

/-- Neither is the text of these tokens, if all numbers are finite. -/
theorem formulaText_injective {e e' : Expr}
    (he : ∀ x, .number x ∈ e.formula → Number.isFinite x = true)
    (he' : ∀ x, .number x ∈ e'.formula → Number.isFinite x = true)
    (h : Token.formulaText e.formula = Token.formulaText e'.formula) : e = e' := by
  have hchars := String.ofList_injective h
  exact formula_injective ((fits_formula he).eq_of_formulaChars (fits_formula he') (by rw [hchars]))

end Expr

namespace Formula

/-- Two texts that have trees have plain texts, and these are the same exactly if the trees are, all
their numbers bit for bit. -/
theorem plainText_eq_iff {text text' : String} {e e' : Expr} (h : tree text = .ok e)
    (h' : tree text' = .ok e') :
    ∃ plain plain', plainText text = .ok plain ∧ plainText text' = .ok plain' ∧
      (plain = plain' ↔ e = e') := by
  refine ⟨Token.formulaText e.formula, Token.formulaText e'.formula, ?_, ?_, ?_, ?_⟩
  · rw [plainText, h]
    rfl
  · rw [plainText, h']
    rfl
  · exact Expr.formulaText_injective (fun x => isFinite_of_mem_formula h)
      (fun x => isFinite_of_mem_formula h')
  · rintro rfl
    rfl

/-- A difference whose plain text no scanner reads, and the two zeros. -/
theorem plainText_eq_iff_unreadable :
    (tree "(2 * (3 + 4)) 5 -" = tree "(2 * ((3 + 4)))5 -" ∧
        plainText "(2 * (3 + 4)) 5 -" = plainText "(2 * ((3 + 4)))5 -") ∧
      tree "0" = .ok (.number 0) ∧ tree "-0" = .ok (.number (-0.0)) ∧
        plainText "0" ≠ plainText "-0" := by
  have htree : tree "(2 * (3 + 4)) 5 -" = .ok (.binary .subtract (.binary .multiply (.number 2)
      (.binary .add (.number 3) (.number 4))) (.number 5)) := by decide +kernel
  have htree' : tree "(2 * ((3 + 4)))5 -" = .ok (.binary .subtract (.binary .multiply (.number 2)
      (.binary .add (.number 3) (.number 4))) (.number 5)) := by decide +kernel
  have hzero : tree "0" = .ok (.number 0) := by decide +kernel
  have hminus : tree "-0" = .ok (.number (-0.0)) := by decide +kernel
  refine ⟨⟨htree.trans htree'.symm, ?_⟩, hzero, hminus, ?_⟩
  · obtain ⟨plain, plain', hplain, hplain', hiff⟩ := plainText_eq_iff htree htree'
    rw [hplain, hplain', hiff.mpr rfl]
  · obtain ⟨plain, plain', hplain, hplain', hiff⟩ := plainText_eq_iff hzero hminus
    rw [hplain, hplain', Ne, Except.ok.injEq, hiff]
    decide +kernel

end Formula

end Calculator
