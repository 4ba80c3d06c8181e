import Calculator.Proofs.Meaning
import Calculator.Proofs.Parentheses
import Calculator.Proofs.Placement
import Calculator.Proofs.Spacing

/-!
Formulas without needless parentheses. Their text has the value of the text that they come from,
unless a closing parenthesis stands directly before a dash: such a dash is read as the start of a
number, and then the text has no value at all.
-/

namespace Calculator

namespace Token

open Grammar

theorem eachAfter_mono {ok weaker : Option Token → Token → Bool} {before : Option Token}
    {ts : List Token} (h : eachAfter ok before ts = true)
    (hweaker : ∀ u t, ok u t = true → weaker u t = true) : eachAfter weaker before ts = true := by
  rw [eachAfter_iff] at h ⊢
  intro front t back hsplit
  exact hweaker _ t (h front t back hsplit)

theorem apart_of_follows {before : Option Token} {t : Token} (h : follows before t = true) :
    apart before t = true := by
  cases t with
  | number x =>
      cases before with
      | none => rfl
      | some u => cases u <;> first | rfl | cases h
  | binary _ | func _ | leftParen | rightParen => rfl

/-- Of tokens that follow each other as in a formula, every dash stands behind a number or behind a
closing parenthesis. -/
theorem eachAfter_dashBehindNumber_iff_of_follows {ts : List Token}
    (h : eachAfter follows none ts = true) :
    eachAfter dashBehindNumber none ts = true ↔
      ∀ front back, ts ≠ front ++ .rightParen :: .binary .subtract :: back := by
  rw [eachAfter_iff] at h ⊢
  constructor
  · rintro hdash front back rfl
    have hbehind := hdash (front ++ [.rightParen]) (.binary .subtract) back (by simp)
    rw [List.getLast?_append] at hbehind
    cases hbehind
  · intro hnone front t back hsplit
    have hfollows := h front t back hsplit
    cases t with
    | binary op =>
        cases op with
        | subtract =>
            rw [Option.or_none] at hfollows ⊢
            cases hlast : front.getLast? with
            | none =>
                rw [hlast] at hfollows
                cases hfollows
            | some u =>
                rw [hlast] at hfollows
                cases u with
                | number x => rfl
                | rightParen =>
                    obtain ⟨rest, rfl⟩ := List.getLast?_eq_some_iff.mp hlast
                    exact absurd (by simpa using hsplit) (hnone rest back)
                | binary _ | func _ | leftParen => cases hfollows
        | add | multiply | divide | power => rfl
    | number _ | func _ | leftParen | rightParen => rfl

end Token

namespace Formula

open Grammar

theorem queue_of_tree {text : String} {e : Expr} (h : tree text = .ok e) :
    queue text = .ok e.postorder := by
  obtain ⟨queued, hqueue, htree⟩ := Fault.exists_of_bind_eq_ok h
  rw [hqueue, Expr.eq_postorder_of_ofPostfix htree]

theorem number_mem_of_filter_eq {ts us : List Token}
    (h : ts.filter Token.isNumber = us.filter Token.isNumber) {x : Float}
    (hx : .number x ∈ ts) : .number x ∈ us := by
  have hfilter : .number x ∈ ts.filter Token.isNumber := List.mem_filter.mpr ⟨hx, rfl⟩
  rw [h] at hfilter
  exact (List.mem_filter.mp hfilter).1

theorem isFinite_of_mem_tokens {text : String} {ts : List Token} (h : tokens text = .ok ts)
    {x : Float} (hx : .number x ∈ ts) : Number.isFinite x = true := by
  obtain ⟨front, back, hsplit⟩ := List.append_of_mem hx
  have heach := Token.readableAfter_of_scanAfter none h
  have hreadable := Token.eachAfter_iff.mp heach front _ back hsplit
  simp only [Token.readableAfter, Token.readable, Bool.and_eq_true] at hreadable
  exact hreadable.1

theorem isFinite_of_mem_queue {text : String} {queued : List Token}
    (h : queue text = .ok queued) {x : Float} (hx : .number x ∈ queued) :
    Number.isFinite x = true := by
  unfold queue at h
  split at h
  · obtain rfl := Except.ok.inj h
    obtain rfl : x = 0 := by simpa using hx
    decide
  · obtain ⟨ts, htokens, horder⟩ := Fault.exists_of_bind_eq_ok h
    have hfilter := Postfix.filter_isNumber_of_ofFormula horder
    exact isFinite_of_mem_tokens htokens (number_mem_of_filter_eq hfilter hx)

theorem isFinite_of_mem_formula {text : String} {e : Expr} (h : tree text = .ok e) {x : Float}
    (hx : .number x ∈ e.formula) : Number.isFinite x = true := by
  have horder := Postfix.ofFormula_of_derives e.derives_formula
  have hfilter := Postfix.filter_isNumber_of_ofFormula horder
  exact isFinite_of_mem_queue (queue_of_tree h) (number_mem_of_filter_eq hfilter.symm hx)

/-- The tokens of a plain text, if no closing parenthesis stands directly before a dash. -/
theorem tokens_formulaText_of_tree {text : String} {e : Expr} (h : tree text = .ok e) :
    tokens (Token.formulaText e.formula) =
      if Token.eachAfter Token.dashBehindNumber none e.formula then .ok e.formula
      else .error (.invalidNumber "-") := by
  have hfollows := e.derives_formula.placed.1 none rfl
  have hapart := Token.eachAfter_mono hfollows fun _ _ => Token.apart_of_follows
  have hscan := Token.scanAfter_formulaChars none
    (fun x hx => isFinite_of_mem_formula h hx) hapart
  rw [tokens, Token.formulaText, String.toList_ofList, Token.scan]
  exact hscan

theorem value_ne_invalidNumber (e : Expr) (literal : String) :
    e.value ≠ .error (.invalidNumber literal) := by
  intro h
  obtain ⟨_, _, _, _, _, _, _, hfault⟩ := Expr.exists_first_failure h
  cases hfault

/-- A plain text has the value of the text that it comes from exactly if no closing parenthesis
stands directly before a dash in it; otherwise its first such dash is an invalid number. -/
theorem value_plainText_iff {text plain : String} (h : plainText text = .ok plain) :
    ∃ e, tree text = .ok e ∧ plain = Token.formulaText e.formula ∧
      (value plain = value text ↔
        ∀ front back, e.formula ≠ front ++ .rightParen :: .binary .subtract :: back) ∧
      (value plain ≠ value text → value plain = .error (.invalidNumber "-")) := by
  obtain ⟨e, htree, hplain⟩ := Fault.exists_of_bind_eq_ok h
  obtain rfl := Except.ok.inj hplain
  refine ⟨e, htree, rfl, ?_⟩
  have hvalue : value text = e.value := value_of_queue_eq_postorder (queue_of_tree htree)
  have htokens := tokens_formulaText_of_tree htree
  have hfollows := e.derives_formula.placed.1 none rfl
  rw [hvalue, ← Token.eachAfter_dashBehindNumber_iff_of_follows hfollows]
  cases hdash : Token.eachAfter Token.dashBehindNumber none e.formula with
  | true =>
      rw [hdash, if_pos rfl] at htokens
      have horder := Postfix.ofFormula_of_derives e.derives_formula
      have hqueue := (queue_of_tokens htokens e.derives_formula.ne_nil).trans horder
      have hsame := value_of_queue_eq_postorder hqueue
      exact ⟨⟨fun _ => rfl, fun _ => hsame⟩, fun hne => absurd hsame hne⟩
  | false =>
      rw [hdash, if_neg (by decide)] at htokens
      rw [value_of_tokens_error htokens]
      refine ⟨⟨?_, ?_⟩, fun _ => rfl⟩
      · intro hsame
        exact absurd hsame.symm (value_ne_invalidNumber e "-")
      · intro hfalse
        cases hfalse

/-- A dash behind a number, and one within parentheses that the grouping needs. -/
theorem value_plainText_two_dashes :
    value "7 - 2 * (3 - 4)" = value "7 - ((2)) * (3 - (4))" := by
  have hplain : plainText "7 - ((2)) * (3 - (4))" = .ok "7 - 2 * (3 - 4)" := by decide +kernel
  have htree : tree "7 - ((2)) * (3 - (4))" = .ok (.binary .subtract (.number 7)
      (.binary .multiply (.number 2) (.binary .subtract (.number 3) (.number 4)))) := by
    decide +kernel
  obtain ⟨e, he, _, hiff, _⟩ := value_plainText_iff hplain
  obtain rfl := Except.ok.inj (htree.symm.trans he)
  exact hiff.mpr ((Token.eachAfter_dashBehindNumber_iff_of_follows rfl).mp rfl)

/-- A product is subtracted from although its last factor is in parentheses. That can be read where
the dash is written behind its right operand, but not where it is written between the two. -/
theorem plainText_dash_behind_parenthesis :
    plainText "(2 * (3 + 4)) 5 -" = .ok "2 * (3 + 4) - 5" ∧
      value "(2 * (3 + 4)) 5 -" = .ok 9 ∧
      value "2 * (3 + 4) - 5" = .error (.invalidNumber "-") := by
  decide +kernel

end Formula

end Calculator
