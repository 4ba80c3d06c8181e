import Calculator.Proofs.Lockstep
import Calculator.Proofs.Pieces
import Calculator.Proofs.Placement

/-!
Redundant parentheses in a text. Around a part of a formula they stand for the part itself, and no
token but one is read otherwise for them: a dash directly behind the part, which is read as a sign
once a closing parenthesis stands before it. That leaves a text with one operator less for its
operands, and so without a value.
-/

namespace Calculator.Formula

open Grammar

/-- A text in three pieces that no token reaches over, with the tokens of each where it stands. -/
structure Cut (front span back : String) (ts us vs : List Token) : Prop where
  whole_tokens : tokens (front ++ span ++ back) = .ok (ts ++ us ++ vs)
  front_tokens : tokens front = .ok ts
  span_tokens : Token.scanAfter (Token.endsInNumber ts) span.toList = .ok us
  back_tokens : Token.scanAfter (Token.endsInNumber (ts ++ us)) back.toList = .ok vs

theorem toList_parenthesised (front span back : String) :
    (front ++ "(" ++ span ++ ")" ++ back).toList =
      front.toList ++ '(' :: (span.toList ++ ')' :: back.toList) := by
  simp

/-- Parentheses around a piece that begins behind no number only change how the rest is read. -/
theorem Cut.tokens_parenthesised {front span back : String} {ts us vs : List Token}
    (h : Cut front span back ts us vs) (hnumber : Token.endsInNumber ts = false) :
    tokens (front ++ "(" ++ span ++ ")" ++ back) =
      (Token.scanAfter false back.toList).map
        (ts ++ (.leftParen :: us ++ [.rightParen]) ++ ·) := by
  have hspan := h.span_tokens
  rw [hnumber] at hspan
  have hopen := Token.scanAfter_append_cons (d := '(') (by decide) (by decide) none front.toList
    (span.toList ++ ')' :: back.toList)
  have hclose := Token.scanAfter_append_cons (d := ')') (by decide) (by decide) none span.toList
    back.toList
  have hfront : Token.scanAfter false front.toList = .ok ts := h.front_tokens
  simp only [Option.any_none] at hopen hclose
  rw [hspan, Except.bind, Token.scanAfter_rightParen] at hclose
  rw [hfront, Except.bind, Token.scanAfter_leftParen, hclose] at hopen
  rw [tokens, toList_parenthesised, Token.scan, hopen]
  cases Token.scanAfter false back.toList <;> simp [Except.map]

/-- No part of a formula begins behind a number. -/
theorem endsInNumber_of_placed {ts us vs : List Token} (hwhole : Placed (ts ++ us ++ vs))
    (hpart : Placed us) (hne : us ≠ []) : Token.endsInNumber ts = false := by
  obtain ⟨u, us, rfl⟩ := List.exists_cons_of_ne_nil hne
  have hfollows := hwhole.1 none rfl
  have hbegins := hpart.1 none rfl
  rw [Token.eachAfter_append, Token.eachAfter_append, Token.eachAfter] at hfollows
  rw [Token.eachAfter] at hbegins
  simp only [Bool.and_eq_true, Option.or_none] at hfollows hbegins
  have hu : ts.getLast?.any endsPart = false := by
    cases u with
    | number _ | func _ | leftParen => simpa [follows] using hfollows.1.2.1
    | binary _ | rightParen => cases hbegins.1
  rw [Token.endsInNumber]
  cases hlast : ts.getLast? with
  | none => rfl
  | some t =>
      rw [hlast] at hu
      cases t with
      | number x => cases hu
      | binary _ | func _ | leftParen | rightParen => rfl

theorem value_eq_of_derives {text : String} {ts : List Token} {e : Expr}
    (h : tokens text = .ok ts) (hderives : Derives .sum ts e) : value text = e.value :=
  value_of_queue_eq_postorder
    ((queue_of_tokens h hderives.ne_nil).trans (Postfix.ofFormula_of_derives hderives))

/-- A value needs an operator less than operands. -/
theorem totalWeight_of_value {text : String} {ts : List Token} {x : Float}
    (h : tokens text = .ok ts) (hne : ts ≠ []) (hvalue : value text = .ok x) :
    Token.totalWeight ts = 1 := by
  rw [value_eq_bind_queue, queue_of_tokens h hne] at hvalue
  obtain ⟨queued, horder, hqueued⟩ := Fault.exists_of_bind_eq_ok hvalue
  obtain ⟨e, rfl, _⟩ := Postfix.value_eq_ok_iff.mp hqueued
  exact Token.totalWeight_of_ofFormula_postorder horder

/-- Where the operator behind a part is read as a sign, the text has no value. -/
theorem Cut.value_parenthesised_ne_ok {front span back : String} {ts us vs : List Token}
    (h : Cut front span back ts us (.binary .subtract :: vs))
    (hweight : Token.totalWeight (ts ++ us ++ .binary .subtract :: vs) = 1)
    (hnumber : Token.endsInNumber ts = false) (x : Float) :
    value (front ++ "(" ++ span ++ ")" ++ back) ≠ .ok x := by
  have hback : Token.scanAfter true back.toList = .ok (.binary .subtract :: vs) := by
    cases hlast : Token.endsInNumber (ts ++ us) with
    | true => exact hlast ▸ h.back_tokens
    | false =>
        have hread := h.back_tokens
        rw [hlast] at hread
        cases Token.readableAfter_of_scanAfter none hread
  have htokens := h.tokens_parenthesised hnumber
  intro hvalue
  cases hsign : Token.scanAfter false back.toList with
  | error fault =>
      rw [hsign] at htokens
      rw [value_of_tokens_error htokens] at hvalue
      cases hvalue
  | ok ws =>
      rw [hsign] at htokens
      obtain ⟨y, z, rest, rfl, rfl⟩ := Token.exists_of_scanAfter_dash hback hsign
      have hone := totalWeight_of_value htokens (by simp) hvalue
      simp [Token.weight] at hweight hone
      omega

/-- Parentheses around a part of a formula leave the value of the text as it is, unless a dash
directly follows the part: behind the closing parenthesis that is no operator, and the text has no
value. -/
theorem value_parenthesised {front span back : String} {ts us vs : List Token}
    (hcut : Cut front span back ts us vs) (hpart : Part .sum ts us vs) :
    (vs.head? ≠ some (.binary .subtract) →
        value (front ++ "(" ++ span ++ ")" ++ back) = value (front ++ span ++ back)) ∧
      (vs.head? = some (.binary .subtract) →
        ∀ x, value (front ++ "(" ++ span ++ ")" ++ back) ≠ .ok x) := by
  obtain ⟨c, part, e, hderives, hreplace⟩ := hpart.exists_replace
  have hwhole := hreplace us hderives
  have hnumber := endsInNumber_of_placed hwhole.placed hderives.placed hderives.ne_nil
  constructor
  · intro hhead
    have hback : Token.scanAfter false back.toList = .ok vs := by
      have hread := hcut.back_tokens
      cases hlast : Token.endsInNumber (ts ++ us) with
      | true => exact Token.scanAfter_false_of_head_ne (hlast ▸ hread) hhead
      | false => exact hlast ▸ hread
    have htokens := hcut.tokens_parenthesised hnumber
    rw [hback] at htokens
    have hgroup : Derives c (.leftParen :: us ++ [.rightParen]) part :=
      .lower (.group (hderives.lower .sum (by cases c <;> decide))) c (by cases c <;> decide)
    rw [value_eq_of_derives htokens (hreplace _ hgroup),
      value_eq_of_derives hcut.whole_tokens hwhole]
  · intro hhead
    obtain ⟨rest, rfl⟩ := List.head?_eq_some_iff.mp hhead
    have horder := Postfix.ofFormula_of_derives hwhole
    exact hcut.value_parenthesised_ne_ok (Token.totalWeight_of_ofFormula_postorder horder) hnumber

/-- A product between two operators. -/
theorem value_parenthesised_product :
    Cut "7 - " "2 * 3" " + 1" [.number 7, .binary .subtract]
        [.number 2, .binary .multiply, .number 3] [.binary .add, .number 1] ∧
      Part .sum [.number 7, .binary .subtract] [.number 2, .binary .multiply, .number 3]
        [.binary .add, .number 1] ∧
      value "7 - (2 * 3) + 1" = value "7 - 2 * 3 + 1" := by
  have hcut : Cut "7 - " "2 * 3" " + 1" [.number 7, .binary .subtract]
      [.number 2, .binary .multiply, .number 3] [.binary .add, .number 1] :=
    ⟨by decide +kernel, by decide +kernel, by decide +kernel, by decide +kernel⟩
  have hone (c : Category) (x : Float) : Derives c [.number x] (.number x) :=
    (Derives.number x).lower c (by cases c <;> decide)
  have hpart : Part .sum [.number 7, .binary .subtract] [.number 2, .binary .multiply, .number 3]
      [.binary .add, .number 1] :=
    .addLeft (.subtractRight (hone _ 7) (.whole (.multiply (hone _ 2) (hone _ 3)))) (hone _ 1)
  exact ⟨hcut, hpart, (value_parenthesised hcut hpart).1 (by decide)⟩

/-- The left operand of a difference in parentheses of its own. -/
theorem value_parenthesised_before_dash :
    Cut "" "2" "-3" [] [.number 2] [.binary .subtract, .number 3] ∧
      Part .sum [] [.number 2] [.binary .subtract, .number 3] ∧
      value "2-3" = .ok (-1) ∧ value "(2)-3" = .error .tooManyOperands := by
  have hone (c : Category) (x : Float) : Derives c [.number x] (.number x) :=
    (Derives.number x).lower c (by cases c <;> decide)
  refine ⟨⟨?_, ?_, ?_, ?_⟩, .subtractLeft (.whole (hone _ 2)) (hone _ 3), ?_, ?_⟩
  · decide +kernel
  · decide +kernel
  · decide +kernel
  · decide +kernel
  · decide +kernel
  · decide +kernel

end Calculator.Formula
