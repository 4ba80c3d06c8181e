import Calculator.Formula
import Calculator.Proofs.Scanning

/-!
The lists of tokens that a text can have. A text gives finite numbers only, a dash as an operator
behind a number only, and no sign there. Nothing more can be said: tokens that keep to this are read
back from their texts with a space between them, since the space ends every numeral and every name.
-/

namespace Calculator.Token

/-- Each token may stand where it does in a text. -/
structure Legible (ts : List Token) : Prop where
  isFinite : ∀ x, number x ∈ ts → Number.isFinite x = true
  dashBehindNumber :
    ∀ front back, ts = front ++ binary .subtract :: back → endsInNumber front = true
  noSignBehindNumber :
    ∀ front x back, ts = front ++ number x :: back → Number.isNegative x = true →
      endsInNumber front = false

theorem legible_iff {ts : List Token} : Legible ts ↔ eachAfter readableAfter none ts = true := by
  rw [eachAfter_iff]
  constructor
  · intro h front t back hsplit
    rw [Option.or_none]
    cases t with
    | number x =>
        have hfinite : Number.isFinite x = true := h.isFinite x (by simp [hsplit])
        cases hnegative : Number.isNegative x with
        | false => simp [readableAfter, readable, hfinite, hnegative]
        | true =>
            have hfront : front.getLast?.any isNumber = false :=
              h.noSignBehindNumber front x back hsplit hnegative
            simp [readableAfter, readable, hfinite, hfront]
    | binary op =>
        cases op with
        | subtract => exact h.dashBehindNumber front back hsplit
        | add | multiply | divide | power => rfl
    | func _ | leftParen | rightParen => rfl
  · intro h
    have hnumber (front : List Token) (x : Float) (back : List Token)
        (hsplit : ts = front ++ number x :: back) :
        Number.isFinite x = true ∧
          (Number.isNegative x = true → endsInNumber front = false) := by
      have hreadable := h front _ back hsplit
      simp only [readableAfter, readable, Option.or_none, Bool.and_eq_true, Bool.not_eq_true',
        Bool.and_eq_false_iff] at hreadable
      refine ⟨hreadable.1, ?_⟩
      intro hnegative
      rcases hreadable.2 with hfront | hpositive
      · exact hfront
      · rw [hnegative] at hpositive
        cases hpositive
    refine ⟨?_, ?_, ?_⟩
    · intro x hx
      obtain ⟨front, back, hsplit⟩ := List.append_of_mem hx
      exact (hnumber front x back hsplit).1
    · intro front back hsplit
      simpa [readableAfter, readable, endsInNumber] using h front _ back hsplit
    · intro front x back hsplit
      exact (hnumber front x back hsplit).2

theorem continues_space (t : Token) : t.continues ' ' = false := by
  cases t <;> rfl

theorem queueChars_cons_cons (t u : Token) (ts : List Token) :
    queueChars (t :: u :: ts) = t.chars ++ ' ' :: queueChars (u :: ts) := by
  simp [queueChars, List.intercalate_cons_cons]

/-- By induction on the tokens: each of them is read up to the space behind it. -/
theorem scanAfter_queueChars (before : Option Token) {ts : List Token}
    (h : eachAfter readableAfter before ts = true) :
    scanAfter (before.any isNumber) (queueChars ts) = .ok ts := by
  induction ts generalizing before with
  | nil => exact scanAfter_nil _
  | cons t ts ih =>
      rw [eachAfter, Bool.and_eq_true] at h
      cases ts with
      | nil =>
          have hlast := scanAfter_chars_append h.1 [] (by simp)
          rw [List.append_nil, scanAfter_nil] at hlast
          rw [queueChars, List.map_singleton, List.intercalate_singleton, hlast]
          rfl
      | cons u us =>
          have hspace : ∀ c ∈ (' ' :: queueChars (u :: us)).head?, t.continues c = false := by
            intro c hc
            obtain rfl : ' ' = c := by simpa using hc
            exact continues_space t
          have hrest := ih (some t) h.2
          rw [Option.any_some] at hrest
          rw [queueChars_cons_cons, scanAfter_chars_append h.1 _ hspace,
            scanAfter_blank (by decide), hrest]
          rfl

theorem tokens_queueText {ts : List Token} (h : Legible ts) :
    Formula.tokens (queueText ts) = .ok ts := by
  rw [Formula.tokens, queueText, String.toList_ofList, scan]
  exact scanAfter_queueChars none (legible_iff.mp h)

theorem legible_of_tokens {text : String} {ts : List Token} (h : Formula.tokens text = .ok ts) :
    Legible ts :=
  legible_iff.mpr (readableAfter_of_scanAfter none h)

/-- Some text has the tokens exactly if they are legible, and then the one that has their texts with
a space between them does, bit for bit. -/
theorem exists_tokens_iff (ts : List Token) :
    ((∃ text, Formula.tokens text = .ok ts) ↔ Legible ts) ∧
      (Formula.tokens (queueText ts) = .ok ts ↔ Legible ts) := by
  refine ⟨⟨?_, ?_⟩, legible_of_tokens, tokens_queueText⟩
  · rintro ⟨text, htext⟩
    exact legible_of_tokens htext
  · intro h
    exact ⟨queueText ts, tokens_queueText h⟩

/-- Behind a number the sign of zero cannot be read, elsewhere it can. -/
example : Formula.tokens (queueText [binary .add, number (-0.0), number 2, func .log]) =
      .ok [binary .add, number (-0.0), number 2, func .log] ∧
    Formula.tokens (queueText [number 2, number (-0.0)]) =
      .ok [number 2, binary .subtract, number 0] := by
  decide +kernel

end Calculator.Token
