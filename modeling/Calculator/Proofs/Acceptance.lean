import Calculator.Proofs.Lockstep
import Calculator.Proofs.Placement

/-!
What has a value. Neither reordering nor computing looks at where tokens stand, so that an operand
that directly follows another one can find its operator elsewhere, as in `2 3 +`. But that is the
only way out of the grammar: tokens with a value among which no operand directly follows another are
a formula. Each token can only add so much to the weight of those before it, which a misplaced token
falls short of for good, and a value has the greatest weight.
-/

namespace Calculator

namespace Grammar

/-- A token that a part of a formula can begin with. -/
def beginsPart : Token → Bool
  | .number _ | .func _ | .leftParen => true
  | .binary _ | .rightParen => false

/-- Nothing begins directly behind the end of a part. -/
def separate (before : Option Token) (t : Token) : Bool :=
  !(beginsPart t && before.any endsPart)

theorem separate_of_follows {before : Option Token} {t : Token}
    (h : follows before t = true) : separate before t = true := by
  cases t with
  | number _ | func _ | leftParen => simpa [separate, beginsPart, follows] using h
  | binary _ | rightParen => rfl

theorem eachAfter_separate_iff {ts : List Token} :
    Token.eachAfter separate none ts = true ↔
      ∀ front t u back, ts = front ++ t :: u :: back → endsPart t = true →
        beginsPart u = false := by
  rw [Token.eachAfter_iff]
  constructor
  · rintro h front t u back rfl ht
    have hu := h (front ++ [t]) u back (by simp)
    simpa [separate, ht] using hu
  · rintro h front u back rfl
    rw [Option.or_none]
    cases hlast : front.getLast? with
    | none => simp [separate]
    | some t =>
        obtain ⟨rest, rfl⟩ := List.getLast?_eq_some_iff.mp hlast
        cases ht : endsPart t with
        | true => simp [separate, h rest t u back (by simp) ht]
        | false => simp [separate, ht]

/-- The greatest weight of tokens behind a given one: an operand, unless one has just ended. -/
def room (before : Option Token) : Int := if before.any endsPart then 0 else 1

/-- A token and the room behind it are no more than the room before it, and less where the token
follows no token that it may follow. -/
theorem weight_add_room_le {before : Option Token} {t : Token} (h : separate before t = true) :
    t.weight + room (some t) ≤ room before ∧
      (t.weight + room (some t) = room before → follows before t = true) := by
  cases hbefore : before.any endsPart <;> cases t <;>
    simp_all [separate, beginsPart, room, endsPart, follows, Token.weight]

theorem totalWeight_add_room_le {before : Option Token} {ts : List Token}
    (h : Token.eachAfter separate before ts = true) :
    Token.totalWeight ts + room (ts.getLast?.or before) ≤ room before ∧
      (Token.totalWeight ts + room (ts.getLast?.or before) = room before →
        Token.eachAfter follows before ts = true) := by
  induction ts generalizing before with
  | nil => simp [Token.eachAfter]
  | cons t ts ih =>
      rw [Token.eachAfter, Bool.and_eq_true] at h
      obtain ⟨hle, hfollows⟩ := weight_add_room_le h.1
      obtain ⟨hrest, hrestFollows⟩ := ih h.2
      rw [Token.totalWeight_cons, Token.getLast?_cons_or, Token.eachAfter, Bool.and_eq_true]
      refine ⟨by omega, ?_⟩
      intro heq
      exact ⟨hfollows (by omega), hrestFollows (by omega)⟩

/-- Tokens of an operand's weight, with a queue and with nothing that begins where a part has just
ended, are a formula. -/
theorem exists_derives_of_separate {ts queue : List Token} (h : Postfix.ofFormula ts = .ok queue)
    (hweight : Token.totalWeight ts = 1) (hseparate : Token.eachAfter separate none ts = true) :
    ∃ e, Derives .sum ts e := by
  obtain ⟨hle, hfollows⟩ := totalWeight_add_room_le hseparate
  rw [hweight, Option.or_none] at hle hfollows
  have hend : ts.getLast?.any endsPart = true := by
    by_contra hend
    simp [room, hend] at hle
  refine exists_derives_of_ofFormula h (hfollows ?_) hend
  simp [room, hend]

end Grammar

namespace Formula

open Grammar

/-- A text with a value has tokens whose queue is the postfix order of an expression of that value.
They derive it in the grammar exactly if nothing that begins a part of a formula stands directly
behind the end of one. -/
theorem derives_iff_of_value {text : String} {x : Float} (hblank : isBlank text = false)
    (h : value text = .ok x) :
    ∃ ts e, tokens text = .ok ts ∧ Postfix.ofFormula ts = .ok e.postorder ∧ e.value = .ok x ∧
      (Derives .sum ts e ↔ ∀ front t u back, ts = front ++ t :: u :: back →
        endsPart t = true → beginsPart u = false) := by
  rw [value_eq_bind_queue] at h
  obtain ⟨queued, hqueue, hvalue⟩ := Fault.exists_of_bind_eq_ok h
  rw [queue, hblank, if_neg (by decide)] at hqueue
  obtain ⟨ts, htokens, horder⟩ := Fault.exists_of_bind_eq_ok hqueue
  obtain ⟨e, rfl, he⟩ := Postfix.value_eq_ok_iff.mp hvalue
  refine ⟨ts, e, htokens, horder, he, ?_⟩
  rw [← eachAfter_separate_iff]
  constructor
  · intro hderives
    rw [Token.eachAfter_iff]
    intro front t back hsplit
    have hfollows := Token.eachAfter_iff.mp (hderives.placed.1 none rfl) front t back hsplit
    exact separate_of_follows hfollows
  · intro hseparate
    have hweight := Token.totalWeight_of_ofFormula_postorder horder
    obtain ⟨e', he'⟩ := exists_derives_of_separate horder hweight hseparate
    have hsame := Except.ok.inj ((Postfix.ofFormula_of_derives he').symm.trans horder)
    exact Expr.postorder_injective hsame ▸ he'

/-- A difference in parentheses, divided. -/
theorem derives_iff_of_value_quotient :
    isBlank "(8 - 2) / 3" = false ∧ value "(8 - 2) / 3" = .ok 2 ∧
      ∃ ts e, tokens "(8 - 2) / 3" = .ok ts ∧ Derives .sum ts e := by
  have hblank : isBlank "(8 - 2) / 3" = false := by decide +kernel
  have hvalue : value "(8 - 2) / 3" = .ok 2 := by decide +kernel
  have hread : tokens "(8 - 2) / 3" = .ok [.leftParen, .number 8, .binary .subtract, .number 2,
      .rightParen, .binary .divide, .number 3] := by decide +kernel
  refine ⟨hblank, hvalue, ?_⟩
  obtain ⟨ts, e, htokens, _, _, hiff⟩ := derives_iff_of_value hblank hvalue
  obtain rfl := Except.ok.inj (hread.symm.trans htokens)
  exact ⟨_, e, hread, hiff.mpr (eachAfter_separate_iff.mp rfl)⟩

theorem not_exists_derives {text : String} {ts : List Token} (h : tokens text = .ok ts)
    (hfollows : Token.eachAfter follows none ts = false) :
    ¬∃ us e, tokens text = .ok us ∧ Derives .sum us e := by
  rintro ⟨us, e, htokens, hderives⟩
  obtain rfl := Except.ok.inj (h.symm.trans htokens)
  rw [hderives.placed.1 none rfl] at hfollows
  cases hfollows

/-- An operand behind an operand, a function behind its argument, and parentheses around nothing:
each has a value, and none is in the grammar. -/
theorem value_outside_grammar :
    (isBlank "2 3 +" = false ∧ value "2 3 +" = .ok 5 ∧
        ¬∃ ts e, tokens "2 3 +" = .ok ts ∧ Derives .sum ts e) ∧
      (isBlank "-4 abs" = false ∧ value "-4 abs" = .ok 4 ∧
        ¬∃ ts e, tokens "-4 abs" = .ok ts ∧ Derives .sum ts e) ∧
      isBlank "() 2" = false ∧ value "() 2" = .ok 2 ∧
        ¬∃ ts e, tokens "() 2" = .ok ts ∧ Derives .sum ts e := by
  have hsum : tokens "2 3 +" = .ok [.number 2, .number 3, .binary .add] := by decide +kernel
  have habs : tokens "-4 abs" = .ok [.number (-4), .func .abs] := by decide +kernel
  have hempty : tokens "() 2" = .ok [.leftParen, .rightParen, .number 2] := by decide +kernel
  refine ⟨⟨rfl, ?_, not_exists_derives hsum rfl⟩, ⟨rfl, ?_, not_exists_derives habs rfl⟩,
    rfl, ?_, not_exists_derives hempty rfl⟩
  · decide +kernel
  · decide +kernel
  · decide +kernel

end Formula

end Calculator
