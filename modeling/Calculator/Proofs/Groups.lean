import Calculator.Proofs.Reordering

/-!
A parenthesised group among any tokens. What waits around an open parenthesis is out of reach for
the tokens behind it, so the yard reads a group as it reads the group's tokens by themselves, lets
all of them pass, and is then as it was before. A number does the same with itself, so the one can
stand for the other wherever it is.
-/

namespace Calculator.Postfix

namespace Yard

/-- The yard within further open parentheses, around which `around` waits. -/
def within (yard : Yard) (around : List (List Operation)) : Yard :=
  ⟨yard.inner, yard.outer ++ around⟩

theorem feed_within {yard next : Yard} {t : Token} {passed : List Token}
    (h : yard.feed t = .ok (passed, next)) (around : List (List Operation)) :
    (yard.within around).feed t = .ok (passed, next.within around) := by
  cases t with
  | number x =>
      obtain ⟨rfl, rfl⟩ := Prod.mk.inj (Except.ok.inj h)
      rfl
  | binary op =>
      obtain ⟨rfl, rfl⟩ := Prod.mk.inj (Except.ok.inj h)
      rfl
  | func f =>
      obtain ⟨rfl, rfl⟩ := Prod.mk.inj (Except.ok.inj h)
      rfl
  | leftParen =>
      obtain ⟨rfl, rfl⟩ := Prod.mk.inj (Except.ok.inj h)
      rfl
  | rightParen =>
      obtain ⟨inner, outer⟩ := yard
      cases outer with
      | nil => cases h
      | cons waiting outer =>
          obtain ⟨rfl, rfl⟩ := Prod.mk.inj (Except.ok.inj h)
          rfl

/-- Tokens that the yard takes by themselves leave alone what waits around further parentheses. -/
theorem run_within {yard last : Yard} {ts passed : List Token}
    (h : yard.run ts = .ok (passed, last)) (around : List (List Operation)) :
    (yard.within around).run ts = .ok (passed, last.within around) := by
  induction ts generalizing yard passed with
  | nil =>
      obtain ⟨rfl, rfl⟩ := Prod.mk.inj (Except.ok.inj h)
      rfl
  | cons t ts ih =>
      obtain ⟨now, next, later, hfeed, hlater, rfl⟩ := exists_of_run_cons h
      simp only [run, feed_within hfeed, ih hlater, Except.map]

theorem drain_append (yard : Yard) (ts us : List Token) :
    yard.drain (ts ++ us) = (yard.run ts).bind fun (passed, next) =>
      (next.drain us).map (passed ++ ·) := by
  rw [drain_eq_run, run_append]
  cases hts : yard.run ts with
  | error fault => rfl
  | ok mid =>
      simp only [Except.bind, drain_eq_run]
      cases hus : mid.2.run us with
      | error fault => rfl
      | ok fed => cases hclose : fed.2.close <;> simp [hclose, Except.map]

/-- A group lets pass what its tokens give by themselves, and the yard is as it was before. -/
theorem run_group {ts queue : List Token} (h : ofFormula ts = .ok queue) (yard : Yard) :
    yard.run (.leftParen :: ts ++ [.rightParen]) = .ok (queue, yard) := by
  rw [ofFormula, drain_eq_run] at h
  obtain ⟨⟨passed, last⟩, hrun, h⟩ := Fault.exists_of_bind_eq_ok h
  obtain ⟨rest, hclose, rfl⟩ := Fault.exists_of_map_eq_ok h
  obtain ⟨houter, rfl⟩ := close_eq_ok_iff.mp hclose
  obtain ⟨inner, outer⟩ := last
  obtain rfl : outer = [] := houter
  have hinside : (Yard.mk [] (yard.inner :: yard.outer)).run ts =
      .ok (passed, ⟨inner, yard.inner :: yard.outer⟩) :=
    run_within hrun (yard.inner :: yard.outer)
  have hopen : yard.feed .leftParen = .ok ([], ⟨[], yard.inner :: yard.outer⟩) := rfl
  rw [List.cons_append, run, hopen]
  simp [run_append, hinside, run, feed, Except.bind, Except.map]

theorem run_number (x : Float) (yard : Yard) :
    yard.run [.number x] = .ok ([.number x], yard) := rfl

/-- Tokens that leave the yard as it is add what they let pass at their place, and nothing else. -/
theorem drain_passing {ts queue : List Token} (h : ∀ yard : Yard, yard.run ts = .ok (queue, yard))
    (yard : Yard) (front back : List Token) :
    yard.drain (front ++ ts ++ back) = (yard.run front).bind fun (passed, next) =>
      (next.drain back).map (passed ++ queue ++ ·) := by
  rw [List.append_assoc, drain_append]
  cases hfront : yard.run front with
  | error fault => rfl
  | ok mid =>
      simp only [Except.bind, drain_append, h]
      cases hback : mid.2.drain back <;> simp [Except.map]

end Yard

/-- Anywhere among any tokens, a group of tokens that have a queue fails as a number does there; and
if the number does not fail, its place in the queue, behind the numbers before it and before those
behind it, is where the group has the queue of its tokens. -/
theorem ofFormula_group {ts queue : List Token} (h : ofFormula ts = .ok queue)
    (front back : List Token) (x : Float) :
    (∀ fault, ofFormula (front ++ (.leftParen :: ts ++ [.rightParen]) ++ back) = .error fault ↔
        ofFormula (front ++ [.number x] ++ back) = .error fault) ∧
      (∀ whole, ofFormula (front ++ [.number x] ++ back) = .ok whole →
        ∃ before after, whole = before ++ [.number x] ++ after ∧
          before.filter Token.isNumber = front.filter Token.isNumber ∧
          after.filter Token.isNumber = back.filter Token.isNumber ∧
          ofFormula (front ++ (.leftParen :: ts ++ [.rightParen]) ++ back) =
            .ok (before ++ queue ++ after)) ∧
      ofFormula (.leftParen :: ts ++ [.rightParen]) = .ok queue := by
  have hgroup := Yard.drain_passing (Yard.run_group h) .empty front back
  have hnumber := Yard.drain_passing (Yard.run_number x) .empty front back
  rw [ofFormula, ofFormula, hgroup, hnumber]
  refine ⟨?_, ?_, ?_⟩
  · intro fault
    cases hfront : Yard.empty.run front with
    | error other => rfl
    | ok mid => cases hback : mid.2.drain back <;> simp [Except.bind, Except.map, hback]
  · intro whole hwhole
    obtain ⟨⟨before, next⟩, hfront, hwhole⟩ := Fault.exists_of_bind_eq_ok hwhole
    obtain ⟨after, hback, rfl⟩ := Fault.exists_of_map_eq_ok hwhole
    refine ⟨before, after, rfl, Yard.filter_isNumber_of_run hfront,
      Yard.filter_isNumber_of_drain hback, ?_⟩
    simp only [hfront, hback, Except.bind, Except.map]
  · rw [ofFormula, Yard.drain_eq_run, Yard.run_group h]
    simp [Except.bind, Except.map, Yard.close, Yard.empty]

/-- Two numbers side by side, as one operand of a product that yields to a power behind them. -/
theorem ofFormula_group_of_two :
    ofFormula [.number 7, .binary .multiply, .leftParen, .number 1, .number 2, .rightParen,
        .binary .power, .rightParen] = .error .missingOpen ∧
      ofFormula [.number 7, .binary .multiply, .leftParen, .number 1, .number 2, .rightParen,
        .binary .power, .number 5] =
          .ok [.number 7, .number 1, .number 2, .number 5, .binary .power, .binary .multiply] := by
  have htwo : ofFormula [.number 1, .number 2] = .ok [.number 1, .number 2] := rfl
  have hunbalanced := ofFormula_group htwo [.number 7, .binary .multiply]
    [.binary .power, .rightParen] 3
  have hbalanced := ofFormula_group htwo [.number 7, .binary .multiply]
    [.binary .power, .number 5] 3
  refine ⟨(hunbalanced.1 _).mpr rfl, ?_⟩
  obtain ⟨before, after, hwhole, hbefore, _, hgroup⟩ := hbalanced.2.1 _ rfl
  -- The number's place is behind the seven, which stands in front of it.
  match before, hwhole, hbefore with
  | [], _, hbefore => cases hbefore
  | [_], hwhole, _ =>
      obtain ⟨rfl, hafter⟩ := List.cons.inj hwhole
      obtain ⟨_, rfl⟩ := List.cons.inj hafter
      exact hgroup
  | _ :: _ :: _, hwhole, hbefore =>
      obtain ⟨rfl, hafter⟩ := List.cons.inj hwhole
      obtain ⟨rfl, _⟩ := List.cons.inj hafter
      cases hbefore

end Calculator.Postfix
