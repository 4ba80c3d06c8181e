import Calculator.Proofs.Conservation
import Calculator.Proofs.Queue
import Mathlib.Data.List.Infix

/-!
Counting operands. Computing a queue and building its tree are one stack machine with different
entries on the stack. It keeps as many entries as the tokens before weigh, and reports a lack of
operands at the first token behind which that would be none. So it can be said without a stack what
becomes of a queue: it lacks operands if some of its first tokens weigh nothing or less, it has too
many if all of them weigh anything but one, and else it has a value and a tree, unless a function's
domain is left or the tree has too many levels.
-/

namespace Calculator

namespace Token

/-- At some token, what has been read up to it weighs nothing or less. -/
def RunsShort (ts : List Token) : Prop :=
  ∃ front, front <+: ts ∧ front ≠ [] ∧ totalWeight front ≤ 0

/-- The weights of the tokens alone say whether there is a result, and which fault there is else. -/
structure DecidedByWeight {α : Type} (ts : List Token) (result : Except Fault α) : Prop where
  notEnough : result = .error .notEnoughOperands ↔ RunsShort ts
  tooMany : result = .error .tooManyOperands ↔ ¬RunsShort ts ∧ totalWeight ts ≠ 1
  ok : (∃ x, result = .ok x) ↔ ¬RunsShort ts ∧ totalWeight ts = 1

end Token

open Token (totalWeight RunsShort DecidedByWeight)

namespace Machine

variable {α β : Type}

variable {m : Machine α β} {stack : List α} {t : Token} {ts : List Token} {fault : Fault}

/-- A token that is taken changes the number of entries by its weight and leaves one at least. -/
theorem length_of_step {next : List α} (h : m.step stack t = .ok next) :
    (next.length : Int) = stack.length + t.weight ∧ 1 ≤ stack.length + t.weight := by
  cases t with
  | number x =>
      obtain rfl := Except.ok.inj h
      simp only [List.length_cons, Token.weight]
      omega
  | binary op =>
      rcases stack with _ | ⟨b, _ | ⟨a, rest⟩⟩
      · cases h
      · cases h
      · obtain ⟨x, _, rfl⟩ := Fault.exists_of_map_eq_ok h
        simp only [List.length_cons, Token.weight]
        omega
  | func f =>
      cases stack with
      | nil => cases h
      | cons a rest =>
          obtain ⟨b, _, rfl⟩ := Fault.exists_of_map_eq_ok h
          simp only [List.length_cons, Token.weight]
          omega
  | leftParen | rightParen => cases h

/-- A token that is not taken would leave no entry, or its operation refuses operands that are
there. -/
theorem eq_or_refuses_of_step (ht : t.isParenthesis = false) (h : m.step stack t = .error fault) :
    fault = .notEnoughOperands ∧ stack.length + t.weight ≤ 0 ∨
      m.Refuses t fault ∧ 1 ≤ stack.length + t.weight := by
  cases t with
  | number x => cases h
  | binary op =>
      rcases stack with _ | ⟨b, _ | ⟨a, rest⟩⟩
      · exact .inl ⟨(Except.error.inj h).symm, by simp [Token.weight]⟩
      · exact .inl ⟨(Except.error.inj h).symm, by simp [Token.weight]⟩
      · refine .inr ⟨⟨a, b, Fault.map_eq_error.mp h⟩, ?_⟩
        simp only [List.length_cons, Token.weight]
        omega
  | func f =>
      cases stack with
      | nil => exact .inl ⟨(Except.error.inj h).symm, by simp [Token.weight]⟩
      | cons a rest =>
          refine .inr ⟨⟨a, Fault.map_eq_error.mp h⟩, ?_⟩
          simp only [List.length_cons, Token.weight]
          omega
  | leftParen | rightParen => cases ht

/-- By induction on the tokens: where all of them are taken, the number of entries has changed by
what they weigh, and there were operands enough at each of them. -/
theorem length_of_run {last : List α} (h : ts.foldlM m.step stack = .ok last) :
    (last.length : Int) = stack.length + totalWeight ts ∧
      ∀ front, front <+: ts → front ≠ [] → 1 ≤ stack.length + totalWeight front := by
  induction ts generalizing stack with
  | nil =>
      obtain rfl := Except.ok.inj h
      refine ⟨by simp, ?_⟩
      intro front hfront hne
      exact absurd (List.prefix_nil.mp hfront) hne
  | cons t ts ih =>
      rw [List.foldlM_cons] at h
      obtain ⟨next, hstep, hrest⟩ := Fault.exists_of_bind_eq_ok h
      obtain ⟨hlength, hpos⟩ := length_of_step hstep
      obtain ⟨hlast, hfronts⟩ := ih hrest
      refine ⟨by rw [Token.totalWeight_cons]; omega, ?_⟩
      intro front hfront hne
      rcases List.prefix_cons_iff.mp hfront with rfl | ⟨more, rfl, hmore⟩
      · exact absurd rfl hne
      · rw [Token.totalWeight_cons]
        by_cases hnil : more = []
        · simpa [hnil] using hpos
        · have := hfronts more hmore hnil
          omega

/-- Where not all tokens are taken, the run stops at one of them. -/
theorem exists_step_of_run (h : ts.foldlM m.step stack = .error fault) :
    ∃ front t back mid, ts = front ++ t :: back ∧ front.foldlM m.step stack = .ok mid ∧
      m.step mid t = .error fault := by
  induction ts generalizing stack with
  | nil => cases h
  | cons t ts ih =>
      rw [List.foldlM_cons] at h
      cases hstep : m.step stack t with
      | error other =>
          rw [hstep] at h
          obtain rfl : other = fault := Except.error.inj h
          exact ⟨[], t, ts, stack, rfl, rfl, hstep⟩
      | ok next =>
          rw [hstep] at h
          obtain ⟨front, u, back, mid, rfl, hfront, hu⟩ := ih h
          refine ⟨t :: front, u, back, mid, rfl, ?_, hu⟩
          rw [List.foldlM_cons, hstep]
          exact hfront

/-- What can become of tokens that a machine begins with. -/
inductive Outcome (m : Machine α β) (ts : List Token) : Except Fault (List α) → Prop where
  | done {last : List α} : ¬RunsShort ts → (last.length : Int) = totalWeight ts →
      m.Outcome ts (.ok last)
  | short : RunsShort ts → m.Outcome ts (.error .notEnoughOperands)
  | refused {front back : List Token} {t : Token} {mid : List α} {fault : Fault} :
      ts = front ++ t :: back → front.foldlM m.step [] = .ok mid → m.step mid t = .error fault →
      m.Refuses t fault → (∀ us, us <+: front ++ [t] → us ≠ [] → 1 ≤ totalWeight us) →
      m.Outcome ts (.error fault)

theorem outcome (m : Machine α β) (hts : ∀ t ∈ ts, t.isParenthesis = false) :
    m.Outcome ts (ts.foldlM m.step []) := by
  cases hrun : ts.foldlM m.step [] with
  | ok last =>
      obtain ⟨hlength, hfronts⟩ := length_of_run hrun
      rw [List.length_nil] at hlength hfronts
      refine .done ?_ (by omega)
      rintro ⟨front, hfront, hne, hweight⟩
      have := hfronts front hfront hne
      omega
  | error fault =>
      obtain ⟨front, t, back, mid, rfl, hfront, hstep⟩ := exists_step_of_run hrun
      obtain ⟨hlength, hfronts⟩ := length_of_run hfront
      rw [List.length_nil] at hlength hfronts
      have hweight : totalWeight (front ++ [t]) = mid.length + t.weight := by
        rw [Token.totalWeight_append, Token.totalWeight_cons, Token.totalWeight_nil]
        omega
      rcases eq_or_refuses_of_step (hts t (by simp)) hstep with ⟨rfl, hshort⟩ | ⟨hrefuses, hpos⟩
      · exact .short ⟨front ++ [t], ⟨back, by simp⟩, by simp, by omega⟩
      · refine .refused rfl hfront hstep hrefuses ?_
        intro us hus hne
        rcases List.prefix_concat_iff.mp hus with rfl | hus
        · omega
        · have := hfronts us hus hne
          omega

/-- Where no operation refuses its operands, the weights decide what is computed. -/
theorem decidedByWeight (m : Machine α β) (hts : ∀ t ∈ ts, t.isParenthesis = false)
    (hrefuses : ∀ t fault, m.Refuses t fault → m.compute ts ≠ .error fault) :
    DecidedByWeight ts (m.compute ts) := by
  unfold compute computeOn at hrefuses ⊢
  generalize hrun : ts.foldlM m.step [] = run at hrefuses ⊢
  cases hrun ▸ m.outcome hts with
  | @done last hshort hlength =>
      by_cases hlast : last.length = 1
      · obtain ⟨x, rfl⟩ := List.length_eq_one_iff.mp hlast
        have hweight : totalWeight ts = 1 := by omega
        constructor <;> simp [Except.bind, finish, hshort, hweight]
      · have hweight : totalWeight ts ≠ 1 := by omega
        constructor <;> simp [Except.bind, finish_of_length_ne_one m hlast, hshort, hweight]
  | short hshort => constructor <;> simp [Except.bind, hshort]
  | refused _ _ _ hfault _ => exact absurd rfl (hrefuses _ _ hfault)

/-- Where an operation refuses its operands, there were operands enough at each token up to it. -/
theorem exists_refused (hts : ∀ t ∈ ts, t.isParenthesis = false)
    (h : m.compute ts = .error fault) (hnotEnough : fault ≠ .notEnoughOperands)
    (htooMany : fault ≠ .tooManyOperands) :
    ∃ front t back mid, ts = front ++ t :: back ∧ front.foldlM m.step [] = .ok mid ∧
      m.step mid t = .error fault ∧ m.Refuses t fault ∧
      ∀ us, us <+: front ++ [t] → us ≠ [] → 1 ≤ totalWeight us := by
  unfold compute computeOn at h
  generalize hrun : ts.foldlM m.step [] = run at h
  cases hrun ▸ m.outcome hts with
  | @done last hshort hlength =>
      by_cases hlast : last.length = 1
      · obtain ⟨x, rfl⟩ := List.length_eq_one_iff.mp hlast
        cases h
      · rw [Except.bind, finish_of_length_ne_one m hlast] at h
        exact absurd (Except.error.inj h).symm htooMany
  | short hshort => exact absurd (Except.error.inj h).symm hnotEnough
  | refused hsplit hfront hstep hrefuses hweights =>
      obtain rfl := Except.error.inj h
      exact ⟨_, _, _, _, hsplit, hfront, hstep, hrefuses, hweights⟩

end Machine

/-- Of numbers, functions and operators the weights decide what becomes, both where they are
computed and where their tree is built, unless a function's domain is left or the tree has too many
levels. And where a domain is left, that is at a function with operands enough up to it. -/
theorem decided_by_weight {ts : List Token} (hts : ∀ t ∈ ts, t.isParenthesis = false) :
    ((∀ f, Postfix.value ts ≠ .error (.outsideDomain f)) →
        DecidedByWeight ts (Postfix.value ts)) ∧
      (∀ f, Postfix.value ts = .error (.outsideDomain f) →
        ∃ front back stack, ts = front ++ .func f :: back ∧
          front.foldlM Postfix.step [] = .ok stack ∧
          Postfix.step stack (.func f) = .error (.outsideDomain f) ∧
          ∀ us, us <+: front ++ [.func f] → us ≠ [] → 1 ≤ totalWeight us) ∧
      (Expr.ofPostfix ts ≠ .error (.tooDeeplyNested Expr.levelLimit) →
        DecidedByWeight ts (Expr.ofPostfix ts)) := by
  rw [Postfix.value, Postfix.valueOn_eq_computeOn, Expr.ofPostfix, Expr.ofPostfixOn_eq_computeOn,
    Postfix.step_eq_machine_step]
  refine ⟨?_, ?_, ?_⟩
  · intro hdomain
    refine Postfix.machine.decidedByWeight hts ?_
    intro t fault hrefuses
    obtain ⟨f, _, rfl⟩ := Postfix.eq_func_of_refuses hrefuses
    exact hdomain f
  · intro f hf
    obtain ⟨front, t, back, stack, hsplit, hfront, hstep, hrefuses, hweights⟩ :=
      Machine.exists_refused hts hf (by simp) (by simp)
    obtain ⟨g, rfl, hg⟩ := Postfix.eq_func_of_refuses hrefuses
    obtain rfl := Fault.outsideDomain.inj hg
    exact ⟨front, back, stack, hsplit, hfront, hstep, hweights⟩
  · intro hdeep
    refine Expr.machine.decidedByWeight hts ?_
    intro t fault hrefuses
    rw [Expr.eq_of_refuses hrefuses]
    exact hdeep

/-- All tokens together weigh one, but the plus comes before its second operand. -/
theorem decided_by_weight_early_plus :
    totalWeight [.number 2, .binary .add, .number 3] = 1 ∧
      Postfix.value [.number 2, .binary .add, .number 3] = .error .notEnoughOperands ∧
      Expr.ofPostfix [.number 2, .binary .add, .number 3] = .error .notEnoughOperands := by
  have hshort : RunsShort [.number 2, .binary .add, .number 3] :=
    ⟨[.number 2, .binary .add], ⟨[.number 3], rfl⟩, by simp, by decide⟩
  obtain ⟨hvalue, _, htree⟩ :=
    @decided_by_weight [.number 2, .binary .add, .number 3] (by decide)
  refine ⟨by decide, (hvalue ?_).notEnough.mpr hshort, (htree ?_).notEnough.mpr hshort⟩
  · intro f h
    cases h
  · intro h
    cases h

end Calculator
