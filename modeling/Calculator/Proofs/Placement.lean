import Calculator.Proofs.Conservation
import Calculator.Proofs.Scanning

/-!
Where the tokens of a formula stand. The tokens of a derivation follow each other: operators and
closing parentheses behind the end of a part, and everything else where a part may begin. Tokens
with a queue that do so have a derivation, since their parentheses match. And tokens that weigh as
much as one operand do so already if nothing that begins a part stands directly behind the end of
one: a token that stood elsewhere in a wrong place would lose weight that no other token could make
up for.
-/

namespace Calculator

namespace Grammar

/-- A token that a part of a formula can end in. -/
def endsPart : Token → Bool
  | .number _ | .rightParen => true
  | .binary _ | .func _ | .leftParen => false

/-- Behind the end of a part stands an operator or a closing parenthesis, and elsewhere a token that
a part can begin with. -/
def follows (before : Option Token) : Token → Bool
  | .binary _ | .rightParen => before.any endsPart
  | .number _ | .func _ | .leftParen => !before.any endsPart

/-- Tokens that follow each other, from where a part may begin to where it may end. -/
def Placed (ts : List Token) : Prop :=
  (∀ before : Option Token, before.any endsPart = false →
    Token.eachAfter follows before ts = true) ∧ ts.getLast?.any endsPart = true

theorem placed_number (x : Float) : Placed [.number x] := by
  refine ⟨?_, rfl⟩
  intro before hbefore
  simp [Token.eachAfter, follows, hbefore]

theorem getLast?_or_of_any {ts : List Token} (h : ts.getLast?.any endsPart = true)
    (before : Option Token) : ts.getLast?.or before = ts.getLast? := by
  cases hlast : ts.getLast? with
  | none =>
      rw [hlast] at h
      cases h
  | some t => rfl

theorem any_getLast?_append (front : List Token) {ts : List Token}
    (h : ts.getLast?.any endsPart = true) : (front ++ ts).getLast?.any endsPart = true := by
  rw [List.getLast?_append, getLast?_or_of_any h, h]

theorem Placed.binary {ts us : List Token} (hl : Placed ts) (hr : Placed us) (op : BinaryOp) :
    Placed (ts ++ .binary op :: us) := by
  constructor
  · intro before hbefore
    rw [Token.eachAfter_append, getLast?_or_of_any hl.2, hl.1 before hbefore, Token.eachAfter,
      hr.1 (some (.binary op)) rfl, follows, hl.2]
    rfl
  · rw [List.append_cons]
    exact any_getLast?_append _ hr.2

theorem Placed.func {ts : List Token} (h : Placed ts) (f : Func) : Placed (.func f :: ts) := by
  constructor
  · intro before hbefore
    rw [Token.eachAfter, h.1 (some (.func f)) rfl, follows, hbefore]
    rfl
  · exact any_getLast?_append [.func f] h.2

theorem Placed.group {ts : List Token} (h : Placed ts) :
    Placed (.leftParen :: ts ++ [.rightParen]) := by
  constructor
  · intro before hbefore
    rw [List.cons_append, Token.eachAfter, Token.eachAfter_append, getLast?_or_of_any h.2,
      h.1 (some .leftParen) rfl, follows, hbefore, Token.eachAfter, follows, h.2]
    rfl
  · exact any_getLast?_append (.leftParen :: ts) rfl

theorem Derives.placed {c : Category} {ts : List Token} {e : Expr} (h : Derives c ts e) :
    Placed ts := by
  induction h using Derives.inductionOn with
  | binary op _ _ ihl ihr => exact ihl.binary ihr op
  | lower _ _ _ ih => exact ih
  | apply f _ ih => exact ih.func f
  | number x => exact placed_number x
  | group _ ih => exact ih.group

/-- An operator and an operand behind a part that can be the operator's left operand. -/
theorem Derives.before_operand {c : Category} {ts us : List Token} {e r : Expr}
    (h : Derives c ts e) (op : BinaryOp) (hr : Derives .operand us r)
    (hle : (op.operandCategory .left).level ≤ c.level) :
    Derives op.category (ts ++ .binary op :: us) (.binary op e r) :=
  .binary op (h.lower _ hle) (hr.lower _ (by cases op <;> decide))

/-- What stands behind an operation belongs to its right operand, or takes the whole operation for
its left one. -/
theorem Derives.binary_snoc (inner : BinaryOp) {op : BinaryOp} {ts us vs : List Token}
    {l r o : Expr} (hl : Derives (inner.operandCategory .left) ts l)
    (hr : Derives (inner.operandCategory .right) us r) (ho : Derives .operand vs o)
    (ih : (inner.operandCategory .right).level ≤ op.precedence →
      ∃ e, Derives (inner.operandCategory .right) (us ++ .binary op :: vs) e)
    (hle : inner.category.level ≤ op.precedence) :
    ∃ e, Derives inner.category ((ts ++ .binary inner :: us) ++ .binary op :: vs) e := by
  by_cases hright : (inner.operandCategory .right).level ≤ op.precedence
  · obtain ⟨e, he⟩ := ih hright
    rw [List.append_assoc, List.cons_append]
    exact ⟨_, .binary inner hl he⟩
  · have hleft : (op.operandCategory .left).level ≤ inner.category.level := by
      revert hright hle
      cases op <;> cases inner <;> decide
    have hwhole := (Derives.binary inner hl hr).before_operand op ho hleft
    exact ⟨_, hwhole.lower _ (by rwa [op.level_category])⟩

/-- What stands behind a part of a higher category belongs to that part, or takes it for its left
operand. -/
theorem Derives.lower_snoc {c d : Category} {op : BinaryOp} {ts vs : List Token} {e o : Expr}
    (h : Derives d ts e) (ho : Derives .operand vs o) (hlower : c.level ≤ d.level)
    (ih : d.level ≤ op.precedence → ∃ e', Derives d (ts ++ .binary op :: vs) e')
    (hle : c.level ≤ op.precedence) : ∃ e', Derives c (ts ++ .binary op :: vs) e' := by
  by_cases hd : d.level ≤ op.precedence
  · obtain ⟨e', he'⟩ := ih hd
    exact ⟨e', he'.lower c hlower⟩
  · have hleft : (op.operandCategory .left).level ≤ op.precedence + 1 := by cases op <;> decide
    have hwhole := h.before_operand op ho (by omega)
    exact ⟨_, hwhole.lower c (by rwa [op.level_category])⟩

/-- One more operand can go on with a part, behind an operator that the part's category admits. -/
theorem Derives.snoc {c : Category} {ts vs : List Token} {e o : Expr} (h : Derives c ts e)
    (op : BinaryOp) (ho : Derives .operand vs o) (hle : c.level ≤ op.precedence) :
    ∃ e', Derives c (ts ++ .binary op :: vs) e' := by
  have htop : op.precedence < 4 := by cases op <;> decide
  induction h using Derives.inductionOn with
  | binary inner hl hr _ ih => exact Derives.binary_snoc inner hl hr ho ih hle
  | lower d h hlower ih => exact h.lower_snoc ho hlower ih hle
  | apply | number | group => exact absurd hle (by simp [Category.level]; omega)

/-- Tokens that any operand behind them completes to a formula. -/
def Awaits (ts : List Token) : Prop :=
  ∀ us r, Derives .operand us r → ∃ e, Derives .sum (ts ++ us) e

theorem awaits_nil : Awaits [] := by
  intro us r hr
  exact ⟨r, hr.lower .sum (by decide)⟩

theorem Awaits.func {ts : List Token} (h : Awaits ts) (f : Func) : Awaits (ts ++ [.func f]) := by
  intro us r hr
  rw [List.append_assoc]
  exact h _ _ (.apply f hr)

theorem awaits_binary {ts : List Token} {e : Expr} (h : Derives .sum ts e) (op : BinaryOp) :
    Awaits (ts ++ [.binary op]) := by
  intro us r hr
  rw [List.append_assoc]
  exact h.snoc op hr (by cases op <;> decide)

/-- Tokens up to the last of `n` open parentheses, each of which stands where an operand may. -/
def Opens : Nat → List Token → Prop
  | 0, ts => ts = []
  | n + 1, ts => ∃ outer inner, ts = outer ++ inner ++ [.leftParen] ∧ Opens n outer ∧ Awaits inner

/-- What has been read before a token: tokens up to the last of `n` open parentheses, and behind
that a formula if the last token ends a part, and otherwise tokens that await an operand. -/
def Progress (n : Nat) (before : Option Token) (ts : List Token) : Prop :=
  ∃ outer inner, ts = outer ++ inner ∧ Opens n outer ∧
    match before.any endsPart with
    | true => ∃ e, Derives .sum inner e
    | false => Awaits inner

theorem Progress.awaits {n : Nat} {before : Option Token} {ts : List Token}
    (h : Progress n before ts) (hbefore : before.any endsPart = false) :
    ∃ outer inner, ts = outer ++ inner ∧ Opens n outer ∧ Awaits inner := by
  obtain ⟨outer, inner, hts, houter, hinner⟩ := h
  rw [hbefore] at hinner
  exact ⟨outer, inner, hts, houter, hinner⟩

theorem Progress.derives {n : Nat} {before : Option Token} {ts : List Token}
    (h : Progress n before ts) (hbefore : before.any endsPart = true) :
    ∃ outer inner e, ts = outer ++ inner ∧ Opens n outer ∧ Derives .sum inner e := by
  obtain ⟨outer, inner, hts, houter, hinner⟩ := h
  rw [hbefore] at hinner
  obtain ⟨e, he⟩ := hinner
  exact ⟨outer, inner, e, hts, houter, he⟩

/-- A token that follows the last one keeps up the progress; closing a parenthesis makes an operand
of what stands in it. -/
theorem Progress.feed {yard next : Postfix.Yard} {before : Option Token} {t : Token}
    {ts passed : List Token} (h : Progress yard.outer.length before ts)
    (hfeed : yard.feed t = .ok (passed, next)) (hfollows : follows before t = true) :
    Progress next.outer.length (some t) (ts ++ [t]) := by
  cases t with
  | number x =>
      obtain ⟨_, rfl⟩ := Prod.mk.inj (Except.ok.inj hfeed)
      obtain ⟨outer, inner, rfl, houter, hinner⟩ := h.awaits (by simpa [follows] using hfollows)
      refine ⟨outer, inner ++ [.number x], List.append_assoc .., houter, ?_⟩
      exact hinner _ _ (.ofAtom (.number x))
  | binary op =>
      obtain ⟨_, rfl⟩ := Prod.mk.inj (Except.ok.inj hfeed)
      obtain ⟨outer, inner, e, rfl, houter, he⟩ := h.derives hfollows
      refine ⟨outer, inner ++ [.binary op], List.append_assoc .., houter, ?_⟩
      exact awaits_binary he op
  | func f =>
      obtain ⟨_, rfl⟩ := Prod.mk.inj (Except.ok.inj hfeed)
      obtain ⟨outer, inner, rfl, houter, hinner⟩ := h.awaits (by simpa [follows] using hfollows)
      refine ⟨outer, inner ++ [.func f], List.append_assoc .., houter, ?_⟩
      exact hinner.func f
  | leftParen =>
      obtain ⟨_, rfl⟩ := Prod.mk.inj (Except.ok.inj hfeed)
      obtain ⟨outer, inner, rfl, houter, hinner⟩ := h.awaits (by simpa [follows] using hfollows)
      exact ⟨outer ++ inner ++ [.leftParen], [], (List.append_nil _).symm,
        ⟨outer, inner, rfl, houter, hinner⟩, awaits_nil⟩
  | rightParen =>
      obtain ⟨waiting, around⟩ := yard
      cases around with
      | nil => cases hfeed
      | cons first rest =>
          obtain ⟨_, rfl⟩ := Prod.mk.inj (Except.ok.inj hfeed)
          obtain ⟨_, group, e, rfl, ⟨outer, inner, rfl, houter, hinner⟩, he⟩ := h.derives hfollows
          refine ⟨outer, inner ++ (.leftParen :: group ++ [.rightParen]), by simp, houter, ?_⟩
          exact hinner _ _ (.ofAtom (.group he))

/-- By induction on the tokens: those that the yard takes, and that follow each other, keep up the
progress. -/
theorem Progress.run {yard last : Postfix.Yard} {before : Option Token} {ts us passed : List Token}
    (h : Progress yard.outer.length before ts) (hrun : yard.run us = .ok (passed, last))
    (hfollows : Token.eachAfter follows before us = true) :
    Progress last.outer.length (us.getLast?.or before) (ts ++ us) := by
  induction us generalizing yard before ts passed with
  | nil =>
      obtain ⟨_, rfl⟩ := Prod.mk.inj (Except.ok.inj hrun)
      simpa using h
  | cons u us ih =>
      obtain ⟨_, next, _, hfeed, hlater, _⟩ := Postfix.Yard.exists_of_run_cons hrun
      rw [Token.eachAfter, Bool.and_eq_true] at hfollows
      have hrest := ih (h.feed hfeed hfollows.1) hlater hfollows.2
      rwa [List.append_assoc, List.singleton_append, ← Token.getLast?_cons_or u us before] at hrest

/-- Tokens that have a queue and follow each other as in a formula are one. -/
theorem exists_derives_of_ofFormula {ts queue : List Token} (h : Postfix.ofFormula ts = .ok queue)
    (hfollows : Token.eachAfter follows none ts = true)
    (hlast : ts.getLast?.any endsPart = true) : ∃ e, Derives .sum ts e := by
  rw [Postfix.ofFormula, Postfix.Yard.drain_eq_run] at h
  obtain ⟨⟨passed, last⟩, hrun, h⟩ := Fault.exists_of_bind_eq_ok h
  obtain ⟨_, hclose, _⟩ := Fault.exists_of_map_eq_ok h
  obtain ⟨hempty, _⟩ := Postfix.Yard.close_eq_ok_iff.mp hclose
  have hstart : Progress Postfix.Yard.empty.outer.length none [] := ⟨[], [], rfl, rfl, awaits_nil⟩
  have hend := hstart.run hrun hfollows
  rw [hempty, Option.or_none] at hend
  obtain ⟨outer, inner, e, hts, houter, he⟩ := hend.derives hlast
  obtain rfl : outer = [] := houter
  obtain rfl : ts = inner := hts
  exact ⟨e, he⟩

end Grammar

end Calculator
