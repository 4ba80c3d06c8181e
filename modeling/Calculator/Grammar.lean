import Calculator.Expr

/-!
The grammar of formulas. Sums and differences are grouped from the left and so are products and
quotients, powers from the right; a function takes the atom or the function directly behind it. A
derivation gives the expression that the formula stands for.
-/

namespace Calculator.Grammar

/-- What part of a formula some tokens are. -/
inductive Category where
  | sum
  | product
  | power
  | operand
  | atom
  deriving DecidableEq

/-- Tokens that form a part of the given category, and the expression that they stand for. -/
inductive Derives : Category → List Token → Expr → Prop where
  | add {ts us l r} :
      Derives .sum ts l → Derives .product us r →
        Derives .sum (ts ++ .binary .add :: us) (.binary .add l r)
  | subtract {ts us l r} :
      Derives .sum ts l → Derives .product us r →
        Derives .sum (ts ++ .binary .subtract :: us) (.binary .subtract l r)
  | ofProduct {ts e} : Derives .product ts e → Derives .sum ts e
  | multiply {ts us l r} :
      Derives .product ts l → Derives .power us r →
        Derives .product (ts ++ .binary .multiply :: us) (.binary .multiply l r)
  | divide {ts us l r} :
      Derives .product ts l → Derives .power us r →
        Derives .product (ts ++ .binary .divide :: us) (.binary .divide l r)
  | ofPower {ts e} : Derives .power ts e → Derives .product ts e
  | power {ts us l r} :
      Derives .operand ts l → Derives .power us r →
        Derives .power (ts ++ .binary .power :: us) (.binary .power l r)
  | ofOperand {ts e} : Derives .operand ts e → Derives .power ts e
  | apply {ts e} (f : Func) :
      Derives .operand ts e → Derives .operand (.func f :: ts) (.apply f e)
  | ofAtom {ts e} : Derives .atom ts e → Derives .operand ts e
  | number (x : Float) : Derives .atom [.number x] (.number x)
  | group {ts e} : Derives .sum ts e → Derives .atom (.leftParen :: ts ++ [.rightParen]) e

/-- Tokens between `front` and `back` that a part of a derivation of them all stands on. -/
inductive Part : Category → List Token → List Token → List Token → Prop where
  | whole {c ts e} : Derives c ts e → Part c [] ts []
  | addLeft {front ts back us r} :
      Part .sum front ts back → Derives .product us r →
        Part .sum front ts (back ++ .binary .add :: us)
  | addRight {us l front ts back} :
      Derives .sum us l → Part .product front ts back →
        Part .sum (us ++ .binary .add :: front) ts back
  | subtractLeft {front ts back us r} :
      Part .sum front ts back → Derives .product us r →
        Part .sum front ts (back ++ .binary .subtract :: us)
  | subtractRight {us l front ts back} :
      Derives .sum us l → Part .product front ts back →
        Part .sum (us ++ .binary .subtract :: front) ts back
  | ofProduct {front ts back} : Part .product front ts back → Part .sum front ts back
  | multiplyLeft {front ts back us r} :
      Part .product front ts back → Derives .power us r →
        Part .product front ts (back ++ .binary .multiply :: us)
  | multiplyRight {us l front ts back} :
      Derives .product us l → Part .power front ts back →
        Part .product (us ++ .binary .multiply :: front) ts back
  | divideLeft {front ts back us r} :
      Part .product front ts back → Derives .power us r →
        Part .product front ts (back ++ .binary .divide :: us)
  | divideRight {us l front ts back} :
      Derives .product us l → Part .power front ts back →
        Part .product (us ++ .binary .divide :: front) ts back
  | ofPower {front ts back} : Part .power front ts back → Part .product front ts back
  | powerLeft {front ts back us r} :
      Part .operand front ts back → Derives .power us r →
        Part .power front ts (back ++ .binary .power :: us)
  | powerRight {us l front ts back} :
      Derives .operand us l → Part .power front ts back →
        Part .power (us ++ .binary .power :: front) ts back
  | ofOperand {front ts back} : Part .operand front ts back → Part .power front ts back
  | applied {front ts back} (f : Func) :
      Part .operand front ts back → Part .operand (.func f :: front) ts back
  | ofAtom {front ts back} : Part .atom front ts back → Part .operand front ts back
  | group {front ts back} :
      Part .sum front ts back → Part .atom (.leftParen :: front) ts (back ++ [.rightParen])

theorem Derives.ne_nil {c : Category} {ts : List Token} {e : Expr} (h : Derives c ts e) :
    ts ≠ [] := by
  induction h <;> simp_all

/-- A part stands for an expression, and any other tokens of its category that stand for it can take
the part's place in the derivation of them all. -/
theorem Part.exists_replace {c : Category} {front ts back : List Token}
    (h : Part c front ts back) :
    ∃ d t e, Derives d ts t ∧ ∀ us, Derives d us t → Derives c (front ++ us ++ back) e := by
  induction h with
  | whole hd => exact ⟨_, _, _, hd, fun us hus => by simpa using hus⟩
  | addLeft _ hr ih =>
    obtain ⟨d, t, l, ht, hl⟩ := ih
    exact ⟨d, t, _, ht, fun us hus => by simpa using Derives.add (hl us hus) hr⟩
  | addRight hl _ ih =>
    obtain ⟨d, t, r, ht, hr⟩ := ih
    exact ⟨d, t, _, ht, fun us hus => by simpa using Derives.add hl (hr us hus)⟩
  | subtractLeft _ hr ih =>
    obtain ⟨d, t, l, ht, hl⟩ := ih
    exact ⟨d, t, _, ht, fun us hus => by simpa using Derives.subtract (hl us hus) hr⟩
  | subtractRight hl _ ih =>
    obtain ⟨d, t, r, ht, hr⟩ := ih
    exact ⟨d, t, _, ht, fun us hus => by simpa using Derives.subtract hl (hr us hus)⟩
  | ofProduct _ ih =>
    obtain ⟨d, t, e, ht, he⟩ := ih
    exact ⟨d, t, e, ht, fun us hus => .ofProduct (he us hus)⟩
  | multiplyLeft _ hr ih =>
    obtain ⟨d, t, l, ht, hl⟩ := ih
    exact ⟨d, t, _, ht, fun us hus => by simpa using Derives.multiply (hl us hus) hr⟩
  | multiplyRight hl _ ih =>
    obtain ⟨d, t, r, ht, hr⟩ := ih
    exact ⟨d, t, _, ht, fun us hus => by simpa using Derives.multiply hl (hr us hus)⟩
  | divideLeft _ hr ih =>
    obtain ⟨d, t, l, ht, hl⟩ := ih
    exact ⟨d, t, _, ht, fun us hus => by simpa using Derives.divide (hl us hus) hr⟩
  | divideRight hl _ ih =>
    obtain ⟨d, t, r, ht, hr⟩ := ih
    exact ⟨d, t, _, ht, fun us hus => by simpa using Derives.divide hl (hr us hus)⟩
  | ofPower _ ih =>
    obtain ⟨d, t, e, ht, he⟩ := ih
    exact ⟨d, t, e, ht, fun us hus => .ofPower (he us hus)⟩
  | powerLeft _ hr ih =>
    obtain ⟨d, t, l, ht, hl⟩ := ih
    exact ⟨d, t, _, ht, fun us hus => by simpa using Derives.power (hl us hus) hr⟩
  | powerRight hl _ ih =>
    obtain ⟨d, t, r, ht, hr⟩ := ih
    exact ⟨d, t, _, ht, fun us hus => by simpa using Derives.power hl (hr us hus)⟩
  | ofOperand _ ih =>
    obtain ⟨d, t, e, ht, he⟩ := ih
    exact ⟨d, t, e, ht, fun us hus => .ofOperand (he us hus)⟩
  | applied f _ ih =>
    obtain ⟨d, t, e, ht, he⟩ := ih
    exact ⟨d, t, _, ht, fun us hus => Derives.apply f (he us hus)⟩
  | ofAtom _ ih =>
    obtain ⟨d, t, e, ht, he⟩ := ih
    exact ⟨d, t, e, ht, fun us hus => .ofAtom (he us hus)⟩
  | group _ ih =>
    obtain ⟨d, t, e, ht, he⟩ := ih
    exact ⟨d, t, e, ht, fun us hus => by simpa using Derives.group (he us hus)⟩

end Calculator.Grammar
