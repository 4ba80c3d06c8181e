import Calculator.Number.ReadBack
import Calculator.Token.Scanner
import Calculator.Token.Spacing

/-!
What the scanner reads. From any text come only tokens that may stand where they do: finite numbers,
no negative one directly behind a number, and no dash but behind one. And a token that may stand at
a place is read back from its own text there, if what follows the text does not go on with it.
-/

namespace Calculator.Token

theorem scanAfter_nil (afterNumber : Bool) : scanAfter afterNumber [] = .ok [] := by
  rw [scanAfter]

theorem scanAfter_blank {c : Char} (h : Text.isBlank c = true) (afterNumber : Bool)
    (cs : List Char) : scanAfter afterNumber (c :: cs) = scanAfter afterNumber cs := by
  rw [scanAfter, if_pos h]

theorem scanAfter_cons {c : Char} (h : Text.isBlank c = false) (afterNumber : Bool)
    (cs : List Char) :
    scanAfter afterNumber (c :: cs) = (first afterNumber c cs).bind fun (t, rest) =>
      (scanAfter t.isNumber rest).map (t :: ·) := by
  rw [scanAfter, if_neg (by simp [h])]
  split
  · next hfirst => simp only [hfirst, Except.bind]
  · next hfirst => simp only [hfirst, Except.bind]

/-- Blanks in front of a text are skipped. -/
theorem scanAfter_blanks_append {gap : List Char} (h : Text.isBlankText gap = true)
    (afterNumber : Bool) (cs : List Char) :
    scanAfter afterNumber (gap ++ cs) = scanAfter afterNumber cs := by
  induction gap with
  | nil => rfl
  | cons c gap ih =>
      simp only [Text.isBlankText, List.all_cons, Bool.and_eq_true] at h
      rw [List.cons_append, scanAfter_blank h.1]
      exact ih h.2

theorem scanAfter_of_isBlankText {cs : List Char} (h : Text.isBlankText cs = true)
    (afterNumber : Bool) : scanAfter afterNumber cs = .ok [] := by
  have hskip := scanAfter_blanks_append h afterNumber []
  rwa [List.append_nil, scanAfter_nil] at hskip

theorem isBlankText_takeWhile (cs : List Char) :
    Text.isBlankText (cs.takeWhile Text.isBlank) = true :=
  List.all_takeWhile

theorem dropWhile_blanks_append {gap : List Char} (h : Text.isBlankText gap = true)
    (cs : List Char) : (gap ++ cs).dropWhile Text.isBlank = cs.dropWhile Text.isBlank :=
  List.dropWhile_append_of_pos (List.all_eq_true.mp h)

/-- Behind its blanks, the text begins with the token `t`, and `rest` follows that. -/
def Begins (afterNumber : Bool) (cs : List Char) (t : Token) (rest : List Char) : Prop :=
  ∃ c tail, cs.dropWhile Text.isBlank = c :: tail ∧ first afterNumber c tail = .ok (t, rest)

namespace Begins

variable {afterNumber : Bool} {cs rest : List Char} {t : Token}

theorem of_first {c : Char} (hblank : Text.isBlank c = false)
    (h : first afterNumber c cs = .ok (t, rest)) : Begins afterNumber (c :: cs) t rest :=
  ⟨c, cs, List.dropWhile_cons_of_neg (by simp [hblank]), h⟩

theorem blanks_append (h : Begins afterNumber cs t rest) {gap : List Char}
    (hgap : Text.isBlankText gap = true) : Begins afterNumber (gap ++ cs) t rest := by
  obtain ⟨c, tail, hcs, hfirst⟩ := h
  exact ⟨c, tail, by rw [dropWhile_blanks_append hgap, hcs], hfirst⟩

/-- What a text begins with is scanned first. -/
theorem scanAfter (h : Begins afterNumber cs t rest) :
    scanAfter afterNumber cs = (scanAfter t.isNumber rest).map (t :: ·) := by
  obtain ⟨c, tail, hcs, hfirst⟩ := h
  have hblank : Text.isBlank c = false := by
    have hhead := List.head?_dropWhile_not Text.isBlank cs
    rw [hcs] at hhead
    exact hhead
  rw [← List.takeWhile_append_dropWhile (p := Text.isBlank) (l := cs),
    scanAfter_blanks_append (isBlankText_takeWhile cs), hcs, scanAfter_cons hblank, hfirst]
  rfl

/-- Texts that differ in nothing but the blanks in front begin alike. -/
theorem unique {ds left : List Char} {u : Token} (h : Begins afterNumber cs t rest)
    (h' : Begins afterNumber ds u left)
    (hsame : cs.dropWhile Text.isBlank = ds.dropWhile Text.isBlank) : t = u ∧ rest = left := by
  obtain ⟨c, tail, hcs, hfirst⟩ := h
  obtain ⟨d, tail', hds, hfirst'⟩ := h'
  rw [hcs, hds] at hsame
  obtain ⟨rfl, rfl⟩ := List.cons.inj hsame
  rw [hfirst] at hfirst'
  exact Prod.mk.inj (Except.ok.inj hfirst')

end Begins

/-- Whether each token is as `ok` says, which is also told the token directly before it. -/
def eachAfter (ok : Option Token → Token → Bool) : Option Token → List Token → Bool
  | _, [] => true
  | before, t :: ts => ok before t && eachAfter ok (some t) ts

theorem getLast?_cons_or (t : Token) (ts : List Token) (before : Option Token) :
    (t :: ts).getLast?.or before = ts.getLast?.or (some t) := by
  cases ts with
  | nil => rfl
  | cons u us => simp [List.getLast?_cons]

theorem eachAfter_append (ok : Option Token → Token → Bool) (before : Option Token)
    (ts us : List Token) :
    eachAfter ok before (ts ++ us) =
      (eachAfter ok before ts && eachAfter ok (ts.getLast?.or before) us) := by
  induction ts generalizing before with
  | nil => rfl
  | cons t ts ih =>
      rw [List.cons_append, eachAfter, eachAfter, ih, getLast?_cons_or, Bool.and_assoc]

/-- `eachAfter` says of every place in the list what `ok` says of it. -/
theorem eachAfter_iff {ok : Option Token → Token → Bool} {before : Option Token}
    {ts : List Token} :
    eachAfter ok before ts = true ↔
      ∀ front t back, ts = front ++ t :: back → ok (front.getLast?.or before) t = true := by
  constructor
  · rintro h front t back rfl
    rw [eachAfter_append, Bool.and_eq_true, eachAfter, Bool.and_eq_true] at h
    exact h.2.1
  · intro h
    induction ts generalizing before with
    | nil => rfl
    | cons t ts ih =>
        rw [eachAfter, Bool.and_eq_true]
        refine ⟨h [] t ts rfl, ih ?_⟩
        rintro front u back rfl
        rw [← getLast?_cons_or t front before]
        exact h (t :: front) u back rfl

/-- Whether a token may stand directly behind a number, or elsewhere. -/
def readable (afterNumber : Bool) : Token → Bool
  | number x => Number.isFinite x && !(afterNumber && Number.isNegative x)
  | binary .subtract => afterNumber
  | binary _ | func _ | leftParen | rightParen => true

/-- Whether a token may stand directly behind the token `before`. -/
def readableAfter (before : Option Token) (t : Token) : Bool := readable (before.any isNumber) t

theorem finite?_spec {negative : Bool} {cs : List Char} {x : Float}
    (h : Number.ofLiteral?.finite? negative cs = some x) :
    Number.isFinite x = true ∧ Number.isNegative x = negative := by
  unfold Number.ofLiteral?.finite? at h
  split at h
  · cases h
  · next d _ =>
    simp only [Option.ite_none_right_eq_some, Option.some.injEq] at h
    obtain ⟨hlt, rfl⟩ := h
    simp [Number.isFinite, hlt]

/-- A literal is read as a finite number, and as a negative one only if it starts with a dash. -/
theorem ofLiteral_eq_ok {c : Char} {cs : List Char} {t : Token}
    (h : ofLiteral (c :: cs) = .ok t) :
    ∃ x, t = number x ∧ Number.isFinite x = true ∧ (Number.isNegative x = true → c = '-') := by
  unfold ofLiteral at h
  split at h
  · next x hx =>
    obtain rfl := Except.ok.inj h
    unfold Number.ofLiteral? at hx
    split at hx
    · next rest heq =>
      obtain ⟨rfl, rfl⟩ := List.cons.inj heq
      exact ⟨x, rfl, (finite?_spec hx).1, fun _ => rfl⟩
    · refine ⟨x, rfl, (finite?_spec hx).1, ?_⟩
      rw [(finite?_spec hx).2]
      intro hfalse
      cases hfalse
  · cases h

theorem ofName_eq_ok {cs : List Char} {t : Token} (h : ofName cs = .ok t) :
    ∃ f, t = func f := by
  unfold ofName at h
  split at h
  · next f _ => exact ⟨f, (Except.ok.inj h).symm⟩
  · cases h

theorem isNumeral_dash : isNumeral '-' = false := by decide

theorem isBlank_of_isNumeral {c : Char} (h : isNumeral c = true) : Text.isBlank c = false := by
  simp only [isNumeral, Bool.or_eq_true, beq_iff_eq, Char.isDigit, Bool.and_eq_true,
    decide_eq_true_iff] at h
  rcases h with ⟨hlow, hhigh⟩ | rfl
  · exact Text.isBlank_eq_false (Nat.lt_of_lt_of_le (by decide) hlow)
      (Nat.lt_of_le_of_lt hhigh (by decide))
  · decide

theorem toNat_of_isLetter {c : Char} (h : isLetter c = true) :
    0x41 ≤ c.toNat ∧ c.toNat ≤ 0x7A := by
  simp only [isLetter, Char.isAlpha, Char.isUpper, Char.isLower, Bool.or_eq_true, Bool.and_eq_true,
    decide_eq_true_iff] at h
  rcases h with ⟨hlow, hhigh⟩ | ⟨hlow, hhigh⟩
  · exact ⟨hlow, Nat.le_trans hhigh (by decide)⟩
  · exact ⟨Nat.le_trans (by decide) hlow, hhigh⟩

theorem isBlank_of_isLetter {c : Char} (h : isLetter c = true) : Text.isBlank c = false := by
  obtain ⟨hlow, hhigh⟩ := toNat_of_isLetter h
  exact Text.isBlank_eq_false (by omega) (by omega)

theorem ne_of_isLetter {c d : Char} (h : isLetter c = true) (hd : d.toNat < 0x41) :
    (c == d) = false := by
  rw [beq_eq_false_iff_ne]
  rintro rfl
  have := (toNat_of_isLetter h).1
  omega

theorem isNumeral_of_isLetter {c : Char} (h : isLetter c = true) : isNumeral c = false := by
  have hdigit : c.isDigit = false := by
    rw [Bool.eq_false_iff]
    intro hdigit
    simp only [Char.isDigit, Bool.and_eq_true, decide_eq_true_iff] at hdigit
    have hlow := (toNat_of_isLetter h).1
    have hhigh : c.toNat ≤ 0x39 := hdigit.2
    omega
  rw [isNumeral, hdigit, ne_of_isLetter h (by decide), Bool.or_self]

theorem isLetter_of_isNumeral {c : Char} (h : isNumeral c = true) : isLetter c = false := by
  rw [Bool.eq_false_iff]
  intro hletter
  rw [isNumeral_of_isLetter hletter] at h
  cases h

theorem first_literal {afterNumber : Bool} {c : Char}
    (h : (isNumeral c || (c == '-' && !afterNumber)) = true) (cs : List Char) :
    first afterNumber c cs =
      (ofLiteral (c :: cs.takeWhile isNumeral)).map (·, cs.dropWhile isNumeral) := by
  rw [first, if_pos h]

theorem first_name {c : Char} (h : isLetter c = true) (afterNumber : Bool) (cs : List Char) :
    first afterNumber c cs =
      (ofName (c :: cs.takeWhile isLetter)).map (·, cs.dropWhile isLetter) := by
  rw [first, isNumeral_of_isLetter h, ne_of_isLetter h (by decide), ne_of_isLetter h (by decide),
    ne_of_isLetter h (by decide), h]
  rfl

theorem first_symbol (afterNumber : Bool) (op : BinaryOp)
    (h : readable afterNumber (binary op) = true) (cs : List Char) :
    first afterNumber op.symbol cs = .ok (binary op, cs) := by
  cases op with
  | subtract =>
      obtain rfl : afterNumber = true := h
      rfl
  | add | multiply | divide | power => cases afterNumber <;> rfl

/-- Whether a character belongs to some token. -/
def isTokenChar (c : Char) : Bool :=
  isNumeral c || isLetter c || c == '(' || c == ')' || (BinaryOp.ofSymbol? c).isSome

theorem isTokenChar_of_isNumeral {c : Char} (h : isNumeral c = true) : isTokenChar c = true := by
  simp [isTokenChar, h]

theorem isTokenChar_of_isLetter {c : Char} (h : isLetter c = true) : isTokenChar c = true := by
  simp [isTokenChar, h]

theorem isTokenChar_symbol (op : BinaryOp) : isTokenChar op.symbol = true := by
  cases op <;> decide

/-- What a character that is no blank begins, behind a number or elsewhere. -/
inductive Start (afterNumber : Bool) : Char → Prop
  | literal {c : Char} (h : (isNumeral c || (c == '-' && !afterNumber)) = true) :
      Start afterNumber c
  | name {c : Char} (h : isLetter c = true) : Start afterNumber c
  | leftParen : Start afterNumber '('
  | rightParen : Start afterNumber ')'
  | symbol (op : BinaryOp) (h : readable afterNumber (binary op) = true) :
      Start afterNumber op.symbol
  | nothing {c : Char} (h : isTokenChar c = false) : Start afterNumber c

theorem start (afterNumber : Bool) (c : Char) : Start afterNumber c := by
  by_cases hliteral : (isNumeral c || (c == '-' && !afterNumber)) = true
  · exact .literal hliteral
  by_cases hletter : isLetter c = true
  · exact .name hletter
  by_cases hopen : c = '('
  · exact hopen ▸ .leftParen
  by_cases hclose : c = ')'
  · exact hclose ▸ .rightParen
  cases hop : BinaryOp.ofSymbol? c with
  | none =>
      have hnumeral : isNumeral c = false := by
        rw [Bool.eq_false_iff]
        intro hnumeral
        exact hliteral (by rw [hnumeral, Bool.true_or])
      exact .nothing (by simp [isTokenChar, hnumeral, hletter, hopen, hclose, hop])
  | some op =>
      obtain rfl := BinaryOp.ofSymbol?_eq_some_iff.mp hop
      refine .symbol op ?_
      cases op with
      | subtract => simpa [readable, BinaryOp.symbol, isNumeral_dash] using hliteral
      | add | multiply | divide | power => rfl

theorem first_nothing {c : Char} (h : isTokenChar c = false) (afterNumber : Bool)
    (cs : List Char) : first afterNumber c cs = .error (.invalidCharacter c) := by
  simp only [isTokenChar, Bool.or_eq_false_iff, Option.isSome_eq_false_iff,
    Option.isNone_iff_eq_none] at h
  obtain ⟨⟨⟨⟨hnumeral, hletter⟩, hopen⟩, hclose⟩, hsymbol⟩ := h
  have hdash : (c == '-') = false := by
    rw [beq_eq_false_iff_ne]
    rintro rfl
    cases hsymbol
  simp [first, hnumeral, hletter, hopen, hclose, hsymbol, hdash]

/-- One token that is read may stand where it is read. -/
theorem readable_of_first {afterNumber : Bool} {c : Char} {cs rest : List Char} {t : Token}
    (h : first afterNumber c cs = .ok (t, rest)) : readable afterNumber t = true := by
  cases start afterNumber c with
  | literal hliteral =>
      rw [first_literal hliteral] at h
      obtain ⟨u, hread, heq⟩ := Fault.exists_of_map_eq_ok h
      obtain ⟨rfl, _⟩ := Prod.mk.inj heq
      obtain ⟨x, rfl, hfinite, hnegative⟩ := ofLiteral_eq_ok hread
      cases hx : Number.isNegative x with
      | false => simp [readable, hfinite, hx]
      | true =>
          obtain rfl := hnegative hx
          simpa [readable, hfinite, hx, isNumeral_dash] using hliteral
  | name hletter =>
      rw [first_name hletter] at h
      obtain ⟨u, hread, heq⟩ := Fault.exists_of_map_eq_ok h
      obtain ⟨rfl, _⟩ := Prod.mk.inj heq
      obtain ⟨f, rfl⟩ := ofName_eq_ok hread
      rfl
  | leftParen | rightParen =>
      obtain ⟨rfl, _⟩ := Prod.mk.inj (Except.ok.inj h)
      rfl
  | symbol op hop =>
      rw [first_symbol afterNumber op hop] at h
      obtain ⟨rfl, _⟩ := Prod.mk.inj (Except.ok.inj h)
      exact hop
  | nothing hnothing =>
      rw [first_nothing hnothing] at h
      cases h

/-- By induction along the text, every token that is read may stand behind the one before it. -/
theorem readableAfter_of_scanAfter (before : Option Token) {cs : List Char} {ts : List Token}
    (h : scanAfter (before.any isNumber) cs = .ok ts) :
    eachAfter readableAfter before ts = true := by
  generalize hafter : before.any isNumber = afterNumber at h
  fun_induction scanAfter afterNumber cs generalizing before ts with
  | case1 afterNumber =>
      obtain rfl := Except.ok.inj h
      rfl
  | case2 afterNumber c cs hblank ih => exact ih before hafter h
  | case3 afterNumber c cs hblank fault hfirst => simp at h
  | case4 afterNumber c cs hblank t rest hfirst hlength ih =>
      obtain ⟨us, hrest, rfl⟩ := Fault.exists_of_map_eq_ok h
      rw [eachAfter, Bool.and_eq_true, readableAfter, hafter]
      exact ⟨readable_of_first hfirst, ih (some t) rfl hrest⟩

theorem isNumeral_of_read? {cs : List Char} {d : Decimal} (h : Decimal.read? cs = some d) :
    cs ≠ [] ∧ ∀ c ∈ cs, isNumeral c = true := by
  have hsplit := List.takeWhile_append_dropWhile (p := Char.isDigit) (l := cs)
  have hwhole : ∀ c ∈ cs.takeWhile Char.isDigit, isNumeral c = true := by
    intro c hc
    have hdigit := List.all_eq_true.mp (List.all_takeWhile (l := cs) (p := Char.isDigit)) c hc
    simp [isNumeral, hdigit]
  unfold Decimal.read? at h
  split at h
  · next hdrop =>
    rw [hdrop, List.append_nil] at hsplit
    rw [hsplit] at hwhole h
    refine ⟨?_, hwhole⟩
    rintro rfl
    simp at h
  · next fraction hdrop =>
    rw [hdrop] at hsplit
    rw [← hsplit]
    simp only [Option.ite_none_right_eq_some, Bool.and_eq_true] at h
    refine ⟨by simp, ?_⟩
    intro c hc
    rcases List.mem_append.mp hc with hc | hc
    · exact hwhole c hc
    · rcases List.mem_cons.mp hc with rfl | hc
      · decide
      · simp [isNumeral, List.all_eq_true.mp h.1.1 c hc]
  · cases h

theorem ofLiteral_plain_chars {x : Float} (h : Number.isFinite x = true) :
    ofLiteral (Style.plain.chars x) = .ok (number x) := by
  simp only [ofLiteral, Number.ofLiteral?_plain_chars h]

/-- The text of a finite number is a dash, if the number is negative, and a numeral. -/
theorem plain_chars_eq {x : Float} (h : Number.isFinite x = true) :
    ∃ digits, digits ≠ [] ∧ (∀ c ∈ digits, isNumeral c = true) ∧
      Style.plain.chars x = if Number.isNegative x then '-' :: digits else digits := by
  obtain ⟨d, hread, _⟩ := Style.read?_plain_magnitudeText (Number.magnitude_lt_infinity h)
  obtain ⟨hne, hnumeral⟩ := isNumeral_of_read? hread
  exact ⟨_, hne, hnumeral, Number.chars_of_isFinite _ h⟩

/-- Characters that go on with a token that they stand directly behind. -/
def continues : Token → Char → Bool
  | number _, c => isNumeral c
  | func _, c => isLetter c
  | binary _, _ | leftParen, _ | rightParen, _ => false

/-- Where a finite number may stand, its text begins a token that all that goes on with it belongs
to. -/
theorem exists_first_plain_chars_append {afterNumber : Bool} {x : Float}
    (h : readable afterNumber (number x) = true) (rest : List Char) :
    ∃ c tail, Style.plain.chars x ++ rest = c :: tail ∧ Text.isBlank c = false ∧
      first afterNumber c tail =
        (ofLiteral (Style.plain.chars x ++ rest.takeWhile isNumeral)).map
          (·, rest.dropWhile isNumeral) := by
  simp only [readable, Bool.and_eq_true, Bool.not_eq_true'] at h
  obtain ⟨digits, hne, hnumeral, hchars⟩ := plain_chars_eq h.1
  have hfirst (c : Char) (cs : List Char)
      (hc : (isNumeral c || (c == '-' && !afterNumber)) = true)
      (hcs : ∀ d ∈ cs, isNumeral d = true) :
      first afterNumber c (cs ++ rest) =
        (ofLiteral (c :: cs ++ rest.takeWhile isNumeral)).map (·, rest.dropWhile isNumeral) := by
    rw [first_literal hc, List.takeWhile_append_of_pos hcs, List.dropWhile_append_of_pos hcs,
      List.cons_append]
  rw [hchars]
  cases hnegative : Number.isNegative x with
  | true =>
      have hafter : afterNumber = false := by simpa [hnegative] using h.2
      exact ⟨'-', digits ++ rest, rfl, by decide, hfirst '-' digits (by simp [hafter]) hnumeral⟩
  | false =>
      obtain ⟨c, cs, rfl⟩ := List.exists_cons_of_ne_nil hne
      have hc := hnumeral c List.mem_cons_self
      exact ⟨c, cs ++ rest, rfl, isBlank_of_isNumeral hc,
        hfirst c cs (by rw [hc, Bool.true_or]) fun d hd => hnumeral d (List.mem_cons_of_mem c hd)⟩

theorem scanAfter_plain_chars_append {afterNumber : Bool} {x : Float}
    (h : readable afterNumber (number x) = true) (rest : List Char) :
    scanAfter afterNumber (Style.plain.chars x ++ rest) =
      (ofLiteral (Style.plain.chars x ++ rest.takeWhile isNumeral)).bind fun t =>
        (scanAfter t.isNumber (rest.dropWhile isNumeral)).map (t :: ·) := by
  obtain ⟨c, tail, htext, hblank, hfirst⟩ := exists_first_plain_chars_append h rest
  rw [htext, scanAfter_cons hblank, hfirst]
  cases ofLiteral (Style.plain.chars x ++ rest.takeWhile isNumeral) <;> rfl

theorem takeWhile_eq_nil {p : Char → Bool} {rest : List Char}
    (h : ∀ c ∈ rest.head?, p c = false) : rest.takeWhile p = [] := by
  cases rest with
  | nil => rfl
  | cons c cs => simp [h c rfl]

theorem dropWhile_eq_self {p : Char → Bool} {rest : List Char}
    (h : ∀ c ∈ rest.head?, p c = false) : rest.dropWhile p = rest := by
  cases rest with
  | nil => rfl
  | cons c cs => simp [h c rfl]

theorem isLetter_of_mem_name {f : Func} {c : Char} (h : c ∈ f.name.toList) :
    isLetter c = true := by
  have hall : f.name.toList.all isLetter = true := by cases f <;> rfl
  exact List.all_eq_true.mp hall c h

theorem name_ne_nil (f : Func) : f.name.toList ≠ [] := by
  cases f <;> decide

/-- A text begins with a token that is written in front, if the token may stand there and nothing
goes on with it. -/
theorem begins_chars_append {afterNumber : Bool} {t : Token}
    (hreadable : readable afterNumber t = true) (rest : List Char)
    (hrest : ∀ c ∈ rest.head?, t.continues c = false) :
    Begins afterNumber (t.chars ++ rest) t rest := by
  cases t with
  | number x =>
      have hfinite : Number.isFinite x = true := by
        simp only [readable, Bool.and_eq_true] at hreadable
        exact hreadable.1
      obtain ⟨c, tail, htext, hblank, hfirst⟩ := exists_first_plain_chars_append hreadable rest
      rw [takeWhile_eq_nil (p := isNumeral) hrest, dropWhile_eq_self (p := isNumeral) hrest,
        List.append_nil, ofLiteral_plain_chars hfinite] at hfirst
      rw [chars, htext]
      exact .of_first hblank hfirst
  | binary op =>
      have hblank : Text.isBlank op.symbol = false := by cases op <;> decide
      exact .of_first hblank (first_symbol afterNumber op hreadable rest)
  | func f =>
      obtain ⟨c, cs, hname⟩ := List.exists_cons_of_ne_nil (name_ne_nil f)
      have hletter : ∀ d ∈ c :: cs, isLetter d = true := by
        intro d hd
        rw [← hname] at hd
        exact isLetter_of_mem_name hd
      have hc := hletter c List.mem_cons_self
      have hcs : ∀ d ∈ cs, isLetter d = true := fun d hd => hletter d (List.mem_cons_of_mem c hd)
      have hread : ofName (c :: cs) = .ok (func f) := by
        rw [ofName, ← hname, String.ofList_toList, Func.ofName?_name]
      rw [chars, hname, List.cons_append]
      refine .of_first (isBlank_of_isLetter hc) ?_
      rw [first_name hc, List.takeWhile_append_of_pos hcs, List.dropWhile_append_of_pos hcs,
        takeWhile_eq_nil (p := isLetter) hrest, dropWhile_eq_self (p := isLetter) hrest,
        List.append_nil, hread]
      rfl
  | leftParen => exact .of_first (by decide) rfl
  | rightParen => exact .of_first (by decide) rfl

/-- A token that may stand where its text does is read back from it. -/
theorem scanAfter_chars_append {afterNumber : Bool} {t : Token}
    (hreadable : readable afterNumber t = true) (rest : List Char)
    (hrest : ∀ c ∈ rest.head?, t.continues c = false) :
    scanAfter afterNumber (t.chars ++ rest) = (scanAfter t.isNumber rest).map (t :: ·) :=
  (begins_chars_append hreadable rest hrest).scanAfter

end Calculator.Token
