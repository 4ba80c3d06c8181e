import Calculator.Formula
import Calculator.Proofs.Scanning

/-!
Reading a formula back from its text. The spaces that a formula is written with keep its tokens from
running together, except where a number follows a number; and a dash that is written with spaces is
read as an operator directly behind a number only, and elsewhere as a literal without digits. So the
text is read back as it was written exactly when no number follows a number and every dash does.
-/

namespace Calculator.Token

/-- A number does not stand directly behind a number. -/
def apart (before : Option Token) (t : Token) : Bool := !(t.isNumber && before.any isNumber)

/-- A dash stands directly behind a number. -/
def dashBehindNumber (before : Option Token) : Token → Bool
  | binary .subtract => before.any isNumber
  | binary _ | number _ | func _ | leftParen | rightParen => true

theorem eachAfter_apart_iff {ts : List Token} :
    eachAfter apart none ts = true ↔
      ∀ front x back, ts = front ++ number x :: back → endsInNumber front = false := by
  rw [eachAfter_iff]
  constructor
  · intro h front x back hsplit
    simpa [apart, isNumber, endsInNumber] using h front _ back hsplit
  · intro h front t back hsplit
    cases t with
    | number x => simpa [apart, isNumber, endsInNumber] using h front x back hsplit
    | binary _ | func _ | leftParen | rightParen => rfl

theorem eachAfter_dashBehindNumber_iff {ts : List Token} :
    eachAfter dashBehindNumber none ts = true ↔
      ∀ front back, ts = front ++ binary .subtract :: back → endsInNumber front = true := by
  rw [eachAfter_iff]
  constructor
  · intro h front back hsplit
    simpa [dashBehindNumber, endsInNumber] using h front _ back hsplit
  · intro h front t back hsplit
    cases t with
    | binary op =>
        cases op with
        | subtract => simpa [dashBehindNumber, endsInNumber] using h front back hsplit
        | add | multiply | divide | power => rfl
    | number _ | func _ | leftParen | rightParen => rfl

theorem exists_of_isNumber {t : Token} (h : t.isNumber = true) : ∃ x, t = number x := by
  cases t with
  | number x => exact ⟨x, rfl⟩
  | binary _ | func _ | leftParen | rightParen => cases h

theorem head_isNumber_of_apart {t : Token} {ts : List Token}
    (h : eachAfter apart (some t) ts = true) (ht : t.isNumber = true) :
    ts.head?.any isNumber = false := by
  cases ts with
  | nil => rfl
  | cons u us =>
      rw [eachAfter, Bool.and_eq_true] at h
      simpa [apart, ht] using h.1

theorem formulaChars_number (x : Float) (ts : List Token) :
    formulaChars (number x :: ts) = Style.plain.chars x ++ formulaChars ts := rfl

theorem spacedChars_func (f : Func) (next : Option Token) :
    ∃ gap, (func f).spacedChars next = f.name.toList ++ gap := by
  cases next with
  | none => exact ⟨[], (List.append_nil _).symm⟩
  | some u =>
      cases u with
      | leftParen => exact ⟨[], (List.append_nil _).symm⟩
      | number _ | binary _ | func _ | rightParen => exact ⟨[' '], rfl⟩

theorem head_formulaChars_isNumeral (ts : List Token) (h : ts.head?.any isNumber = false) :
    ∀ c ∈ (formulaChars ts).head?, isNumeral c = false := by
  cases ts with
  | nil =>
      intro c hc
      cases hc
  | cons t ts =>
      cases t with
      | number x => simp [isNumber] at h
      | binary op =>
          cases op <;> simp [formulaChars, spacedChars, chars, BinaryOp.symbol, isNumeral]
      | func f =>
          obtain ⟨d, ds, hname⟩ := List.exists_cons_of_ne_nil (name_ne_nil f)
          have hd : isLetter d = true := isLetter_of_mem_name (hname ▸ List.mem_cons_self)
          obtain ⟨gap, hgap⟩ := spacedChars_func f ts.head?
          intro c hc
          obtain rfl : d = c := by simpa [formulaChars, hgap, hname] using hc
          exact isNumeral_of_isLetter hd
      | leftParen | rightParen => simp [formulaChars, spacedChars, chars, isNumeral]

theorem head_formulaChars_isLetter {ts : List Token}
    (h : ts.head? = none ∨ ts.head? = some leftParen) :
    ∀ c ∈ (formulaChars ts).head?, isLetter c = false := by
  cases ts with
  | nil =>
      intro c hc
      cases hc
  | cons t ts =>
      obtain rfl : t = leftParen := by simpa using h
      intro c hc
      obtain rfl : '(' = c := by simpa [formulaChars, spacedChars, chars] using hc
      decide

theorem isBlank_space : Text.isBlank ' ' = true := by decide

theorem isBlankText_space : Text.isBlankText [' '] = true := by decide

/-- The text of a formula begins with the first of its tokens, unless both that and the one behind
it are numbers, and nothing but blanks stands between that token and the text of the others. -/
theorem exists_begins_formulaChars {afterNumber : Bool} {t : Token} {ts : List Token}
    (hreadable : readable afterNumber t = true)
    (hapart : t.isNumber = true → ts.head?.any isNumber = false) :
    ∃ gap, Text.isBlankText gap = true ∧
      Begins afterNumber (formulaChars (t :: ts)) t (gap ++ formulaChars ts) := by
  rw [formulaChars]
  cases t with
  | number x =>
      have hhead := head_formulaChars_isNumeral ts (hapart rfl)
      exact ⟨[], rfl, begins_chars_append hreadable _ hhead⟩
  | binary op =>
      have htight : Begins afterNumber ([op.symbol] ++ formulaChars ts) (binary op)
          (formulaChars ts) := begins_chars_append hreadable _ fun _ _ => rfl
      have hspaced : Begins afterNumber (' ' :: [op.symbol] ++ [' '] ++ formulaChars ts) (binary op)
          ([' '] ++ formulaChars ts) :=
        (begins_chars_append hreadable _ fun _ _ => rfl).blanks_append isBlankText_space
      cases op with
      | power => exact ⟨[], rfl, htight⟩
      | add | subtract | multiply | divide => exact ⟨[' '], isBlankText_space, hspaced⟩
  | func f =>
      have hspaced : Begins afterNumber (f.name.toList ++ [' '] ++ formulaChars ts) (func f)
          ([' '] ++ formulaChars ts) := by
        rw [List.append_assoc]
        refine begins_chars_append hreadable _ ?_
        intro c hc
        obtain rfl : ' ' = c := by simpa using hc
        rfl
      cases hhead : ts.head? with
      | none =>
          exact ⟨[], rfl, begins_chars_append hreadable _ (head_formulaChars_isLetter (.inl hhead))⟩
      | some u =>
          cases u with
          | leftParen =>
              exact ⟨[], rfl,
                begins_chars_append hreadable _ (head_formulaChars_isLetter (.inr hhead))⟩
          | number _ | binary _ | func _ | rightParen =>
              exact ⟨[' '], isBlankText_space, hspaced⟩
  | leftParen | rightParen => exact ⟨[], rfl, begins_chars_append hreadable _ fun _ _ => rfl⟩

/-- The token that a formula's text begins with is read back, and then the text of the others is
read, unless both the token and the one behind it are numbers. -/
theorem scanAfter_formulaChars_cons {afterNumber : Bool} {t : Token} {ts : List Token}
    (hreadable : readable afterNumber t = true)
    (hapart : t.isNumber = true → ts.head?.any isNumber = false) :
    scanAfter afterNumber (formulaChars (t :: ts)) =
      (scanAfter t.isNumber (formulaChars ts)).map (t :: ·) := by
  obtain ⟨gap, hgap, hbegins⟩ := exists_begins_formulaChars hreadable hapart
  rw [hbegins.scanAfter, scanAfter_blanks_append hgap]

/-- Where a dash is written behind anything but a number, what is read is a literal without
digits. -/
theorem scanAfter_formulaChars_dash (ts : List Token) :
    scanAfter false (formulaChars (binary .subtract :: ts)) = .error (.invalidNumber "-") := by
  have hchars : formulaChars (binary .subtract :: ts) = ' ' :: '-' :: ' ' :: formulaChars ts := rfl
  rw [hchars, scanAfter_blank isBlank_space, scanAfter_cons (by decide), first_literal (by decide)]
  rfl

/-- The text of tokens among which no number follows a number is read back, if every dash follows
one, and otherwise the first dash that does not is no literal. -/
theorem scanAfter_formulaChars (before : Option Token) {ts : List Token}
    (hfinite : ∀ x, number x ∈ ts → Number.isFinite x = true)
    (hapart : eachAfter apart before ts = true) :
    scanAfter (before.any isNumber) (formulaChars ts) =
      if eachAfter dashBehindNumber before ts then .ok ts else .error (.invalidNumber "-") := by
  induction ts generalizing before with
  | nil => exact scanAfter_nil _
  | cons t ts ih =>
      rw [eachAfter, Bool.and_eq_true] at hapart
      have hrest := ih (some t)
        (fun x hx => hfinite x (List.mem_cons_of_mem t hx)) hapart.2
      rw [Option.any_some] at hrest
      rw [eachAfter]
      cases hdash : dashBehindNumber before t with
      | false =>
          cases t with
          | binary op =>
              cases op with
              | subtract =>
                  rw [show before.any isNumber = false from hdash, scanAfter_formulaChars_dash]
                  rfl
              | add | multiply | divide | power => cases hdash
          | number _ | func _ | leftParen | rightParen => cases hdash
      | true =>
          have hreadable : readable (before.any isNumber) t = true := by
            cases t with
            | number x =>
                have hx := hfinite x List.mem_cons_self
                have hbefore : before.any isNumber = false := by
                  simpa [apart, isNumber] using hapart.1
                simp [readable, hx, hbefore]
            | binary op =>
                cases op with
                | subtract => exact hdash
                | add | multiply | divide | power => rfl
            | func _ | leftParen | rightParen => rfl
          rw [scanAfter_formulaChars_cons hreadable (head_isNumber_of_apart hapart.2), hrest,
            Bool.true_and]
          cases eachAfter dashBehindNumber (some t) ts <;> rfl

/-- Behind a number, what is left of a formula's text once a numeral is taken from its front begins
with no number: a positive number would have been taken with the numeral, and the dash of a negative
one is read as an operator. -/
theorem head_of_scanAfter_dropWhile {ts us : List Token}
    (hfinite : ∀ x, number x ∈ ts → Number.isFinite x = true)
    (h : scanAfter true ((formulaChars ts).dropWhile isNumeral) = .ok us) :
    us.head?.any isNumber = false := by
  induction ts with
  | nil =>
      rw [formulaChars, List.dropWhile_nil, scanAfter_nil] at h
      obtain rfl := Except.ok.inj h
      rfl
  | cons t ts ih =>
      cases ht : t.isNumber with
      | true =>
          obtain ⟨x, rfl⟩ := exists_of_isNumber ht
          obtain ⟨digits, _, hnumeral, hchars⟩ := plain_chars_eq (hfinite x List.mem_cons_self)
          rw [formulaChars_number, hchars] at h
          cases hnegative : Number.isNegative x with
          | true =>
              rw [hnegative, if_pos rfl, List.cons_append, List.dropWhile_cons_of_neg (by decide),
                scanAfter_cons (by decide)] at h
              have hfirst := first_symbol true .subtract rfl
                (digits ++ formulaChars ts)
              rw [BinaryOp.symbol] at hfirst
              rw [hfirst, Except.bind] at h
              obtain ⟨rest, _, rfl⟩ := Fault.exists_of_map_eq_ok h
              rfl
          | false =>
              rw [hnegative, if_neg (by decide), List.dropWhile_append_of_pos hnumeral] at h
              exact ih (fun y hy => hfinite y (List.mem_cons_of_mem _ hy)) h
      | false =>
          have hreadable : readable true t = true := by
            cases t with
            | number _ => cases ht
            | binary op => cases op <;> rfl
            | func _ | leftParen | rightParen => rfl
          have hhead := head_formulaChars_isNumeral (t :: ts) (by simpa using ht)
          rw [dropWhile_eq_self hhead, scanAfter_formulaChars_cons hreadable (by simp [ht])] at h
          obtain ⟨rest, _, rfl⟩ := Fault.exists_of_map_eq_ok h
          simpa using ht

/-- A text that is read back has no number behind a number. -/
theorem apart_of_scanAfter (before : Option Token) {ts : List Token}
    (hfinite : ∀ x, number x ∈ ts → Number.isFinite x = true)
    (h : scanAfter (before.any isNumber) (formulaChars ts) = .ok ts) :
    eachAfter apart none ts = true := by
  induction ts generalizing before with
  | nil => rfl
  | cons t ts ih =>
      have hreadable := readableAfter_of_scanAfter before h
      rw [eachAfter, Bool.and_eq_true] at hreadable
      have hnext : t.isNumber = true → ts.head?.any isNumber = false := by
        intro ht
        obtain ⟨x, rfl⟩ := exists_of_isNumber ht
        -- The numeral is read with all that goes on with it, and still gives `x`.
        rw [formulaChars_number, scanAfter_plain_chars_append hreadable.1] at h
        obtain ⟨u, _, h⟩ := Fault.exists_of_bind_eq_ok h
        obtain ⟨rest, hrest, heq⟩ := Fault.exists_of_map_eq_ok h
        obtain ⟨rfl, rfl⟩ := List.cons.inj heq
        exact head_of_scanAfter_dropWhile
          (fun y hy => hfinite y (List.mem_cons_of_mem _ hy)) hrest
      rw [scanAfter_formulaChars_cons hreadable.1 hnext] at h
      obtain ⟨rest, hrest, heq⟩ := Fault.exists_of_map_eq_ok h
      obtain ⟨_, rfl⟩ := List.cons.inj heq
      have htail := ih (some t)
        (fun y hy => hfinite y (List.mem_cons_of_mem _ hy)) hrest
      cases rest with
      | nil => simp [eachAfter, apart]
      | cons u us =>
          rw [eachAfter, Bool.and_eq_true] at htail
          have hu : apart (some t) u = true := by
            cases ht : t.isNumber with
            | true =>
                have := hnext ht
                simp_all [apart]
            | false => simp [apart, ht]
          rw [eachAfter, eachAfter, hu, htail.2]
          simp [apart]

/-- The text of a formula is read back, bit for bit, exactly if every dash among its tokens stands
directly behind a number and no number does. -/
theorem tokens_formulaText_iff {ts : List Token}
    (hfinite : ∀ x, number x ∈ ts → Number.isFinite x = true) :
    Formula.tokens (formulaText ts) = .ok ts ↔
      (∀ front back, ts = front ++ binary .subtract :: back → endsInNumber front = true) ∧
      (∀ front x back, ts = front ++ number x :: back → endsInNumber front = false) := by
  rw [Formula.tokens, formulaText, String.toList_ofList, scan, ← eachAfter_dashBehindNumber_iff,
    ← eachAfter_apart_iff]
  constructor
  · intro h
    have hapart := apart_of_scanAfter none hfinite h
    refine ⟨?_, hapart⟩
    have hscan := scanAfter_formulaChars none hfinite hapart
    rw [Option.any_none, h] at hscan
    by_contra hdash
    rw [if_neg hdash] at hscan
    cases hscan
  · rintro ⟨hdash, hapart⟩
    have hscan := scanAfter_formulaChars none hfinite hapart
    rw [if_pos hdash] at hscan
    exact hscan

/-- A negative number behind a dash, in an argument that a power follows. -/
theorem tokens_formulaText_negative_behind_dash :
    Formula.tokens "sqrt(2 - -0.5)^3" = .ok [func .sqrt, leftParen, number 2, binary .subtract,
      number (-0.5), rightParen, binary .power, number 3] := by
  have htext : formulaText [func .sqrt, leftParen, number 2, binary .subtract, number (-0.5),
      rightParen, binary .power, number 3] = "sqrt(2 - -0.5)^3" := by decide +kernel
  rw [← htext]
  refine (tokens_formulaText_iff ?_).mpr ⟨?_, ?_⟩
  · intro x hx
    simp only [List.mem_cons, reduceCtorEq, number.injEq, false_or, List.not_mem_nil] at hx
    rcases hx with rfl | rfl | rfl | hx
    · decide +kernel
    · decide +kernel
    · decide +kernel
    · cases hx
  · exact eachAfter_dashBehindNumber_iff.mp rfl
  · exact eachAfter_apart_iff.mp rfl

end Calculator.Token
