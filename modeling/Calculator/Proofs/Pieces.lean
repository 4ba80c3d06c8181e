import Calculator.Formula
import Calculator.Proofs.Scanning

/-!
Reading a text in pieces. Behind a character that goes on with no numeral and no name, the scanner
has forgotten all but whether a number stands directly before it: the text up to there is read as if
it ended there, and what follows as if nothing but its last token had come before. And what that one
memory decides is a leading dash, which is an operator behind a number and the sign of a literal
elsewhere; every other text is read alike in both places. So blanks between two texts keep their
tokens apart, and what the first one ends in matters to the second one's first dash alone.
-/

namespace Calculator

namespace Token

theorem takeWhile_append_cons {p : Char → Bool} {d : Char} (h : p d = false)
    (cs rest : List Char) : (cs ++ d :: rest).takeWhile p = cs.takeWhile p := by
  induction cs with
  | nil => simp [h]
  | cons c cs ih => cases hc : p c <;> simp [hc, ih]

theorem dropWhile_append_cons {p : Char → Bool} {d : Char} (h : p d = false)
    (cs rest : List Char) : (cs ++ d :: rest).dropWhile p = cs.dropWhile p ++ d :: rest := by
  induction cs with
  | nil => simp [h]
  | cons c cs ih => cases hc : p c <;> simp [hc, ih]

section

variable {d : Char} (hnumeral : isNumeral d = false) (hletter : isLetter d = false)

include hnumeral hletter

theorem first_append_cons (afterNumber : Bool) (c : Char) (cs rest : List Char) :
    first afterNumber c (cs ++ d :: rest) =
      (first afterNumber c cs).map fun (t, left) => (t, left ++ d :: rest) := by
  unfold first
  rw [takeWhile_append_cons hnumeral, dropWhile_append_cons hnumeral,
    takeWhile_append_cons hletter, dropWhile_append_cons hletter]
  split
  · cases ofLiteral (c :: cs.takeWhile isNumeral) <;> rfl
  · split
    · rfl
    · split
      · rfl
      · split
        · cases ofName (c :: cs.takeWhile isLetter) <;> rfl
        · split <;> rfl

/-- By induction along the first piece: what follows it is read behind the piece's last token. -/
theorem scanAfter_append_cons (before : Option Token) (cs rest : List Char) :
    scanAfter (before.any isNumber) (cs ++ d :: rest) =
      (scanAfter (before.any isNumber) cs).bind fun ts =>
        (scanAfter ((ts.getLast?.or before).any isNumber) (d :: rest)).map (ts ++ ·) := by
  generalize hafter : before.any isNumber = afterNumber
  fun_induction scanAfter afterNumber cs generalizing before with
  | case1 afterNumber =>
      rw [List.nil_append, Except.bind, List.getLast?_nil, Option.none_or, hafter]
      cases scanAfter afterNumber (d :: rest) <;> rfl
  | case2 afterNumber c cs hblank ih =>
      rw [List.cons_append, scanAfter_blank hblank, ih before hafter]
  | case3 afterNumber c cs hblank fault hfirst =>
      rw [List.cons_append, scanAfter_cons (by simpa using hblank),
        first_append_cons hnumeral hletter, hfirst]
      rfl
  | case4 afterNumber c cs hblank t left hfirst hlength ih =>
      rw [List.cons_append, scanAfter_cons (by simpa using hblank),
        first_append_cons hnumeral hletter, hfirst]
      simp only [Except.map, Except.bind]
      rw [ih (some t) rfl]
      cases hleft : scanAfter t.isNumber left with
      | error fault => rfl
      | ok ts =>
          simp only [Except.bind, getLast?_cons_or]
          cases scanAfter ((ts.getLast?.or (some t)).any isNumber) (d :: rest) <;> rfl

end

theorem scanAfter_leftParen (afterNumber : Bool) (cs : List Char) :
    scanAfter afterNumber ('(' :: cs) = (scanAfter false cs).map (leftParen :: ·) :=
  scanAfter_chars_append (t := leftParen) rfl cs fun _ _ => rfl

theorem scanAfter_rightParen (afterNumber : Bool) (cs : List Char) :
    scanAfter afterNumber (')' :: cs) = (scanAfter false cs).map (rightParen :: ·) :=
  scanAfter_chars_append (t := rightParen) rfl cs fun _ _ => rfl

/-- Only a dash is read in two ways. -/
theorem first_eq_of_ne_dash {c : Char} (h : c ≠ '-') (afterNumber other : Bool) (cs : List Char) :
    first afterNumber c cs = first other c cs := by
  simp [first, h]

theorem first_dash (cs : List Char) : first true '-' cs = .ok (binary .subtract, cs) :=
  first_symbol true .subtract rfl cs

theorem scanAfter_true_dash (cs : List Char) :
    scanAfter true ('-' :: cs) = (scan cs).map (binary .subtract :: ·) := by
  rw [scanAfter_cons (by decide), first_dash]
  rfl

/-- A text whose first character, but for blanks, is no dash is read alike anywhere. -/
theorem scanAfter_eq_of_find_ne {cs : List Char}
    (h : cs.find? (!Text.isBlank ·) ≠ some '-') (afterNumber other : Bool) :
    scanAfter afterNumber cs = scanAfter other cs := by
  induction cs with
  | nil => rw [scanAfter_nil, scanAfter_nil]
  | cons c cs ih =>
      cases hblank : Text.isBlank c with
      | true =>
          rw [List.find?_cons_of_neg (by simp [hblank])] at h
          rw [scanAfter_blank hblank, scanAfter_blank hblank]
          exact ih h
      | false =>
          have hdash : c ≠ '-' := by simpa [List.find?_cons, hblank] using h
          rw [scanAfter_cons hblank, scanAfter_cons hblank,
            first_eq_of_ne_dash hdash afterNumber other]

theorem exists_blanks_dash {cs : List Char} (h : cs.find? (!Text.isBlank ·) = some '-') :
    ∃ gap rest, Text.isBlankText gap = true ∧ cs = gap ++ '-' :: rest := by
  obtain ⟨_, gap, rest, hsplit, hgap⟩ := List.find?_eq_some_iff_append.mp h
  exact ⟨gap, rest, by simpa [Text.isBlankText] using hgap, hsplit⟩

/-- A text that begins with no dash behind a number is read alike anywhere. -/
theorem scanAfter_false_of_head_ne {cs : List Char} {ts : List Token}
    (h : scanAfter true cs = .ok ts) (hhead : ts.head? ≠ some (binary .subtract)) :
    scanAfter false cs = .ok ts := by
  have hdash : cs.find? (!Text.isBlank ·) ≠ some '-' := by
    intro hdash
    obtain ⟨gap, rest, hgap, rfl⟩ := exists_blanks_dash hdash
    rw [scanAfter_blanks_append hgap, scanAfter_true_dash] at h
    obtain ⟨us, _, rfl⟩ := Fault.exists_of_map_eq_ok h
    exact hhead rfl
  rw [scanAfter_eq_of_find_ne hdash false true, h]

/-- A literal is read up to where what follows its first character is. -/
theorem exists_of_scanAfter_literal {afterNumber : Bool} {c : Char} {cs : List Char}
    {ts : List Token} (hblank : Text.isBlank c = false)
    (hc : (isNumeral c || (c == '-' && !afterNumber)) = true)
    (h : scanAfter afterNumber (c :: cs) = .ok ts) :
    ∃ x rest, ofLiteral (c :: cs.takeWhile isNumeral) = .ok (number x) ∧
      scanAfter true (cs.dropWhile isNumeral) = .ok rest ∧ ts = number x :: rest := by
  rw [scanAfter_cons hblank, first_literal hc] at h
  obtain ⟨⟨t, left⟩, hfirst, h⟩ := Fault.exists_of_bind_eq_ok h
  obtain ⟨u, hliteral, heq⟩ := Fault.exists_of_map_eq_ok hfirst
  obtain ⟨rfl, rfl⟩ := Prod.mk.inj heq
  obtain ⟨x, rfl, _⟩ := ofLiteral_eq_ok hliteral
  obtain ⟨rest, hrest, rfl⟩ := Fault.exists_of_map_eq_ok h
  exact ⟨x, rest, hliteral, hrest, rfl⟩

/-- Where the operator that a text begins with behind a number is read as a sign instead, a number
that directly follows it is read with that sign, and nothing else can be read at all. -/
theorem exists_of_scanAfter_dash {cs : List Char} {ts us : List Token}
    (h : scanAfter true cs = .ok (binary .subtract :: ts)) (hsign : scanAfter false cs = .ok us) :
    ∃ x y rest, ts = number x :: rest ∧ us = number y :: rest := by
  by_cases hdash : cs.find? (!Text.isBlank ·) = some '-'
  · obtain ⟨gap, tail, hgap, rfl⟩ := exists_blanks_dash hdash
    rw [scanAfter_blanks_append hgap] at h hsign
    rw [scanAfter_true_dash] at h
    obtain ⟨rest, hrest, heq⟩ := Fault.exists_of_map_eq_ok h
    obtain rfl := (List.cons.inj heq).2
    obtain ⟨y, more, hliteral, hmore, rfl⟩ :=
      exists_of_scanAfter_literal (by decide) (by decide) hsign
    cases tail with
    | nil => cases hliteral
    | cons d ds =>
        cases hd : isNumeral d with
        | false =>
            rw [List.takeWhile_cons_of_neg (by simp [hd])] at hliteral
            cases hliteral
        | true =>
            obtain ⟨x, same, _, hsame, rfl⟩ := exists_of_scanAfter_literal
              (isBlank_of_isNumeral hd) (by rw [hd, Bool.true_or]) hrest
            rw [List.dropWhile_cons_of_pos hd, hsame] at hmore
            obtain rfl := Except.ok.inj hmore
            exact ⟨x, y, same, rfl, rfl⟩
  · -- Any other text is read as it is where no dash can be an operator.
    rw [scanAfter_eq_of_find_ne hdash true false] at h
    have hreadable := readableAfter_of_scanAfter none h
    cases hreadable

theorem isNumeral_of_isBlank {c : Char} (h : Text.isBlank c = true) : isNumeral c = false := by
  rw [Bool.eq_false_iff]
  intro hnumeral
  rw [isBlank_of_isNumeral hnumeral] at h
  cases h

theorem isLetter_of_isBlank {c : Char} (h : Text.isBlank c = true) : isLetter c = false := by
  rw [Bool.eq_false_iff]
  intro hletter
  rw [isBlank_of_isLetter hletter] at h
  cases h

/-- Behind a text and blanks, another text is read as it is directly behind the last token. -/
theorem scan_append_blanks {gap : List Char} (hne : gap ≠ []) (hgap : Text.isBlankText gap = true)
    (front back : List Char) :
    scan (front ++ gap ++ back) = (scan front).bind fun ts =>
      (scanAfter (endsInNumber ts) back).map (ts ++ ·) := by
  obtain ⟨d, more, rfl⟩ := List.exists_cons_of_ne_nil hne
  have hd : Text.isBlank d = true := List.all_eq_true.mp hgap d List.mem_cons_self
  have hsplit := scanAfter_append_cons (isNumeral_of_isBlank hd) (isLetter_of_isBlank hd) none front
    (more ++ back)
  rw [Option.any_none, ← List.cons_append] at hsplit
  rw [scan, List.append_assoc, hsplit, scan]
  cases scanAfter false front with
  | error fault => rfl
  | ok ts =>
      rw [Except.bind, Except.bind, scanAfter_blanks_append hgap, Option.or_none, endsInNumber]

end Token

namespace Formula

/-- A text, blanks and another text have the faults of the first text, and else the tokens of both,
or the faults of the second. Only if the first text ends in a number is a dash that the second one
begins with an operator, and then the tokens behind it are those of the text behind it. -/
theorem tokens_append_blanks {gap : String} (hne : gap ≠ "") (hgap : isBlank gap = true)
    (front back : String) :
    (∀ fault, tokens front = .error fault → tokens (front ++ gap ++ back) = .error fault) ∧
      ∀ ts, tokens front = .ok ts →
        (Token.endsInNumber ts = false ∨ back.toList.find? (!Text.isBlank ·) ≠ some '-' →
          tokens (front ++ gap ++ back) = (tokens back).map (ts ++ ·)) ∧
        (Token.endsInNumber ts = true → ∀ more rest : String, isBlank more = true →
          back = more ++ "-" ++ rest →
            tokens (front ++ gap ++ back) =
              (tokens rest).map (ts ++ [.binary .subtract] ++ ·)) := by
  have hscan := Token.scan_append_blanks (by simpa using hne) hgap front.toList back.toList
  rw [← String.toList_append, ← String.toList_append] at hscan
  refine ⟨?_, ?_⟩
  · intro fault hfront
    rw [tokens] at hfront
    rw [tokens, hscan, hfront]
    rfl
  · intro ts hfront
    rw [tokens] at hfront
    rw [hfront, Except.bind] at hscan
    refine ⟨?_, ?_⟩
    · rintro (hend | hdash)
      · rw [tokens, hscan, hend]
        rfl
      · rw [tokens, hscan, Token.scanAfter_eq_of_find_ne hdash _ false]
        rfl
    · rintro hend more rest hmore rfl
      have htext : (more ++ "-" ++ rest).toList = more.toList ++ '-' :: rest.toList := by simp
      rw [hend, htext, Token.scanAfter_blanks_append hmore, Token.scanAfter_true_dash] at hscan
      rw [tokens, hscan, tokens]
      cases Token.scan rest.toList <;> simp [Except.map]

/-- Behind a root of two and a line end, what looks like minus three is subtracted. -/
theorem tokens_append_blanks_behind_number :
    tokens "sqrt 2" = .ok [.func .sqrt, .number 2] ∧
      tokens ("sqrt 2" ++ "\n" ++ " -3)") =
        .ok [.func .sqrt, .number 2, .binary .subtract, .number 3, .rightParen] := by
  have hfront : tokens "sqrt 2" = .ok [.func .sqrt, .number 2] := by decide +kernel
  have hrest : tokens "3)" = .ok [.number 3, .rightParen] := by decide +kernel
  have hne : "\n" ≠ "" := by decide
  refine ⟨hfront, ?_⟩
  obtain ⟨_, hread⟩ := tokens_append_blanks hne (by decide) "sqrt 2" " -3)"
  obtain ⟨_, hoperator⟩ := hread _ hfront
  rw [hoperator rfl " " "3)" (by decide) (by decide), hrest]
  rfl

/-- Elsewhere a dash behind blanks is a sign, and so is a second dash behind the first. -/
example : tokens "(2)\n -3" = .ok [.leftParen, .number 2, .rightParen, .number (-3)] ∧
    tokens "2\n- -3" = .ok [.number 2, .binary .subtract, .number (-3)] := by
  decide +kernel

end Formula

end Calculator
