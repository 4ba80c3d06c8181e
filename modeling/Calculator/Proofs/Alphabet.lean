import Calculator.Proofs.Faults
import Calculator.Proofs.JsonNumber
import Calculator.Proofs.Lexemes
import Calculator.Web.Reply

/-!
Two alphabets. The scanner reads blanks and the characters of tokens, and refuses every other
character; a formula that is asked for over the web may contain what the scanner reads of ASCII. So
a reply never blames a character, and of what the scanner reads the only characters not allowed are
the blanks beyond ASCII.
-/

namespace Calculator

/-- What a fault repeats of the text as it is written. -/
def Fault.quoted : Fault → List Char
  | invalidNumber literal => literal.toList
  | unknownFunction name => name.toList
  | invalidCharacter _ | missingOpen | missingClose | notEnoughOperands | tooManyOperands
  | outsideDomain _ | tooDeeplyNested _ | strayParenthesis => []

theorem Fault.ofText_of_mem_quoted {fault : Fault} {c : Char} (h : c ∈ fault.quoted) :
    fault.OfText := by
  cases fault with
  | invalidNumber literal => exact .invalidNumber literal
  | unknownFunction name => exact .unknownFunction name
  | invalidCharacter | missingOpen | missingClose | notEnoughOperands | tooManyOperands
  | outsideDomain | tooDeeplyNested | strayParenthesis => cases h

namespace Token

theorem Lexeme.isTokenChar {afterNumber : Bool} {lexeme : List Char} {t : Token}
    (h : Lexeme afterNumber lexeme t) : ∀ c ∈ lexeme, isTokenChar c = true := by
  cases h with
  | literal starts numerals read =>
      refine List.forall_mem_cons.mpr ⟨?_, fun d hd => isTokenChar_of_isNumeral (numerals d hd)⟩
      rw [Bool.or_eq_true, Bool.and_eq_true, beq_iff_eq] at starts
      rcases starts with hnumeral | ⟨rfl, _⟩
      · exact isTokenChar_of_isNumeral hnumeral
      · exact isTokenChar_symbol .subtract
  | name starts isLetters read =>
      exact List.forall_mem_cons.mpr
        ⟨isTokenChar_of_isLetter starts, fun d hd => isTokenChar_of_isLetter (isLetters d hd)⟩
  | leftParen | rightParen => exact List.forall_mem_singleton.mpr (by decide)
  | symbol operator => exact List.forall_mem_singleton.mpr (isTokenChar_symbol _)

/-- By induction along the text: what is scanned holds blanks and the characters of tokens. -/
theorem isBlank_or_isTokenChar_of_scanAfter {afterNumber : Bool} {cs : List Char} {ts : List Token}
    (h : scanAfter afterNumber cs = .ok ts) :
    ∀ c ∈ cs, Text.isBlank c = true ∨ isTokenChar c = true := by
  fun_induction scanAfter afterNumber cs generalizing ts with
  | case1 => exact List.forall_mem_nil _
  | case2 afterNumber c cs hblank ih => exact List.forall_mem_cons.mpr ⟨.inl hblank, ih h⟩
  | case3 => cases h
  | case4 afterNumber c cs hblank t rest hfirst hlength ih =>
      obtain ⟨us, hrest, _⟩ := Fault.exists_of_map_eq_ok h
      obtain ⟨lexeme, hread, hlexeme, _⟩ := first_eq_ok_iff.mp hfirst
      rw [hread]
      intro d hd
      rcases List.mem_append.mp hd with hd | hd
      · exact .inr (hlexeme.isTokenChar d hd)
      · exact ih hrest d hd

/-- A character that is refused is one of the text's, and neither a blank nor of any token. -/
theorem mem_of_scan_eq_invalidCharacter {cs : List Char} {c : Char}
    (h : scan cs = .error (.invalidCharacter c)) :
    c ∈ cs ∧ Text.isBlank c = false ∧ isTokenChar c = false := by
  obtain ⟨front, lexeme, back, ts, rfl, _, hoffends⟩ :=
    exists_offends none none h fun _ hc => nomatch hc
  cases hoffends with
  | invalidCharacter single notBlank notLetter notNumeral notParenthesis notSymbol =>
      subst single
      exact ⟨by simp, notBlank,
        isTokenChar_eq_false_iff.mpr ⟨notLetter, notNumeral, notParenthesis, notSymbol⟩⟩

/-- What a fault of the characters repeats of the text are characters of tokens. -/
theorem isTokenChar_of_mem_quoted {cs : List Char} {fault : Fault} (h : scan cs = .error fault) :
    ∀ c ∈ fault.quoted, isTokenChar c = true := by
  obtain ⟨front, lexeme, back, ts, rfl, _, hoffends⟩ :=
    exists_offends none none h fun _ hc => nomatch hc
  intro c hc
  cases hoffends with
  | unknownFunction nonempty letters noFunction starts ends =>
      rw [Fault.quoted, String.toList_ofList] at hc
      exact isTokenChar_of_isLetter (letters c hc)
  | invalidNumber nonempty numerals notFinite starts ends =>
      rw [Fault.quoted, String.toList_ofList] at hc
      exact isTokenChar_of_isNumeral (numerals c hc)
  | invalidNegative dash sign numerals notFinite ends =>
      rw [Fault.quoted, String.toList_ofList, dash] at hc
      rcases List.mem_cons.mp hc with rfl | hc
      · exact isTokenChar_symbol .subtract
      · exact isTokenChar_of_isNumeral (numerals c hc)
  | invalidCharacter => cases hc

end Token

namespace Formula

/-- A value's fault that comes from the characters is the fault of the tokens. -/
theorem tokens_of_value_eq_error {text : String} {fault : Fault} (h : value text = .error fault)
    (htext : fault.OfText) : tokens text = .error fault := by
  cases htokens : tokens text with
  | error other =>
      rw [value_of_tokens_error htokens] at h
      exact congrArg Except.error (Except.error.inj h)
  | ok ts =>
      rw [value_eq_bind_queue] at h
      cases hqueue : queue text with
      | error other =>
          rw [hqueue] at h
          obtain rfl := Except.error.inj h
          rw [queue] at hqueue
          split at hqueue
          · cases hqueue
          · rw [htokens] at hqueue
            have hother : other.OfParentheses := Postfix.Yard.ofParentheses_of_drain hqueue
            cases htext <;> cases hother
      | ok queued =>
          rw [hqueue] at h
          have hother : fault.OfQueue queued := Postfix.ofQueue_of_valueOn h
          cases htext <;> cases hother

end Formula

namespace Web.Reply

open Token (isTokenChar)

theorem isAllowedChar_of_isTokenChar {c : Char} (h : isTokenChar c = true) :
    isAllowedChar c = true := by
  simp only [isTokenChar, Bool.or_eq_true, beq_iff_eq, Option.isSome_iff_exists] at h
  rcases h with (((hnumeral | hletter) | rfl) | rfl) | ⟨op, hop⟩
  · by_cases hpoint : c = '.'
    · exact hpoint ▸ by decide
    · simp [isAllowedChar, Char.isAlphanum, Token.isDigit_of_isNumeral hnumeral hpoint]
  · have hletter : c.isAlpha = true := hletter
    simp [isAllowedChar, Char.isAlphanum, hletter]
  · decide
  · decide
  · obtain rfl := BinaryOp.ofSymbol?_eq_some_iff.mp hop
    cases op <;> decide

theorem isAllowedChar_of_isBlank {c : Char} (h : Text.isBlank c = true) (hascii : c.toNat < 0x80) :
    isAllowedChar c = true := by
  have hchar : (0x09 ≤ c.toNat ∧ c.toNat ≤ 0x0D) ∨ c.toNat = ' '.toNat := by
    have hranges := Text.isBlank_iff.mp h
    have hspace : ' '.toNat = 0x20 := rfl
    omega
  rcases hchar with hcontrol | hspace
  · simp [isAllowedChar, hcontrol]
  · rw [Char.toNat_inj.mp hspace]
    decide

/-- A formula may contain the characters of tokens and the blanks of ASCII. -/
theorem isAllowedChar_iff {c : Char} :
    isAllowedChar c = true ↔
      isTokenChar c = true ∨ Text.isBlank c = true ∧ c.toNat < 0x80 := by
  constructor
  · intro h
    simp only [isAllowedChar, Bool.or_eq_true, Bool.and_eq_true, decide_eq_true_iff,
      List.contains_iff_mem, List.mem_cons, List.not_mem_nil, or_false, Char.isAlphanum] at h
    rcases h with ((hletter | hdigit) | hblank) | hsymbol
    · exact .inl (Token.isTokenChar_of_isLetter hletter)
    · exact .inl (Token.isTokenChar_of_isNumeral (by simp [Token.isNumeral, hdigit]))
    · exact .inr ⟨Text.isBlank_iff.mpr (.inl hblank), by omega⟩
    · rcases hsymbol with rfl | rfl | rfl | rfl | rfl | rfl | rfl | rfl | rfl <;> decide
  · rintro (htoken | ⟨hblank, hascii⟩)
    · exact isAllowedChar_of_isTokenChar htoken
    · exact isAllowedChar_of_isBlank hblank hascii

theorem isAllowed_iff {text : String} :
    isAllowed text = true ↔ text ≠ "" ∧ ∀ c ∈ text.toList, isAllowedChar c = true := by
  simp [isAllowed]

/-- Of an allowed formula, no character is refused. -/
theorem tokens_ne_invalidCharacter {text : String} (h : isAllowed text = true) (c : Char) :
    Formula.tokens text ≠ .error (.invalidCharacter c) := by
  intro htokens
  obtain ⟨hmem, hblank, htoken⟩ := Token.mem_of_scan_eq_invalidCharacter htokens
  have hknown := isAllowedChar_iff.mp ((isAllowed_iff.mp h).2 c hmem)
  rw [hblank, htoken] at hknown
  simp at hknown

/-- Whether some characters hold the words that blame a character. -/
def Blames (cs : List Char) : Prop := "Invalid character:".toList <:+: cs

instance : DecidablePred Blames := fun cs =>
  inferInstanceAs (Decidable ("Invalid character:".toList <:+: cs))

/-- The words end in a colon, so they do not reach into what has none. -/
theorem Blames.left {front back : List Char} (h : Blames (front ++ back)) (hcolon : ':' ∉ back) :
    Blames front := by
  obtain ⟨before, after, heq⟩ := h
  have hwords : "Invalid character:".toList = "Invalid character".toList ++ [':'] := rfl
  rw [hwords, ← List.append_assoc, List.append_assoc, List.append_eq_append_iff] at heq
  rcases heq with ⟨more, hfront, hback⟩ | ⟨more, _, hback⟩
  · cases more with
    | nil =>
        refine absurd ?_ hcolon
        rw [List.nil_append] at hback
        simp [← hback]
    | cons c more =>
        obtain ⟨rfl, _⟩ := List.cons.inj hback
        exact ⟨before, more, by rw [hwords, hfront]; simp⟩
  · exact absurd (by simp [hback]) hcolon

theorem eq_colon_of_mem_escape {c : Char} (h : ':' ∈ Json.escape c) : c = ':' := by
  have hdigit : ∀ n < 16, Nat.digitChar n ≠ ':' := by decide
  unfold Json.escape at h
  split at h
  case h_8 =>
    split at h
    · next hcontrol =>
      have hhigh := hdigit (c.toNat / 16) (by omega)
      have hlow := hdigit (c.toNat % 16) (by omega)
      simp [hhigh.symm, hlow.symm] at h
    · exact (List.mem_singleton.mp h).symm
  all_goals simp at h

theorem colon_not_mem_escape {cs : List Char} (h : ':' ∉ cs) : ':' ∉ cs.flatMap Json.escape := by
  intro hmem
  obtain ⟨c, hc, hescape⟩ := List.mem_flatMap.mp hmem
  exact h (eq_colon_of_mem_escape hescape ▸ hc)

/-- What is wrong blames a character only in its beginning, if no colon stands behind that. -/
theorem not_blames_refused (head tail : String) (htail : ':' ∉ tail.toList)
    (hhead : ¬Blames ("\x7b\"error\":\"".toList ++ head.toList.flatMap Json.escape)) :
    ¬Blames (refused (head ++ tail)).body.toList := by
  have hbody : (refused (head ++ tail)).body.toList =
      "\x7b\"error\":\"".toList ++ head.toList.flatMap Json.escape ++
        (tail.toList.flatMap Json.escape ++ ['"', '\x7d']) := by
    have hkey : "error".toList.flatMap Json.escape = "error".toList := by decide
    rw [body, Json.text, String.toList_ofList]
    simp only [json, Json.chars, Json.fieldChars, Json.quote, hkey, String.toList_append,
      List.flatMap_append]
    simp
  rw [hbody]
  intro hblames
  refine hhead (hblames.left ?_)
  simp [colon_not_mem_escape htail]

theorem colon_not_mem_number {x : Float} (h : Number.isFinite x = true) :
    ':' ∉ Style.json.chars x := by
  obtain ⟨unsigned, -⟩ :=
    Json.readUnsigned?_magnitudeText (Number.isNegative x) (Number.magnitude_lt_infinity h)
  have hparts := Json.isNumberPart_of_isUnsigned unsigned
  have hcolon : ':' ∉ Style.json.magnitudeText (Number.magnitude x) := fun hmem =>
    absurd (hparts ':' hmem) (by decide)
  rw [Number.chars_of_isFinite _ h]
  split
  · simp [hcolon]
  · exact hcolon

theorem not_blames_evaluated {text : String} {x : Float} (htext : ':' ∉ text.toList)
    (hfinite : Number.isFinite x = true) : ¬Blames (evaluated text x).body.toList := by
  have hbody : (evaluated text x).body.toList =
      "\x7b\"expression\":".toList ++
          ('"' :: text.toList.flatMap Json.escape ++ "\",\"result".toList ++ ['"']) ++ [':'] ++
        (Style.json.chars x ++ ['\x7d']) := by
    have hkey : "expression".toList.flatMap Json.escape = "expression".toList := by decide
    have hresult : "result".toList.flatMap Json.escape = "result".toList := by decide
    rw [body, Json.text, String.toList_ofList]
    simp only [json, Json.chars, Json.fieldChars, Json.quote, hkey, hresult, hfinite, if_true]
    simp
  rw [hbody]
  intro hblames
  have hcolons := hblames.left (by simp [colon_not_mem_number hfinite])
  rcases List.infix_concat_iff.mp hcolons with hsuffix | hinfix
  · -- A quote stands directly in front of the last colon, not the words.
    rw [← List.append_assoc] at hsuffix
    rcases List.suffix_concat_iff.mp hsuffix with hnil | ⟨words, hwords, hquote⟩
    · cases hnil
    · obtain rfl : words = "Invalid character".toList := (List.append_cancel_right hwords).symm
      rcases List.suffix_concat_iff.mp hquote with hnil | ⟨before, hbefore, _⟩
      · cases hnil
      · have hlast := congrArg List.getLast? hbefore
        simp at hlast
  · have hfront : Blames "\x7b\"expression\":".toList :=
      Blames.left hinfix (by simp [colon_not_mem_escape htext])
    exact absurd hfront (by decide)

/-- What the messages about anything but a character begin with, up to their last colon. -/
def labels : List String :=
  ["", "Invalid number: ", "Unknown function: ", "Mismatched parentheses: ", "Invalid expression: "]

theorem exists_label {fault : Fault} (hcharacter : ∀ c, fault ≠ .invalidCharacter c)
    (hquoted : ':' ∉ fault.quoted) :
    ∃ label ∈ labels, ∃ detail, fault.message = label ++ detail ∧ ':' ∉ detail.toList := by
  have hwhole (message : String) : message = "" ++ message := String.empty_append.symm
  cases fault with
  | invalidCharacter c => exact absurd rfl (hcharacter c)
  | invalidNumber literal => exact ⟨_, by simp [labels], literal, rfl, hquoted⟩
  | unknownFunction name => exact ⟨_, by simp [labels], name, rfl, hquoted⟩
  | missingOpen =>
      exact ⟨"Mismatched parentheses: ", by simp [labels], "missing opening parenthesis",
        by decide, by decide⟩
  | missingClose =>
      exact ⟨"Mismatched parentheses: ", by simp [labels], "missing closing parenthesis",
        by decide, by decide⟩
  | notEnoughOperands =>
      exact ⟨"Invalid expression: ", by simp [labels], "not enough operands", by decide, by decide⟩
  | tooManyOperands =>
      exact ⟨"Invalid expression: ", by simp [labels], "too many operands", by decide, by decide⟩
  | outsideDomain f => exact ⟨"", by simp [labels], _, hwhole _, by cases f <;> decide⟩
  | tooDeeplyNested limit =>
      have hmessage : (Fault.tooDeeplyNested limit).message =
          "Expression nests deeper than " ++ limit.repr ++ " levels" := rfl
      have hdigits : ':' ∉ Nat.toDigits 10 limit := by
        intro hcolon
        exact absurd (Style.isDigit_of_mem_toDigits hcolon) (by decide)
      exact ⟨"", by simp [labels], _, hwhole _, by simp [hmessage, hdigits]⟩
  | strayParenthesis => exact ⟨"", by simp [labels], _, hwhole _, by decide⟩

/-- A message with one of the labels does not blame a character. -/
theorem not_blames_label {label detail : String} (hlabel : label ∈ labels)
    (hdetail : ':' ∉ detail.toList) :
    ¬Blames (refused ("Error evaluating expression: " ++ (label ++ detail))).body.toList := by
  have hstart : ∀ label ∈ labels, ¬Blames ("\x7b\"error\":\"".toList ++
      ("Error evaluating expression: " ++ label).toList.flatMap Json.escape) := by
    decide +kernel
  rw [← String.append_assoc]
  exact not_blames_refused _ detail hdetail (hstart label hlabel)

theorem unrepresentable?_cases (x : Float) :
    (unrepresentable? x = none ∧ Number.isFinite x = true) ∨
      ∃ why, unrepresentable? x = some why ∧ ':' ∉ why.toList := by
  unfold unrepresentable?
  split
  · next hfinite => exact .inl ⟨rfl, hfinite⟩
  · split
    · exact .inr ⟨_, rfl, by decide⟩
    · split <;> exact .inr ⟨_, rfl, by decide⟩

/-- No reply blames a character, whatever is asked for. -/
theorem not_blames_body (expression : Option String) :
    ¬Blames (ofExpression expression).body.toList := by
  have hinvalid : ¬Blames (refused "Invalid or missing expression").body.toList :=
    not_blames_refused "" "Invalid or missing expression" (by decide) (by decide)
  cases expression with
  | none => exact hinvalid
  | some text =>
      cases hallowed : isAllowed text with
      | false =>
          rw [ofExpression, hallowed]
          exact hinvalid
      | true =>
          rw [ofExpression, hallowed, if_pos rfl]
          cases hvalue : Formula.value text with
          | error fault =>
              have htokens (htext : fault.OfText) : Formula.tokens text = .error fault :=
                Formula.tokens_of_value_eq_error hvalue htext
              have hcharacter : ∀ c, fault ≠ .invalidCharacter c := by
                rintro c rfl
                exact tokens_ne_invalidCharacter hallowed c (htokens (.invalidCharacter c))
              have hquoted : ':' ∉ fault.quoted := by
                intro hcolon
                have hscan := htokens (Fault.ofText_of_mem_quoted hcolon)
                exact absurd (Token.isTokenChar_of_mem_quoted hscan ':' hcolon) (by decide)
              obtain ⟨label, hlabel, detail, hmessage, hdetail⟩ :=
                exists_label hcharacter hquoted
              simp only [hmessage]
              exact not_blames_label hlabel hdetail
          | ok x =>
              rcases unrepresentable?_cases x with ⟨hwhy, hfinite⟩ | ⟨why, hwhy, hcolon⟩
              · simp only [hwhy]
                refine not_blames_evaluated ?_ hfinite
                intro hmem
                exact absurd ((isAllowed_iff.mp hallowed).2 _ hmem) (by decide)
              · simp only [hwhy]
                have hlabel := not_blames_label (show "" ∈ labels by simp [labels]) hcolon
                rwa [String.empty_append] at hlabel

/-- Of a formula that is allowed no character is refused, so no reply blames one; and a text with
tokens holds allowed characters and blanks beyond ASCII, so it is allowed if it is of ASCII and not
empty. -/
theorem alphabets_agree :
    (∀ text, isAllowed text = true → ∀ c,
        Formula.tokens text ≠ .error (.invalidCharacter c) ∧
          Formula.value text ≠ .error (.invalidCharacter c)) ∧
      (∀ expression, ¬"Invalid character: ".toList <:+: (ofExpression expression).body.toList) ∧
      ∀ text ts, Formula.tokens text = .ok ts →
        (∀ c ∈ text.toList,
            isAllowedChar c = true ∨ Text.isBlank c = true ∧ 0x80 ≤ c.toNat) ∧
          (text ≠ "" → (∀ c ∈ text.toList, c.toNat < 0x80) → isAllowed text = true) := by
  refine ⟨?_, ?_, ?_⟩
  · intro text hallowed c
    have htokens := tokens_ne_invalidCharacter hallowed c
    exact ⟨htokens, fun hvalue =>
      htokens (Formula.tokens_of_value_eq_error hvalue (.invalidCharacter c))⟩
  · rintro expression ⟨before, after, heq⟩
    refine not_blames_body expression ⟨before, ' ' :: after, ?_⟩
    rw [← heq]
    simp
  · intro text ts htokens
    have hknown := Token.isBlank_or_isTokenChar_of_scanAfter htokens
    have hchars : ∀ c ∈ text.toList,
        isAllowedChar c = true ∨ Text.isBlank c = true ∧ 0x80 ≤ c.toNat := by
      intro c hc
      rcases hknown c hc with hblank | htoken
      · rcases Nat.lt_or_ge c.toNat 0x80 with hascii | hbeyond
        · exact .inl (isAllowedChar_of_isBlank hblank hascii)
        · exact .inr ⟨hblank, hbeyond⟩
      · exact .inl (isAllowedChar_of_isTokenChar htoken)
    refine ⟨hchars, fun hne hascii => isAllowed_iff.mpr ⟨hne, fun c hc => ?_⟩⟩
    rcases hchars c hc with hallowed | ⟨_, hbeyond⟩
    · exact hallowed
    · exact absurd (hascii c hc) (Nat.not_lt.mpr hbeyond)

/-- A vertical tab and a form feed are allowed between tokens, and a letter that belongs to no
function is allowed although the text has no tokens. -/
theorem alphabets_agree_vertical_tab :
    isAllowed "2\x0B^\x0C.5" = true ∧ isAllowed "2 x" = true ∧
      Formula.value "2 x" ≠ .error (.invalidCharacter 'x') := by
  obtain ⟨hrefused, _, htokens⟩ := alphabets_agree
  have hread : Formula.tokens "2\x0B^\x0C.5" =
      .ok [.number 2, .binary .power, .number 0.5] := by
    decide +kernel
  have hallowed : isAllowed "2 x" = true := by decide
  exact ⟨(htokens _ _ hread).2 (by decide) (by simp), hallowed, (hrefused _ hallowed 'x').2⟩

/-- Between tokens a blank beyond ASCII is read, but it is not allowed. -/
example : Formula.tokens "1\u2003+ 1" = .ok [.number 1, .binary .add, .number 1] ∧
    isAllowed "1\u2003+ 1" = false := by
  decide +kernel

end Web.Reply

end Calculator
