import Calculator.Proofs.Literals
import Calculator.Proofs.Pieces

/-!
What tokens are read from, and where a text stops to have tokens. A lexeme goes on as long as the
next character belongs to it, so a text can be cut wherever two characters side by side belong to no
one lexeme: the first piece has its tokens by itself, and the second is read behind the last of
them. A text without tokens is cut in front of the first lexeme that is none, and the fault is what
is wrong with that lexeme.
-/

namespace Calculator

namespace Token

/-- Whether two characters side by side belong to one numeral or one name. -/
def goesOn (c d : Char) : Bool := isNumeral c && isNumeral d || isLetter c && isLetter d

/-- What one token is read from, behind a number or elsewhere. -/
inductive Lexeme (afterNumber : Bool) : List Char → Token → Prop
  | literal {c : Char} {numeral : List Char} {x : Float}
      (starts : (isNumeral c || (c == '-' && !afterNumber)) = true)
      (numerals : ∀ d ∈ numeral, isNumeral d = true)
      (read : ofLiteral (c :: numeral) = .ok (number x)) :
      Lexeme afterNumber (c :: numeral) (number x)
  | name {c : Char} {letters : List Char} {f : Func} (starts : isLetter c = true)
      (isLetters : ∀ d ∈ letters, isLetter d = true)
      (read : ofName (c :: letters) = .ok (func f)) : Lexeme afterNumber (c :: letters) (func f)
  | leftParen : Lexeme afterNumber ['('] leftParen
  | rightParen : Lexeme afterNumber [')'] rightParen
  | symbol {op : BinaryOp} (operator : readable afterNumber (binary op) = true) :
      Lexeme afterNumber [op.symbol] (binary op)

theorem head_dropWhile {p : Char → Bool} (cs : List Char) :
    ∀ d ∈ (cs.dropWhile p).head?, p d = false := by
  intro d hd
  have hhead := List.head?_dropWhile_not p cs
  rw [hd] at hhead
  exact hhead

theorem takeWhile_lexeme {p : Char → Bool} {lexeme rest : List Char}
    (hlexeme : ∀ d ∈ lexeme, p d = true) (hrest : ∀ d ∈ rest.head?, p d = false) :
    (lexeme ++ rest).takeWhile p = lexeme ∧ (lexeme ++ rest).dropWhile p = rest := by
  rw [List.takeWhile_append_of_pos hlexeme, List.dropWhile_append_of_pos hlexeme,
    takeWhile_eq_nil hrest, dropWhile_eq_self hrest, List.append_nil]
  exact ⟨rfl, rfl⟩

/-- The first token is read from a lexeme that no character behind it goes on with. -/
theorem first_eq_ok_iff {afterNumber : Bool} {c : Char} {cs rest : List Char} {t : Token} :
    first afterNumber c cs = .ok (t, rest) ↔
      ∃ lexeme, c :: cs = lexeme ++ rest ∧ Lexeme afterNumber lexeme t ∧
        ∀ d ∈ rest.head?, t.continues d = false := by
  constructor
  · intro h
    cases start afterNumber c with
    | literal hliteral =>
        rw [first_literal hliteral] at h
        obtain ⟨u, hread, heq⟩ := Fault.exists_of_map_eq_ok h
        obtain ⟨rfl, rfl⟩ := Prod.mk.inj heq
        obtain ⟨x, rfl, _⟩ := ofLiteral_eq_ok hread
        refine ⟨_, ?_, .literal hliteral (List.all_eq_true.mp List.all_takeWhile) hread,
          head_dropWhile cs⟩
        rw [List.cons_append, List.takeWhile_append_dropWhile]
    | name hletter =>
        rw [first_name hletter] at h
        obtain ⟨u, hread, heq⟩ := Fault.exists_of_map_eq_ok h
        obtain ⟨rfl, rfl⟩ := Prod.mk.inj heq
        obtain ⟨f, rfl⟩ := ofName_eq_ok hread
        refine ⟨_, ?_, .name hletter (List.all_eq_true.mp List.all_takeWhile) hread,
          head_dropWhile cs⟩
        rw [List.cons_append, List.takeWhile_append_dropWhile]
    | leftParen =>
        obtain ⟨rfl, rfl⟩ := Prod.mk.inj (Except.ok.inj h)
        exact ⟨['('], rfl, .leftParen, fun _ _ => rfl⟩
    | rightParen =>
        obtain ⟨rfl, rfl⟩ := Prod.mk.inj (Except.ok.inj h)
        exact ⟨[')'], rfl, .rightParen, fun _ _ => rfl⟩
    | symbol op hop =>
        rw [first_symbol afterNumber op hop] at h
        obtain ⟨rfl, rfl⟩ := Prod.mk.inj (Except.ok.inj h)
        exact ⟨[op.symbol], rfl, .symbol hop, fun _ _ => rfl⟩
    | nothing hnothing =>
        rw [first_nothing hnothing] at h
        cases h
  · rintro ⟨lexeme, hsplit, hlexeme, hrest⟩
    cases hlexeme with
    | literal starts numerals read =>
        rw [List.cons_append] at hsplit
        obtain ⟨rfl, rfl⟩ := List.cons.inj hsplit
        obtain ⟨htake, hdrop⟩ := takeWhile_lexeme numerals hrest
        rw [first_literal starts, htake, hdrop, read]
        rfl
    | name starts isLetters read =>
        rw [List.cons_append] at hsplit
        obtain ⟨rfl, rfl⟩ := List.cons.inj hsplit
        obtain ⟨htake, hdrop⟩ := takeWhile_lexeme isLetters hrest
        rw [first_name starts, htake, hdrop, read]
        rfl
    | leftParen | rightParen =>
        obtain ⟨rfl, rfl⟩ := List.cons.inj hsplit
        rfl
    | symbol operator =>
        obtain ⟨rfl, rfl⟩ := List.cons.inj hsplit
        exact first_symbol afterNumber _ operator _

/-- What goes on with a token is what goes on from the last character of its lexeme. -/
theorem Lexeme.exists_last {afterNumber : Bool} {lexeme : List Char} {t : Token}
    (h : Lexeme afterNumber lexeme t) :
    ∃ last, lexeme.getLast? = some last ∧ ∀ d, t.continues d = goesOn last d := by
  cases h with
  | @literal c numeral x starts numerals read =>
      have hcontinues {last : Char} (h : isNumeral last = true) (d : Char) :
          (number x).continues d = goesOn last d := by
        simp [continues, goesOn, h, isLetter_of_isNumeral h]
      rcases List.eq_nil_or_concat numeral with rfl | ⟨front, last, rfl⟩
      · rw [Bool.or_eq_true, Bool.and_eq_true, beq_iff_eq] at starts
        rcases starts with hnumeral | ⟨rfl, _⟩
        · exact ⟨c, rfl, hcontinues hnumeral⟩
        · cases read
      · exact ⟨last, by simp [List.getLast?_cons], hcontinues (numerals last (by simp))⟩
  | @name c letters f starts isLetters read =>
      have hlast := List.getLast?_eq_some_getLast (List.cons_ne_nil c letters)
      have hletter : isLetter ((c :: letters).getLast (List.cons_ne_nil c letters)) = true := by
        rcases List.mem_cons.mp (List.getLast_mem (List.cons_ne_nil c letters)) with heq | hmem
        · rwa [heq]
        · exact isLetters _ hmem
      refine ⟨_, hlast, fun d => ?_⟩
      simp [continues, goesOn, hletter, isNumeral_of_isLetter hletter]
  | leftParen | rightParen => exact ⟨_, rfl, fun _ => rfl⟩
  | @symbol op operator => exact ⟨op.symbol, rfl, fun _ => by cases op <;> rfl⟩

/-- No numeral and no name goes on from a text that ends in `last`, if in anything, into another. -/
def Breaks (last : Option Char) (cs : List Char) : Prop :=
  ∀ c ∈ last, ∀ d ∈ cs.head?, goesOn c d = false

theorem Breaks.right {front rest back : List Char} (h : Breaks (front ++ rest).getLast? back) :
    Breaks rest.getLast? back := by
  cases rest with
  | nil => exact fun _ hc => nomatch hc
  | cons c rest =>
      rw [List.getLast?_append, List.getLast?_cons, Option.some_or] at h
      rwa [List.getLast?_cons]

/-- Behind its lexeme, the first token of a text does not depend on what follows. -/
theorem first_append {afterNumber : Bool} {c : Char} {cs rest back : List Char} {t : Token}
    (h : first afterNumber c cs = .ok (t, rest)) (hapart : Breaks (c :: cs).getLast? back) :
    first afterNumber c (cs ++ back) = .ok (t, rest ++ back) ∧ Breaks rest.getLast? back := by
  obtain ⟨lexeme, hsplit, hlexeme, hrest⟩ := first_eq_ok_iff.mp h
  rw [hsplit] at hapart
  refine ⟨first_eq_ok_iff.mpr ⟨lexeme, ?_, hlexeme, ?_⟩, hapart.right⟩
  · rw [← List.cons_append, hsplit, List.append_assoc]
  · cases rest with
    | nil =>
        obtain ⟨last, hlast, hcontinues⟩ := hlexeme.exists_last
        rw [List.append_nil, hlast] at hapart
        intro d hd
        rw [hcontinues]
        exact hapart last rfl d hd
    | cons e rest => exact hrest

/-- By induction along the first piece: what follows it is read behind the piece's last token. -/
theorem scanAfter_append (before : Option Token) {front back : List Char} {ts : List Token}
    (h : scanAfter (before.any isNumber) front = .ok ts) (hapart : Breaks front.getLast? back) :
    scanAfter (before.any isNumber) (front ++ back) =
      (scanAfter ((ts.getLast?.or before).any isNumber) back).map (ts ++ ·) := by
  generalize hafter : before.any isNumber = afterNumber at h ⊢
  fun_induction scanAfter afterNumber front generalizing before ts with
  | case1 afterNumber =>
      obtain rfl := Except.ok.inj h
      rw [List.nil_append, List.getLast?_nil, Option.none_or, hafter]
      cases scanAfter afterNumber back <;> rfl
  | case2 afterNumber c cs hblank ih =>
      rw [List.cons_append, scanAfter_blank hblank]
      have hbreaks : Breaks ([c] ++ cs).getLast? back := hapart
      exact ih before hbreaks.right hafter h
  | case3 afterNumber c cs hblank fault hfirst => cases h
  | case4 afterNumber c cs hblank t rest hfirst hlength ih =>
      obtain ⟨us, hrest, rfl⟩ := Fault.exists_of_map_eq_ok h
      obtain ⟨hfirst', hapart'⟩ := first_append hfirst hapart
      rw [List.cons_append, scanAfter_cons (by simpa using hblank), hfirst']
      simp only [Except.bind]
      rw [ih (some t) hapart' rfl hrest, getLast?_cons_or]
      cases scanAfter ((us.getLast?.or (some t)).any isNumber) back <;> rfl

/-- What is wrong with a lexeme, directly behind the character `last`, if there is one, and behind a
number or elsewhere, and in front of `back`: as a name it is that of no function, as a numeral no
finite number, and as anything else no part of a formula at all. -/
inductive Offends (last : Option Char) (afterNumber : Bool) (lexeme back : List Char) :
    Fault → Prop
  | unknownFunction (nonempty : lexeme ≠ []) (letters : ∀ c ∈ lexeme, isLetter c = true)
      (noFunction : ∀ f : Func, lexeme ≠ f.name.toList)
      (starts : ∀ c ∈ last, isLetter c = false) (ends : ∀ c ∈ back.head?, isLetter c = false) :
      Offends last afterNumber lexeme back (.unknownFunction (String.ofList lexeme))
  | invalidNumber (nonempty : lexeme ≠ []) (numerals : ∀ c ∈ lexeme, isNumeral c = true)
      (notFinite : NotFinite lexeme)
      (starts : ∀ c ∈ last, isNumeral c = false) (ends : ∀ c ∈ back.head?, isNumeral c = false) :
      Offends last afterNumber lexeme back (.invalidNumber (String.ofList lexeme))
  | invalidNegative {numeral : List Char} (dash : lexeme = '-' :: numeral)
      (sign : afterNumber = false) (numerals : ∀ c ∈ numeral, isNumeral c = true)
      (notFinite : NotFinite numeral) (ends : ∀ c ∈ back.head?, isNumeral c = false) :
      Offends last afterNumber lexeme back (.invalidNumber (String.ofList lexeme))
  | invalidCharacter {c : Char} (single : lexeme = [c]) (notBlank : Text.isBlank c = false)
      (notLetter : isLetter c = false) (notNumeral : isNumeral c = false)
      (notParenthesis : c ≠ '(' ∧ c ≠ ')') (notSymbol : ∀ op : BinaryOp, c ≠ op.symbol) :
      Offends last afterNumber lexeme back (.invalidCharacter c)

theorem ofLiteral_dash {numeral : List Char} (h : ∀ c ∈ numeral, isNumeral c = true)
    {fault : Fault} :
    ofLiteral ('-' :: numeral) = .error fault ↔
      NotFinite numeral ∧ fault = .invalidNumber (String.ofList ('-' :: numeral)) := by
  rw [ofLiteral, Number.ofLiteral?, ← finite?_eq_none_iff h true]
  cases Number.ofLiteral?.finite? true numeral with
  | none => simp [eq_comm]
  | some x => simp

theorem ofLiteral_numeral {numeral : List Char} (h : ∀ c ∈ numeral, isNumeral c = true)
    {fault : Fault} :
    ofLiteral numeral = .error fault ↔
      NotFinite numeral ∧ fault = .invalidNumber (String.ofList numeral) := by
  have hunsigned : Number.ofLiteral? numeral = Number.ofLiteral?.finite? false numeral := by
    unfold Number.ofLiteral?
    split
    · exact absurd (h '-' List.mem_cons_self) (by decide)
    · rfl
  rw [ofLiteral, hunsigned, ← finite?_eq_none_iff h false]
  cases Number.ofLiteral?.finite? false numeral with
  | none => simp [eq_comm]
  | some x => simp

theorem ofName_eq_error_iff {name : List Char} {fault : Fault} :
    ofName name = .error fault ↔
      (∀ f : Func, name ≠ f.name.toList) ∧ fault = .unknownFunction (String.ofList name) := by
  have hnone : Func.ofName? (String.ofList name) = none ↔ ∀ f : Func, name ≠ f.name.toList := by
    rw [Option.eq_none_iff_forall_ne_some]
    refine forall_congr' fun f => not_congr ?_
    rw [Func.ofName?_eq_some_iff, ← String.toList_inj, String.toList_ofList]
  rw [ofName, ← hnone]
  cases Func.ofName? (String.ofList name) with
  | none => simp [eq_comm]
  | some f => simp

theorem isTokenChar_eq_false_iff {c : Char} :
    isTokenChar c = false ↔ isLetter c = false ∧ isNumeral c = false ∧ (c ≠ '(' ∧ c ≠ ')') ∧
      ∀ op : BinaryOp, c ≠ op.symbol := by
  have hsymbol : (BinaryOp.ofSymbol? c).isSome = false ↔ ∀ op : BinaryOp, c ≠ op.symbol := by
    rw [Option.isSome_eq_false_iff, Option.isNone_iff_eq_none, Option.eq_none_iff_forall_ne_some]
    exact forall_congr' fun op => not_congr BinaryOp.ofSymbol?_eq_some_iff
  simp only [isTokenChar, Bool.or_eq_false_iff, hsymbol, beq_eq_false_iff_ne]
  tauto

theorem goesOn_of_isLetter {c d : Char} (h : isLetter d = true) : goesOn c d = isLetter c := by
  simp [goesOn, h, isNumeral_of_isLetter h]

theorem goesOn_of_isNumeral {c d : Char} (h : isNumeral d = true) : goesOn c d = isNumeral c := by
  simp [goesOn, h, isLetter_of_isNumeral h]

/-- Where something is wrong with a lexeme, no token can be read. -/
theorem Offends.first_eq_error {last : Option Char} {afterNumber : Bool} {lexeme back : List Char}
    {fault : Fault} (h : Offends last afterNumber lexeme back fault) :
    ∃ c cs, lexeme = c :: cs ∧ Text.isBlank c = false ∧ (∀ d ∈ last, goesOn d c = false) ∧
      first afterNumber c (cs ++ back) = .error fault := by
  cases h with
  | unknownFunction nonempty letters noFunction starts ends =>
      obtain ⟨c, cs, rfl⟩ := List.exists_cons_of_ne_nil nonempty
      rw [List.forall_mem_cons] at letters
      obtain ⟨htake, hdrop⟩ := takeWhile_lexeme letters.2 ends
      refine ⟨c, cs, rfl, isBlank_of_isLetter letters.1, ?_, ?_⟩
      · intro d hd
        rw [goesOn_of_isLetter letters.1, starts d hd]
      · rw [first_name letters.1, htake, ofName_eq_error_iff.mpr ⟨noFunction, rfl⟩]
        rfl
  | invalidNumber nonempty numerals notFinite starts ends =>
      obtain ⟨c, cs, rfl⟩ := List.exists_cons_of_ne_nil nonempty
      have hread := (ofLiteral_numeral numerals).mpr ⟨notFinite, rfl⟩
      rw [List.forall_mem_cons] at numerals
      obtain ⟨htake, hdrop⟩ := takeWhile_lexeme numerals.2 ends
      refine ⟨c, cs, rfl, isBlank_of_isNumeral numerals.1, ?_, ?_⟩
      · intro d hd
        rw [goesOn_of_isNumeral numerals.1, starts d hd]
      · rw [first_literal (by rw [numerals.1, Bool.true_or]), htake, hread]
        rfl
  | @invalidNegative numeral dash sign numerals notFinite ends =>
      subst dash sign
      obtain ⟨htake, hdrop⟩ := takeWhile_lexeme numerals ends
      refine ⟨'-', numeral, rfl, by decide, ?_, ?_⟩
      · intro d hd
        simp [goesOn, isNumeral_dash, show isLetter '-' = false by decide]
      · rw [first_literal (by decide), htake, (ofLiteral_dash numerals).mpr ⟨notFinite, rfl⟩]
        rfl
  | @invalidCharacter c single notBlank notLetter notNumeral notParenthesis notSymbol =>
      subst single
      refine ⟨c, [], rfl, notBlank, ?_, ?_⟩
      · intro d hd
        simp [goesOn, notLetter, notNumeral]
      · exact first_nothing
          (isTokenChar_eq_false_iff.mpr ⟨notLetter, notNumeral, notParenthesis, notSymbol⟩) _ _

/-- Where no token can be read, something is wrong with the lexeme. -/
theorem exists_offends_of_first {last : Option Char} {afterNumber : Bool} {c : Char}
    {cs : List Char} {fault : Fault} (hblank : Text.isBlank c = false)
    (hlast : ∀ d ∈ last, goesOn d c = false) (h : first afterNumber c cs = .error fault) :
    ∃ lexeme back, c :: cs = lexeme ++ back ∧ Offends last afterNumber lexeme back fault := by
  have htake {p : Char → Bool} : ∀ d ∈ cs.takeWhile p, p d = true :=
    List.all_eq_true.mp List.all_takeWhile
  cases start afterNumber c with
  | literal hliteral =>
      rw [first_literal hliteral, Fault.map_eq_error] at h
      refine ⟨c :: cs.takeWhile isNumeral, cs.dropWhile isNumeral, ?_, ?_⟩
      · rw [List.cons_append, List.takeWhile_append_dropWhile]
      · cases hnumeral : isNumeral c with
        | true =>
            have hnumerals : ∀ d ∈ c :: cs.takeWhile isNumeral, isNumeral d = true :=
              List.forall_mem_cons.mpr ⟨hnumeral, htake⟩
            obtain ⟨hnotFinite, rfl⟩ := (ofLiteral_numeral hnumerals).mp h
            refine .invalidNumber (List.cons_ne_nil _ _) hnumerals hnotFinite ?_
              (head_dropWhile cs)
            intro d hd
            rw [← goesOn_of_isNumeral hnumeral, hlast d hd]
        | false =>
            simp only [hnumeral, Bool.false_or, Bool.and_eq_true, beq_iff_eq,
              Bool.not_eq_true'] at hliteral
            obtain ⟨rfl, hafter⟩ := hliteral
            obtain ⟨hnotFinite, rfl⟩ := (ofLiteral_dash htake).mp h
            exact .invalidNegative rfl hafter htake hnotFinite (head_dropWhile cs)
  | name hletter =>
      rw [first_name hletter, Fault.map_eq_error, ofName_eq_error_iff] at h
      obtain ⟨hnoFunction, rfl⟩ := h
      refine ⟨c :: cs.takeWhile isLetter, cs.dropWhile isLetter, ?_, ?_⟩
      · rw [List.cons_append, List.takeWhile_append_dropWhile]
      · refine .unknownFunction (List.cons_ne_nil _ _)
          (List.forall_mem_cons.mpr ⟨hletter, htake⟩) hnoFunction ?_ (head_dropWhile cs)
        intro d hd
        rw [← goesOn_of_isLetter hletter, hlast d hd]
  | leftParen | rightParen => cases h
  | symbol op hop =>
      rw [first_symbol afterNumber op hop] at h
      cases h
  | nothing hnothing =>
      rw [first_nothing hnothing] at h
      obtain rfl := Except.error.inj h
      obtain ⟨hletter, hnumeral, hparenthesis, hsymbol⟩ := isTokenChar_eq_false_iff.mp hnothing
      exact ⟨[c], cs, rfl, .invalidCharacter rfl hblank hletter hnumeral hparenthesis hsymbol⟩

/-- By induction along the text: where scanning fails, something is wrong with a lexeme behind a
text that can be scanned. -/
theorem exists_offends (last : Option Char) (before : Option Token) {cs : List Char} {fault : Fault}
    (h : scanAfter (before.any isNumber) cs = .error fault) (hapart : Breaks last cs) :
    ∃ front lexeme back ts, cs = front ++ lexeme ++ back ∧
      scanAfter (before.any isNumber) front = .ok ts ∧
      Offends (front.getLast?.or last) ((ts.getLast?.or before).any isNumber) lexeme back
        fault := by
  generalize hafter : before.any isNumber = afterNumber at h ⊢
  fun_induction scanAfter afterNumber cs generalizing last before with
  | case1 afterNumber => cases h
  | case2 afterNumber c cs hblank ih =>
      have hskipped : Breaks (some c) cs := by
        intro d hd e _
        obtain rfl := Option.some.inj hd
        simp [goesOn, isNumeral_of_isBlank hblank, isLetter_of_isBlank hblank]
      obtain ⟨front, lexeme, back, ts, rfl, hfront, hoffends⟩ :=
        ih (some c) before hskipped hafter h
      refine ⟨c :: front, lexeme, back, ts, rfl, by rw [scanAfter_blank hblank, hfront], ?_⟩
      rwa [← List.singleton_append, List.getLast?_append, Option.or_assoc]
  | case3 afterNumber c cs hblank other hfirst =>
      obtain rfl := Except.error.inj h
      obtain ⟨lexeme, back, hsplit, hoffends⟩ := exists_offends_of_first (by simpa using hblank)
        (fun d hd => hapart d hd c rfl) hfirst
      rw [← hafter] at hoffends
      exact ⟨[], lexeme, back, [], hsplit, scanAfter_nil _, hoffends⟩
  | case4 afterNumber c cs hblank t rest hfirst hlength ih =>
      obtain ⟨read, hread, hlexeme, hends⟩ := first_eq_ok_iff.mp hfirst
      obtain ⟨lastRead, hlastRead, hcontinues⟩ := hlexeme.exists_last
      have hrest : Breaks (some lastRead) rest := by
        intro d hd e he
        obtain rfl := Option.some.inj hd
        rw [← hcontinues, hends e he]
      obtain ⟨front, lexeme, back, ts, rfl, hfront, hoffends⟩ :=
        ih (some lastRead) (some t) hrest rfl (Fault.map_eq_error.mp h)
      refine ⟨read ++ front, lexeme, back, t :: ts, ?_, ?_, ?_⟩
      · rw [hread]
        simp
      · -- Cut in front of the lexeme, the text begins with the same token.
        cases read with
        | nil => cases hlastRead
        | cons d more =>
            obtain ⟨rfl, _⟩ := List.cons.inj hread
            have hcut : first afterNumber c (more ++ front) = .ok (t, front) :=
              first_eq_ok_iff.mpr
                ⟨c :: more, rfl, hlexeme, fun d hd => hends d (by simp [Option.mem_def.mp hd])⟩
            rw [List.cons_append, scanAfter_cons (by simpa using hblank), hcut]
            simp only [Except.bind, hfront]
            rfl
      · rwa [List.getLast?_append, Option.or_assoc, hlastRead, getLast?_cons_or]

end Token

namespace Formula

/-- A text has no tokens exactly if something is wrong with a lexeme behind a text that has some,
and that is the fault. -/
theorem tokens_eq_error_iff {text : String} {fault : Fault} :
    tokens text = .error fault ↔
      ∃ front lexeme back ts, text = front ++ lexeme ++ back ∧ tokens front = .ok ts ∧
        Token.Offends front.toList.getLast? (Token.endsInNumber ts) lexeme.toList back.toList
          fault := by
  constructor
  · intro h
    obtain ⟨front, lexeme, back, ts, hsplit, hfront, hoffends⟩ :=
      Token.exists_offends none none h fun _ hc => nomatch hc
    rw [Option.or_none, Option.or_none] at hoffends
    refine ⟨String.ofList front, String.ofList lexeme, String.ofList back, ts, ?_, ?_, ?_⟩
    · rw [← String.toList_inj]
      simpa using hsplit
    · rw [tokens, String.toList_ofList]
      exact hfront
    · rwa [String.toList_ofList, String.toList_ofList, String.toList_ofList]
  · rintro ⟨front, lexeme, back, ts, rfl, hfront, hoffends⟩
    obtain ⟨c, cs, hlexeme, hblank, hapart, hfirst⟩ := hoffends.first_eq_error
    have hbreaks : Token.Breaks front.toList.getLast? (lexeme.toList ++ back.toList) := by
      intro d hd e he
      rw [hlexeme] at he
      obtain rfl : c = e := by simpa using he
      exact hapart d hd
    have hscan := Token.scanAfter_append none hfront hbreaks
    rw [Option.any_none, Option.or_none, hlexeme, List.cons_append, Token.scanAfter_cons hblank,
      ← Token.endsInNumber, hfirst] at hscan
    rw [tokens, String.toList_append, String.toList_append, hlexeme, List.append_assoc,
      List.cons_append, Token.scan, hscan]
    rfl

/-- Behind a number a dash is an operator, elsewhere it belongs to the numeral behind it. -/
example : tokens "2-.5" = .ok [.number 2, .binary .subtract, .number 0.5] ∧
    tokens "2*-.5.5" = .error (.invalidNumber "-.5.5") := by
  decide +kernel

end Formula

end Calculator
