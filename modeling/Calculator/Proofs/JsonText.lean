import Calculator.Proofs.JsonNumber

/-!
The text of a JSON value is read back as that value: every character between quotes, every field in
its place, and every number bit for bit, as long as all of them are finite.
-/

namespace Calculator.Json

theorem readChar_of_ne {c : Char} (backslash : c ≠ '\\') (printable : 0x20 ≤ c.toNat)
    (rest : List Char) : readChar (c :: rest) = some (c, rest) := by
  unfold readChar
  split
  · next h => exact absurd (List.cons.inj h).1 backslash
  · next h => exact absurd (List.cons.inj h).1 backslash
  · next h =>
    cases h
    rw [if_neg (by omega)]
  · next h => cases h

theorem readChar_control {c : Char} (control : c.toNat < 0x20) (rest : List Char) :
    readChar ('\\' :: 'u' :: '0' :: '0' :: Nat.digitChar (c.toNat / 16) ::
      Nat.digitChar (c.toNat % 16) :: rest) = some (c, rest) := by
  have unit : ∀ n < 0x20, codeUnit? '0' '0' (Nat.digitChar (n / 16)) (Nat.digitChar (n % 16)) =
      some n := by decide
  have char : ofCodeUnits? c.toNat none = some c := by
    unfold ofCodeUnits?
    rw [if_pos (.inl (by omega)), Char.ofNat_toNat]
  simp [readChar, unit _ control, char]

/-- A character between quotes is read back, whether it is escaped or not. -/
theorem readChar_escape (c : Char) (rest : List Char) :
    readChar (escape c ++ rest) = some (c, rest) := by
  unfold escape
  split
  all_goals try rfl
  next backslash _ _ _ _ _ =>
    split
    · next control => exact readChar_control control rest
    · next printable => exact readChar_of_ne backslash (Nat.le_of_not_lt printable) rest

theorem exists_escape_eq_cons (c : Char) : ∃ d ds, escape c = d :: ds ∧ d ≠ '"' := by
  unfold escape
  split
  all_goals try exact ⟨_, _, rfl, by decide⟩
  next quote _ _ _ _ _ _ =>
    split
    · exact ⟨_, _, rfl, by decide⟩
    · exact ⟨_, _, rfl, quote⟩

theorem readQuoted_flatMap_escape {n : Nat} {cs : List Char} (enough : cs.length ≤ n)
    (rest : List Char) : readQuoted n (cs.flatMap escape ++ '"' :: rest) = some (cs, rest) := by
  induction cs generalizing n with
  | nil => simp [readQuoted]
  | cons c cs ih =>
    obtain ⟨d, ds, hescape, quote⟩ := exists_escape_eq_cons c
    obtain ⟨m, rfl⟩ : ∃ m, n = m + 1 := ⟨n - 1, by simp only [List.length_cons] at enough; omega⟩
    have first := readChar_escape c (cs.flatMap escape ++ '"' :: rest)
    rw [List.flatMap_cons, List.append_assoc]
    rw [hescape, List.cons_append] at first ⊢
    unfold readQuoted
    split
    · next h => exact absurd (List.cons.inj h).1 quote
    · next bound _ => cases bound
    · next bound _ =>
      cases bound
      simp only [first]
      simp [ih (by simpa using enough)]

theorem length_le_length_flatMap_escape (cs : List Char) :
    cs.length ≤ (cs.flatMap escape).length := by
  induction cs with
  | nil => simp
  | cons c cs ih =>
    obtain ⟨d, ds, hescape, -⟩ := exists_escape_eq_cons c
    simp only [List.flatMap_cons, hescape, List.length_append, List.length_cons]
    omega

/-- A text between quotes is read back, character for character. -/
theorem exists_quote_append (s : String) (rest : List Char) :
    ∃ cs, quote s ++ rest = '"' :: cs ∧ readQuoted cs.length cs = some (s.toList, rest) := by
  have := length_le_length_flatMap_escape s.toList
  refine ⟨s.toList.flatMap escape ++ '"' :: rest, by simp [quote],
    readQuoted_flatMap_escape ?_ rest⟩
  rw [List.length_append]
  omega

mutual

/-- Whether every number in a value is finite. -/
def isFinite : Json → Bool
  | number x => Number.isFinite x
  | array items => areFinite items
  | object fields => fieldsAreFinite fields
  | null | bool _ | string _ => true

def areFinite : List Json → Bool
  | [] => true
  | item :: items => item.isFinite && areFinite items

def fieldsAreFinite : List (String × Json) → Bool
  | [] => true
  | (_, value) :: fields => value.isFinite && fieldsAreFinite fields

end

/-- Whether a value ends where `rest` begins: no number goes on with it. -/
def Ends (rest : List Char) : Prop := ∀ c ∈ rest.head?, isNumberPart c = false

theorem skip_cons {c : Char} (h : ¬(c = ' ' ∨ c = '\x09' ∨ c = '\x0A' ∨ c = '\x0D'))
    (cs : List Char) : skip (c :: cs) = c :: cs := by
  simp only [not_or] at h
  simp [skip, h]

/-- The text of a value starts with a character that is no blank, and does not close a list. -/
theorem exists_chars_eq_cons {j : Json} (h : j.isFinite = true) :
    ∃ c cs, j.chars = c :: cs ∧ (∀ rest, skip (c :: rest) = c :: rest) ∧ c ≠ ']' := by
  cases j with
  | null => exact ⟨_, _, by simp only [chars]; rfl, fun _ => rfl, by decide⟩
  | bool b =>
    cases b with
    | false => exact ⟨_, _, by simp only [chars]; rfl, fun _ => rfl, by decide⟩
    | true => exact ⟨_, _, by simp only [chars]; rfl, fun _ => rfl, by decide⟩
  | number x =>
    have finite : Number.isFinite x = true := by simpa [isFinite] using h
    obtain ⟨c, cs, text, first⟩ := exists_number_chars_eq_cons finite
    refine ⟨c, cs, by simp [chars, finite, text], fun rest => skip_cons ?_ rest, ?_⟩
    · rintro (rfl | rfl | rfl | rfl) <;> simp at first
    · rintro rfl
      simp at first
  | string s => exact ⟨_, _, by simp only [chars, quote]; rfl, fun _ => rfl, by decide⟩
  | array items => exact ⟨_, _, by simp only [chars]; rfl, fun _ => rfl, by decide⟩
  | object fields => exact ⟨_, _, by simp only [chars]; rfl, fun _ => rfl, by decide⟩

section Steps

variable {n : Nat} {key : String} {item value : Json} {items : List Json}
  {fields : List (String × Json)} {cs more rest : List Char}

theorem readValue_quote (n : Nat) (s : String) (rest : List Char) :
    readValue (n + 1) (quote s ++ rest) = some (string s, rest) := by
  obtain ⟨cs, text, read⟩ := exists_quote_append s rest
  rw [text, readValue]
  simp [skip, read]

theorem readValue_number {c : Char} (h : c = '-' ∨ c.isDigit = true) (n : Nat) (cs : List Char) :
    readValue (n + 1) (c :: cs) = readNumber (c :: cs) := by
  have notBlank : skip (c :: cs) = c :: cs := by
    apply skip_cons
    rintro (rfl | rfl | rfl | rfl) <;> simp at h
  rw [readValue, notBlank]
  split
  case h_7 => rfl
  all_goals
    next head =>
      cases head
      simp at h

theorem readValue_array {c : Char} (notBlank : ∀ rest, skip (c :: rest) = c :: rest)
    (notClose : c ≠ ']') (read : readItems n (c :: cs) = some (items, rest)) :
    readValue (n + 1) ('[' :: c :: cs) = some (array items, rest) := by
  have bracket : skip ('[' :: c :: cs) = '[' :: c :: cs := rfl
  rw [readValue, bracket]
  simp only [notBlank]
  split
  · next head => exact absurd (List.cons.inj head).1 notClose
  · simp [read]

theorem readValue_object (read : readFields n (quote key ++ cs) = some (fields, rest)) :
    readValue (n + 1) ('\x7b' :: (quote key ++ cs)) = some (object fields, rest) := by
  obtain ⟨text, heq, -⟩ := exists_quote_append key cs
  rw [heq] at read ⊢
  simp [readValue, skip, read]

theorem readItems_last (h : readValue n cs = some (item, ']' :: rest)) :
    readItems (n + 1) cs = some ([item], rest) := by
  rw [readItems, h]
  rfl

theorem readItems_more (h : readValue n cs = some (item, ',' :: more))
    (hmore : readItems n more = some (items, rest)) :
    readItems (n + 1) cs = some (item :: items, rest) := by
  rw [readItems, h]
  simp [skip, hmore]

theorem readFields_last (h : readValue n cs = some (value, '\x7d' :: rest)) :
    readFields (n + 1) (quote key ++ ':' :: cs) = some ([(key, value)], rest) := by
  obtain ⟨field, text, read⟩ := exists_quote_append key (':' :: cs)
  rw [text, readFields]
  simp [skip, read, h]

theorem readFields_more (h : readValue n cs = some (value, ',' :: more))
    (hmore : readFields n more = some (fields, rest)) :
    readFields (n + 1) (quote key ++ ':' :: cs) = some ((key, value) :: fields, rest) := by
  obtain ⟨field, text, read⟩ := exists_quote_append key (':' :: cs)
  rw [text, readFields]
  simp [skip, read, h, hmore]

end Steps

theorem exists_itemChars_eq_append (item : Json) (items : List Json) :
    ∃ more, itemChars (item :: items) = item.chars ++ more := by
  cases items with
  | nil => exact ⟨[], by simp [itemChars]⟩
  | cons next items => exact ⟨',' :: itemChars (next :: items), by simp [itemChars]⟩

theorem exists_fieldChars_eq_append (field : String × Json) (fields : List (String × Json)) :
    ∃ more, fieldChars (field :: fields) = quote field.1 ++ more := by
  cases fields with
  | nil => exact ⟨':' :: field.2.chars, by simp [fieldChars]⟩
  | cons next fields =>
    exact ⟨':' :: (field.2.chars ++ ',' :: fieldChars (next :: fields)), by simp [fieldChars]⟩

theorem ends_cons {c : Char} (h : isNumberPart c = false) (cs : List Char) : Ends (c :: cs) := by
  intro d hd
  cases hd
  exact h

mutual

/-- The text of a value is read back as that value. Reading takes no more steps than there are
characters. -/
theorem readValue_chars {n : Nat} {rest : List Char} (ends : Ends rest) :
    ∀ {j : Json}, j.isFinite = true → j.chars.length ≤ n →
      readValue n (j.chars ++ rest) = some (j, rest)
  | null, _, enough => by
    obtain ⟨n, rfl⟩ : ∃ m, n = m + 1 := ⟨n - 1, by simp [chars] at enough; omega⟩
    simp [chars, readValue, skip]
  | bool b, _, enough => by
    obtain ⟨n, rfl⟩ : ∃ m, n = m + 1 := ⟨n - 1, by cases b <;> simp [chars] at enough <;> omega⟩
    cases b <;> simp [chars, readValue, skip]
  | number x, finite, enough => by
    have finite : Number.isFinite x = true := by simpa [isFinite] using finite
    obtain ⟨c, cs, text, first⟩ := exists_number_chars_eq_cons finite
    have read := readNumber_chars finite ends
    simp only [chars, if_pos finite] at enough ⊢
    rw [text] at read enough ⊢
    obtain ⟨n, rfl⟩ : ∃ m, n = m + 1 := ⟨n - 1, by simp at enough; omega⟩
    exact (readValue_number first n (cs ++ rest)).trans read
  | string s, _, enough => by
    obtain ⟨n, rfl⟩ : ∃ m, n = m + 1 := ⟨n - 1, by simp [chars, quote] at enough; omega⟩
    simp only [chars]
    exact readValue_quote n s rest
  | array items, finite, enough => by
    simp only [chars, List.length_append, List.length_cons, List.length_nil] at enough
    obtain ⟨n, rfl⟩ : ∃ m, n = m + 1 := ⟨n - 1, by omega⟩
    cases items with
    | nil => simp [chars, itemChars, readValue, skip]
    | cons item items =>
      have finite : areFinite (item :: items) = true := by simpa [isFinite] using finite
      have first : item.isFinite = true := by
        rw [areFinite, Bool.and_eq_true] at finite
        exact finite.1
      have read := readItems_itemChars (n := n) rest finite (List.cons_ne_nil _ _) (by omega)
      obtain ⟨more, text⟩ := exists_itemChars_eq_append item items
      obtain ⟨c, cs, head, notBlank, notClose⟩ := exists_chars_eq_cons first
      have text : itemChars (item :: items) ++ ']' :: rest =
          c :: (cs ++ more ++ ']' :: rest) := by simp [text, head]
      rw [text] at read
      simp only [chars, List.cons_append, List.append_assoc, List.nil_append]
      rw [text]
      exact readValue_array notBlank notClose read
  | object fields, finite, enough => by
    simp only [chars, List.length_append, List.length_cons, List.length_nil] at enough
    obtain ⟨n, rfl⟩ : ∃ m, n = m + 1 := ⟨n - 1, by omega⟩
    cases fields with
    | nil => simp [chars, fieldChars, readValue, skip]
    | cons field fields =>
      have finite : fieldsAreFinite (field :: fields) = true := by simpa [isFinite] using finite
      have read := readFields_fieldChars (n := n) rest finite (List.cons_ne_nil _ _) (by omega)
      obtain ⟨more, text⟩ := exists_fieldChars_eq_append field fields
      have text : fieldChars (field :: fields) ++ '\x7d' :: rest =
          quote field.1 ++ (more ++ '\x7d' :: rest) := by simp [text]
      rw [text] at read
      simp only [chars, List.cons_append, List.append_assoc, List.nil_append]
      rw [text]
      exact readValue_object read

theorem readItems_itemChars {n : Nat} (rest : List Char) :
    ∀ {items : List Json}, areFinite items = true → items ≠ [] → (itemChars items).length < n →
      readItems n (itemChars items ++ ']' :: rest) = some (items, rest)
  | [item], finite, _, enough => by
    obtain ⟨n, rfl⟩ : ∃ m, n = m + 1 := ⟨n - 1, by omega⟩
    simp only [areFinite, Bool.and_true] at finite
    simp only [itemChars] at enough ⊢
    exact readItems_last (readValue_chars (ends_cons rfl rest) finite (by omega))
  | item :: next :: items, finite, _, enough => by
    obtain ⟨n, rfl⟩ : ∃ m, n = m + 1 := ⟨n - 1, by omega⟩
    rw [areFinite, Bool.and_eq_true] at finite
    simp only [itemChars, List.length_append, List.length_cons] at enough
    have more := readItems_itemChars (n := n) rest finite.2 (List.cons_ne_nil _ _) (by omega)
    have first := readValue_chars (n := n)
      (ends_cons (c := ',') rfl (itemChars (next :: items) ++ ']' :: rest)) finite.1 (by omega)
    simp only [itemChars, List.append_assoc, List.cons_append]
    exact readItems_more first more

theorem readFields_fieldChars {n : Nat} (rest : List Char) :
    ∀ {fields : List (String × Json)}, fieldsAreFinite fields = true → fields ≠ [] →
      (fieldChars fields).length < n →
      readFields n (fieldChars fields ++ '\x7d' :: rest) = some (fields, rest)
  | [(key, value)], finite, _, enough => by
    obtain ⟨n, rfl⟩ : ∃ m, n = m + 1 := ⟨n - 1, by omega⟩
    simp only [fieldsAreFinite, Bool.and_true] at finite
    simp only [fieldChars, List.length_append, List.length_cons] at enough
    have last := readValue_chars (n := n) (ends_cons (c := '\x7d') rfl rest) finite (by omega)
    simp only [fieldChars, List.append_assoc, List.cons_append]
    exact readFields_last last
  | (key, value) :: next :: fields, finite, _, enough => by
    obtain ⟨n, rfl⟩ : ∃ m, n = m + 1 := ⟨n - 1, by omega⟩
    rw [fieldsAreFinite, Bool.and_eq_true] at finite
    simp only [fieldChars, List.length_append, List.length_cons] at enough
    have more := readFields_fieldChars (n := n) rest finite.2 (List.cons_ne_nil _ _) (by omega)
    have first := readValue_chars (n := n)
      (ends_cons (c := ',') rfl (fieldChars (next :: fields) ++ '\x7d' :: rest)) finite.1
      (by omega)
    simp only [fieldChars, List.append_assoc, List.cons_append]
    exact readFields_more first more

end

/-- A value whose numbers are all finite is read back from its own text. -/
theorem read?_chars {j : Json} (finite : j.isFinite = true) : read? j.chars = some j := by
  have nothing : Ends [] := by simp [Ends]
  have read := readValue_chars (n := 2 * j.chars.length + 1) nothing finite (by omega)
  rw [List.append_nil] at read
  rw [read?, read]
  rfl

end Calculator.Json
