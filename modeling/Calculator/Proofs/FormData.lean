import Mathlib
import Calculator.Proofs.Utf8
import Calculator.Web.Form

/-!
Reading form data back. Each byte of a key or a value is written as bytes that are read as that byte
and are no separators; so pairs are found between their separators as they were written, whatever
characters they hold.
-/

namespace Calculator

namespace Text

theorem toUtf8_append (cs ds : List Char) : toUtf8 (cs ++ ds) = toUtf8 cs ++ toUtf8 ds :=
  List.flatMap_append

theorem toUtf8_cons_of_lt {c : Char} (h : c.toNat < 0x80) (cs : List Char) :
    toUtf8 (c :: cs) = .ofNat c.toNat :: toUtf8 cs := by
  have hbytes := (Encoded.one h).utf8EncodeChar
  rw [Char.ofNat_toNat] at hbytes
  rw [toUtf8_cons, hbytes, List.singleton_append]

end Text

namespace Web.Form

open Text

/-- What a byte is written as in form data, in bytes. -/
inductive Written (b : UInt8) : List UInt8 → Prop
  | plain (hplus : b ≠ 0x2B) (hpercent : b ≠ 0x25) : Written b [b]
  | space : b = 0x20 → Written b [0x2B]
  | escaped {x y high low : UInt8} (hx : hexDigit? x = some high) (hy : hexDigit? y = some low)
      (hb : high * 16 + low = b) : Written b [0x25, x, y]

/-- Bytes with a meaning of their own in a query: `#`, `&` and `=`. -/
def isDelimiter (b : UInt8) : Bool := b == 0x23 || b == 0x26 || b == 0x3D

theorem toNat_lt_of_isAlphanum {c : Char} (h : c.isAlphanum = true) : c.toNat < 0x80 := by
  simp only [Char.isAlphanum, Char.isAlpha, Char.isUpper, Char.isLower, Char.isDigit,
    Bool.or_eq_true, Bool.and_eq_true, decide_eq_true_eq, ge_iff_le, UInt32.le_iff_toNat_le] at h
  obtain ((⟨_, hle⟩ | ⟨_, hle⟩) | ⟨_, hle⟩) := h
  · exact Nat.lt_of_le_of_lt hle (by decide)
  · exact Nat.lt_of_le_of_lt hle (by decide)
  · exact Nat.lt_of_le_of_lt hle (by decide)

theorem hexDigit?_digitChar {n : Nat} (h : n < 16) :
    (Nat.digitChar n).toUpper.toNat < 0x80 ∧
      hexDigit? (.ofNat (Nat.digitChar n).toUpper.toNat) = some (.ofNat n) := by
  revert n
  decide

theorem ne_of_hexDigit? {x y v : UInt8} (h : hexDigit? x = some v) (hy : hexDigit? y = none) :
    x ≠ y := by
  rintro rfl
  rw [h] at hy
  cases hy

theorem isDelimiter_of_hexDigit? {x v : UInt8} (h : hexDigit? x = some v) :
    isDelimiter x = false := by
  simp [isDelimiter, ne_of_hexDigit? (y := 0x23) h rfl, ne_of_hexDigit? (y := 0x26) h rfl,
    ne_of_hexDigit? (y := 0x3D) h rfl]

theorem ne_of_isDelimiter {b d : UInt8} (h : isDelimiter b = false) (hd : isDelimiter d = true) :
    b ≠ d := by
  rintro rfl
  rw [h] at hd
  cases hd

/-- Characters that are written as they are. -/
theorem toNat_lt_of_plain {c : Char}
    (h : (c.isAlphanum || ['*', '-', '.', '_'].contains c) = true) : c.toNat < 0x80 := by
  rcases Bool.or_eq_true_iff.mp h with halphanum | hmark
  · exact toNat_lt_of_isAlphanum halphanum
  · simp only [List.contains_iff_mem, List.mem_cons, List.not_mem_nil, or_false] at hmark
    rcases hmark with rfl | rfl | rfl | rfl <;> decide

theorem written_encodeByte (b : UInt8) :
    Written b (toUtf8 (encodeByte b)) ∧ ∀ x ∈ toUtf8 (encodeByte b), isDelimiter x = false := by
  have hbyte : b.toNat < 0x100 := b.toNat_lt
  have hchar : (Char.ofNat b.toNat).toNat = b.toNat := by
    have hvalid : b.toNat.isValidChar := .inl (by omega)
    rw [Char.ofNat, dif_pos hvalid]
    rfl
  unfold encodeByte
  dsimp only
  split
  · next hplain =>
    -- no plain character is a plus, a percent sign or a delimiter
    have hne (x : UInt8) (hx : ((Char.ofNat x.toNat).isAlphanum ||
        ['*', '-', '.', '_'].contains (Char.ofNat x.toNat)) = false) : b ≠ x := by
      rintro rfl
      rw [hx] at hplain
      cases hplain
    rw [toUtf8_cons_of_lt (toNat_lt_of_plain hplain), hchar, UInt8.ofNat_toNat]
    refine ⟨.plain (hne 0x2B (by decide)) (hne 0x25 (by decide)), ?_⟩
    have hdelimiter : isDelimiter b = false := by
      simp [isDelimiter, hne 0x23 (by decide), hne 0x26 (by decide), hne 0x3D (by decide)]
    intro x hx
    rw [List.mem_singleton.mp hx, hdelimiter]
  · split
    · next hspace =>
      rw [beq_iff_eq.mp hspace] at hchar
      have hplus : isDelimiter 0x2B = false := by decide
      refine ⟨.space (UInt8.toNat_inj.mp hchar.symm), ?_⟩
      intro x hx
      rw [List.mem_singleton.mp hx]
      exact hplus
    · obtain ⟨hxlow, hx⟩ := hexDigit?_digitChar (n := b.toNat / 16) (by omega)
      obtain ⟨hylow, hy⟩ := hexDigit?_digitChar (n := b.toNat % 16) (by omega)
      have hsum : UInt8.ofNat (b.toNat / 16) * 16 + UInt8.ofNat (b.toNat % 16) = b := by
        rw [← UInt8.toNat_inj, UInt8.toNat_add, UInt8.toNat_mul, toNat_byte (by omega),
          toNat_byte (by omega)]
        change (b.toNat / 16 * 16 % 256 + b.toNat % 16) % 256 = b.toNat
        omega
      rw [toUtf8_cons_of_lt (by decide), toUtf8_cons_of_lt hxlow, toUtf8_cons_of_lt hylow]
      refine ⟨.escaped hx hy hsum, ?_⟩
      intro z hz
      simp only [List.mem_cons, toUtf8, List.flatMap_nil, List.not_mem_nil, or_false] at hz
      rcases hz with rfl | rfl | rfl
      · rfl
      · exact isDelimiter_of_hexDigit? hx
      · exact isDelimiter_of_hexDigit? hy

theorem percentDecode_cons {b : UInt8} (h : b ≠ 0x25) (bs : List UInt8) :
    percentDecode (b :: bs) = b :: percentDecode bs := by
  rw [percentDecode]
  intro _ _ _ hb
  exact absurd hb h

/-- A plus is read as a space. -/
def readPlus (b : UInt8) : UInt8 := if b == 0x2B then 0x20 else b

theorem readPlus_of_ne {b : UInt8} (h : b ≠ 0x2B) : readPlus b = b := by
  rw [readPlus, beq_eq_false_iff_ne.mpr h]
  rfl

theorem decode_eq (bytes : List UInt8) :
    decode bytes = String.ofList (ofUtf8 (percentDecode (bytes.map readPlus))) := rfl

/-- What a byte is written as is read as that byte, whatever follows. -/
theorem Written.percentDecode {b : UInt8} {bs : List UInt8} (h : Written b bs)
    (rest : List UInt8) :
    percentDecode ((bs ++ rest).map readPlus) = b :: percentDecode (rest.map readPlus) := by
  cases h with
  | plain hplus hpercent =>
      rw [List.singleton_append, List.map_cons, readPlus_of_ne hplus, percentDecode_cons hpercent]
  | space hb =>
      rw [hb]
      exact percentDecode_cons (by decide) _
  | @escaped x y high low hx hy hb =>
      simp only [List.cons_append, List.nil_append, List.map_cons,
        readPlus_of_ne (ne_of_hexDigit? (y := 0x2B) hx rfl),
        readPlus_of_ne (ne_of_hexDigit? (y := 0x2B) hy rfl),
        readPlus_of_ne (b := 0x25) (by decide)]
      rw [Form.percentDecode, hx, hy, ← hb]

theorem toUtf8_flatMap (f : UInt8 → List Char) (bs : List UInt8) :
    toUtf8 (bs.flatMap f) = bs.flatMap fun b => toUtf8 (f b) := List.flatMap_assoc

theorem percentDecode_flatMap_encodeByte (bs : List UInt8) :
    percentDecode ((toUtf8 (bs.flatMap encodeByte)).map readPlus) = bs := by
  rw [toUtf8_flatMap]
  induction bs with
  | nil => rfl
  | cons b bs ih => rw [List.flatMap_cons, (written_encodeByte b).1.percentDecode, ih]

theorem decode_encode (s : String) : decode (toUtf8 (encode s)) = s := by
  rw [decode_eq, encode, percentDecode_flatMap_encodeByte, ofUtf8_toUtf8, String.ofList_toList]

theorem isDelimiter_of_mem_encode {s : String} {b : UInt8} (h : b ∈ toUtf8 (encode s)) :
    isDelimiter b = false := by
  rw [encode, toUtf8_flatMap] at h
  obtain ⟨c, _, hb⟩ := List.mem_flatMap.mp h
  exact (written_encodeByte c).2 b hb

theorem splitOn_eq (separator : UInt8) (bs : List UInt8) :
    splitOn separator bs = bs.splitOn separator := by
  induction bs with
  | nil => rfl
  | cons b bs ih =>
      obtain ⟨part, parts, hparts⟩ := List.exists_cons_of_ne_nil (List.splitOn_ne_nil separator bs)
      rw [splitOn, List.splitOn_cons_eq_if_modifyHead, ih, hparts]
      rfl

/-- A pair as it is written. -/
def writePair (pair : String × String) : List Char := encode pair.1 ++ '=' :: encode pair.2

theorem toUtf8_writePair (pair : String × String) :
    toUtf8 (writePair pair) = toUtf8 (encode pair.1) ++ 0x3D :: toUtf8 (encode pair.2) := by
  rw [writePair, toUtf8_append, toUtf8_cons_of_lt (by decide)]
  rfl

theorem readPair_writePair (pair : String × String) :
    readPair (toUtf8 (writePair pair)) = pair := by
  have hkey : ∀ b ∈ toUtf8 (encode pair.1), (b != 0x3D) = true := by
    intro b hb
    exact bne_iff_ne.mpr (ne_of_isDelimiter (isDelimiter_of_mem_encode hb) rfl)
  rw [readPair, toUtf8_writePair, List.takeWhile_append_of_pos hkey,
    List.dropWhile_append_of_pos hkey]
  simp [decode_encode]

theorem not_mem_toUtf8_writePair (pair : String × String) : 0x26 ∉ toUtf8 (writePair pair) := by
  rw [toUtf8_writePair]
  intro h
  rcases List.mem_append.mp h with h | h
  · exact ne_of_isDelimiter (isDelimiter_of_mem_encode h) rfl rfl
  · rcases List.mem_cons.mp h with h | h
    · cases h
    · exact ne_of_isDelimiter (isDelimiter_of_mem_encode h) rfl rfl

theorem write_cons_cons (pair next : String × String) (pairs : List (String × String)) :
    write (pair :: next :: pairs) = writePair pair ++ '&' :: write (next :: pairs) := by
  simp [write, writePair, List.intercalate_cons_cons]

/-- By induction on the pairs, the parts between the separators are the pairs. -/
theorem splitOn_write (pair : String × String) (pairs : List (String × String)) :
    splitOn 0x26 (toUtf8 (write (pair :: pairs))) =
      (pair :: pairs).map fun pair => toUtf8 (writePair pair) := by
  induction pairs generalizing pair with
  | nil =>
      rw [write, List.map_singleton, List.intercalate_singleton]
      rw [splitOn_eq]
      exact List.splitOn_eq_singleton (not_mem_toUtf8_writePair pair)
  | cons next pairs ih =>
      rw [write_cons_cons, toUtf8_append, toUtf8_cons_of_lt (by decide), splitOn_eq]
      have hfirst := List.splitOn_append_cons_self_of_not_mem (not_mem_toUtf8_writePair pair)
        (toUtf8 (write (next :: pairs)))
      rw [← splitOn_eq _ (toUtf8 (write (next :: pairs))), ih] at hfirst
      exact hfirst

/-- Pairs are read as they were written. -/
theorem read_write (pairs : List (String × String)) : read (write pairs) = pairs := by
  cases pairs with
  | nil => rfl
  | cons pair pairs =>
      have hparts : ∀ part ∈ (pair :: pairs).map (fun pair => toUtf8 (writePair pair)),
          (!part.isEmpty) = true := by
        intro part hpart
        obtain ⟨p, _, rfl⟩ := List.mem_map.mp hpart
        simp [toUtf8_writePair]
      rw [read, splitOn_write, List.filter_eq_self.mpr hparts, List.map_map]
      simp [Function.comp_def, readPair_writePair]

theorem not_mem_encode (s : String) : '#' ∉ encode s := by
  intro h
  have hbyte : 0x23 ∈ toUtf8 (encode s) := List.mem_flatMap.mpr ⟨'#', h, by decide⟩
  exact ne_of_isDelimiter (isDelimiter_of_mem_encode hbyte) rfl rfl

/-- So a query goes on to its end: no `#` ends it before. -/
theorem not_mem_write (pairs : List (String × String)) : '#' ∉ write pairs := by
  have hpair (pair : String × String) : '#' ∉ writePair pair := by
    simp [writePair, not_mem_encode]
  induction pairs with
  | nil => simp [write]
  | cons pair pairs ih =>
      cases pairs with
      | nil => simpa [write, writePair] using hpair pair
      | cons next pairs => simp [write_cons_cons, hpair pair, ih]

end Web.Form

end Calculator
