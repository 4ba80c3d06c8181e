import Calculator.Text.Utf8
import Mathlib.Data.List.Basic

/-!
Reading UTF-8 back. The bytes of a character are read as that character, and no other bytes are: so
bytes can be read strictly exactly if they are those of some text, and then they are read as it.
-/

namespace Calculator.Text

/-- The bytes of a code point: the first, and those that follow it. -/
inductive Encoded : Nat → UInt8 → List UInt8 → Prop
  | one {a : Nat} (ha : a < 0x80) : Encoded a (.ofNat a) []
  | two {a b : Nat} (low : 2 ≤ a) (ha : a < 0x20) (hb : b < 0x40) :
      Encoded (a * 0x40 + b) (.ofNat (0xC0 + a)) [.ofNat (0x80 + b)]
  | three {a b c : Nat} (ha : a < 0x10) (hb : b < 0x40) (hc : c < 0x40) (low : 0x20 ≤ a * 0x40 + b)
      (noSurrogate : a * 0x40 + b < 0x360 ∨ 0x380 ≤ a * 0x40 + b) :
      Encoded ((a * 0x40 + b) * 0x40 + c) (.ofNat (0xE0 + a)) [.ofNat (0x80 + b), .ofNat (0x80 + c)]
  | four {a b c d : Nat} (hb : b < 0x40) (hc : c < 0x40) (hd : d < 0x40) (low : 0x10 ≤ a * 0x40 + b)
      (high : a * 0x40 + b < 0x110) :
      Encoded (((a * 0x40 + b) * 0x40 + c) * 0x40 + d) (.ofNat (0xF0 + a))
        [.ofNat (0x80 + b), .ofNat (0x80 + c), .ofNat (0x80 + d)]

theorem toNat_byte {n : Nat} (h : n < 0x100) : (UInt8.ofNat n).toNat = n :=
  UInt8.toNat_ofNat_of_lt h

theorem Encoded.toNat_ofNat {code : Nat} {b : UInt8} {bs : List UInt8} (h : Encoded code b bs) :
    (Char.ofNat code).toNat = code := by
  have hvalid : code.isValidChar := by
    cases h <;> simp only [Nat.isValidChar] <;> omega
  rw [Char.ofNat, dif_pos hvalid]
  rfl

/-- The bytes of a code point are those of its character. -/
theorem Encoded.utf8EncodeChar {code : Nat} {b : UInt8} {bs : List UInt8} (h : Encoded code b bs) :
    String.utf8EncodeChar (Char.ofNat code) = b :: bs := by
  unfold String.utf8EncodeChar
  rw [Char.toNat_val, h.toNat_ofNat]
  cases h with
  | one ha => rw [if_pos (by omega)]
  | @two a b low ha hb =>
      have hfirst : (a * 0x40 + b) / 64 % 32 + 192 = 0xC0 + a := by omega
      have hsecond : (a * 0x40 + b) % 64 + 128 = 0x80 + b := by omega
      rw [if_neg (by omega), if_pos (by omega), hfirst, hsecond]
  | @three a b c ha hb hc low noSurrogate =>
      have hfirst : ((a * 0x40 + b) * 0x40 + c) / 4096 % 16 + 224 = 0xE0 + a := by omega
      have hsecond : ((a * 0x40 + b) * 0x40 + c) / 64 % 64 + 128 = 0x80 + b := by omega
      have hthird : ((a * 0x40 + b) * 0x40 + c) % 64 + 128 = 0x80 + c := by omega
      rw [if_neg (by omega), if_neg (by omega), if_pos (by omega), hfirst, hsecond, hthird]
  | @four a b c d hb hc hd low high =>
      have hfirst : (((a * 0x40 + b) * 0x40 + c) * 0x40 + d) / 262144 % 8 + 240 = 0xF0 + a := by
        omega
      have hsecond : (((a * 0x40 + b) * 0x40 + c) * 0x40 + d) / 4096 % 64 + 128 = 0x80 + b := by
        omega
      have hthird : (((a * 0x40 + b) * 0x40 + c) * 0x40 + d) / 64 % 64 + 128 = 0x80 + c := by omega
      have hfourth : (((a * 0x40 + b) * 0x40 + c) * 0x40 + d) % 64 + 128 = 0x80 + d := by omega
      rw [if_neg (by omega), if_neg (by omega), if_neg (by omega), hfirst, hsecond, hthird, hfourth]

/-- Every character has such bytes: its code point is split into groups of six bits. -/
theorem exists_encoded (c : Char) : ∃ b bs, Encoded c.toNat b bs := by
  have hvalid : c.toNat < 0xD800 ∨ 0xDFFF < c.toNat ∧ c.toNat < 0x110000 := c.valid
  generalize c.toNat = v at hvalid
  by_cases hone : v < 0x80
  · exact ⟨_, _, .one hone⟩
  by_cases htwo : v < 0x800
  · have h := @Encoded.two (v / 0x40) (v % 0x40) (by omega) (by omega) (by omega)
    have hv : v / 0x40 * 0x40 + v % 0x40 = v := by omega
    exact ⟨_, _, hv ▸ h⟩
  by_cases hthree : v < 0x10000
  · have h := @Encoded.three (v / 0x1000) (v / 0x40 % 0x40) (v % 0x40) (by omega) (by omega)
      (by omega) (by omega) (by omega)
    have hv : (v / 0x1000 * 0x40 + v / 0x40 % 0x40) * 0x40 + v % 0x40 = v := by omega
    exact ⟨_, _, hv ▸ h⟩
  · have h := @Encoded.four (v / 0x40000) (v / 0x1000 % 0x40) (v / 0x40 % 0x40) (v % 0x40)
      (by omega) (by omega) (by omega) (by omega) (by omega)
    have hv : ((v / 0x40000 * 0x40 + v / 0x1000 % 0x40) * 0x40 + v / 0x40 % 0x40) * 0x40 +
        v % 0x40 = v := by omega
    exact ⟨_, _, hv ▸ h⟩

theorem continuation_cons {low high b : Nat} (hb : b < 0x40) (hlow : low ≤ 0x80 + b)
    (hhigh : 0x80 + b ≤ high) (count : Nat) (bs : List UInt8) :
    continuation low high (count + 1) (.ofNat (0x80 + b) :: bs) =
      (0x80 + b) :: continuation 0x80 0xBF count bs := by
  have hbyte : (UInt8.ofNat (0x80 + b)).toNat = 0x80 + b := toNat_byte (by omega)
  rw [continuation, hbyte, if_pos ⟨hlow, hhigh⟩]

/-- Where all the bytes follow that have to, they are read. -/
theorem firstChar_eq {n count low high code : Nat} {bs : List UInt8} {tail : List Nat}
    (hlead : 0x80 ≤ n ∧ n < 0x100) (hfollowing : following? n = some (count, low, high))
    (htail : continuation low high count bs = tail) (hlength : tail.length = count)
    (hcode : tail.foldl (fun code b => code * 0x40 + b % 0x40) (n % (1 <<< (6 - count))) = code) :
    firstChar (.ofNat n) bs = (some (Char.ofNat code), count) := by
  have hn : (UInt8.ofNat n).toNat = n := toNat_byte hlead.2
  rw [firstChar, hn, if_neg (by omega), hfollowing]
  simp only [htail, hlength, hcode, if_true]

/-- The bytes of a code point are read as its character, whatever follows them. -/
theorem Encoded.firstChar {code : Nat} {b : UInt8} {bs : List UInt8} (h : Encoded code b bs)
    (rest : List UInt8) : firstChar b (bs ++ rest) = (some (Char.ofNat code), bs.length) := by
  cases h with
  | one ha =>
      have hfirst : (UInt8.ofNat code).toNat = code := toNat_byte (by omega)
      rw [Text.firstChar, hfirst, if_pos ha]
      rfl
  | @two a b low ha hb =>
      have hfollowing : following? (0xC0 + a) = some (1, 0x80, 0xBF) := by
        rw [following?, if_neg (by omega), if_pos (by omega)]
      have htail : continuation 0x80 0xBF 1 ([.ofNat (0x80 + b)] ++ rest) = [0x80 + b] := by
        rw [List.cons_append, continuation_cons hb (by omega) (by omega), continuation]
      refine firstChar_eq (by omega) hfollowing htail rfl ?_
      simp only [List.foldl_cons, List.foldl_nil, List.length_cons, List.length_nil, Nat.reduceAdd,
        Nat.reduceSub, Nat.reduceShiftLeft]
      omega
  | @three a b c ha hb hc low noSurrogate =>
      obtain ⟨least, greatest, hfollowing, hleast, hgreatest⟩ : ∃ least greatest,
          following? (0xE0 + a) = some (2, least, greatest) ∧ least ≤ 0x80 + b ∧
            0x80 + b ≤ greatest := by
        by_cases hzero : a = 0
        · exact ⟨0xA0, 0xBF, by rw [hzero]; rfl, by omega, by omega⟩
        by_cases hsurrogate : a = 0xD
        · exact ⟨0x80, 0x9F, by rw [hsurrogate]; rfl, by omega, by omega⟩
        · refine ⟨0x80, 0xBF, ?_, by omega, by omega⟩
          rw [following?, if_neg (by omega), if_neg (by omega), if_neg (by omega),
            if_neg (by omega), if_pos (by omega)]
      have htail : continuation least greatest 2
          ([.ofNat (0x80 + b), .ofNat (0x80 + c)] ++ rest) = [0x80 + b, 0x80 + c] := by
        rw [List.cons_append, List.cons_append, continuation_cons hb hleast hgreatest,
          continuation_cons hc (by omega) (by omega), continuation]
      refine firstChar_eq (by omega) hfollowing htail rfl ?_
      simp only [List.foldl_cons, List.foldl_nil, List.length_cons, List.length_nil, Nat.reduceAdd,
        Nat.reduceSub, Nat.reduceShiftLeft]
      omega
  | @four a b c d hb hc hd low high =>
      obtain ⟨least, greatest, hfollowing, hleast, hgreatest⟩ : ∃ least greatest,
          following? (0xF0 + a) = some (3, least, greatest) ∧ least ≤ 0x80 + b ∧
            0x80 + b ≤ greatest := by
        by_cases hzero : a = 0
        · exact ⟨0x90, 0xBF, by rw [hzero]; rfl, by omega, by omega⟩
        by_cases hfour : a = 4
        · exact ⟨0x80, 0x8F, by rw [hfour]; rfl, by omega, by omega⟩
        · refine ⟨0x80, 0xBF, ?_, by omega, by omega⟩
          rw [following?, if_neg (by omega), if_neg (by omega), if_neg (by omega),
            if_neg (by omega), if_neg (by omega), if_neg (by omega), if_pos (by omega)]
      have htail : continuation least greatest 3
          ([.ofNat (0x80 + b), .ofNat (0x80 + c), .ofNat (0x80 + d)] ++ rest) =
            [0x80 + b, 0x80 + c, 0x80 + d] := by
        rw [List.cons_append, List.cons_append, List.cons_append,
          continuation_cons hb hleast hgreatest, continuation_cons hc (by omega) (by omega),
          continuation_cons hd (by omega) (by omega), continuation]
      refine firstChar_eq (by omega) hfollowing htail rfl ?_
      simp only [List.foldl_cons, List.foldl_nil, List.length_cons, List.length_nil, Nat.reduceAdd,
        Nat.reduceSub, Nat.reduceShiftLeft]
      omega

/-- A byte by its distance from another. -/
theorem eq_byte {b : UInt8} {n : Nat} (h : n ≤ b.toNat) : b = .ofNat (n + (b.toNat - n)) := by
  rw [Nat.add_sub_cancel' h, UInt8.ofNat_toNat]

theorem exists_of_length_continuation {low high count : Nat} {bs : List UInt8} (hlow : 0x80 ≤ low)
    (hhigh : high ≤ 0xBF) (h : (continuation low high (count + 1) bs).length = count + 1) :
    ∃ b rest, bs = .ofNat (0x80 + b) :: rest ∧ b < 0x40 ∧ low ≤ 0x80 + b ∧ 0x80 + b ≤ high ∧
      (continuation 0x80 0xBF count rest).length = count := by
  cases bs with
  | nil => cases h
  | cons first rest =>
      rw [continuation] at h
      split at h
      · next hrange =>
        refine ⟨first.toNat - 0x80, rest, ?_, by omega, by omega, by omega, by simpa using h⟩
        rw [← eq_byte (by omega)]
      · cases h

/-- What the first byte says of those that follow: their number, and the range of the next one. -/
theorem following?_cases {n count low high : Nat} (h : following? n = some (count, low, high)) :
    (count = 1 ∧ 0xC2 ≤ n ∧ n < 0xE0 ∧ low = 0x80 ∧ high = 0xBF) ∨
      (count = 2 ∧ 0xE0 ≤ n ∧ n < 0xF0 ∧ 0x80 ≤ low ∧ high ≤ 0xBF ∧ (n = 0xE0 → low = 0xA0) ∧
        (n = 0xED → high = 0x9F)) ∨
      count = 3 ∧ 0xF0 ≤ n ∧ n ≤ 0xF4 ∧ 0x80 ≤ low ∧ high ≤ 0xBF ∧ (n = 0xF0 → low = 0x90) ∧
        (n = 0xF4 → high = 0x8F) := by
  unfold following? at h
  repeat' split at h
  all_goals simp only [Option.some.injEq, Prod.mk.injEq, reduceCtorEq] at h
  all_goals omega

/-- Where the bytes that have to follow do, they are those of a code point. -/
theorem exists_encoded_of_continuation {b : UInt8} {bs : List UInt8} {count low high : Nat}
    (hfollowing : following? b.toNat = some (count, low, high))
    (hlength : (continuation low high count bs).length = count) :
    ∃ code tail rest, Encoded code b tail ∧ bs = tail ++ rest := by
  rcases following?_cases hfollowing with ⟨rfl, hn⟩ | ⟨rfl, hn⟩ | ⟨rfl, hn⟩
  · obtain ⟨x, rest, rfl, hx, hxlow, hxhigh, _⟩ :=
      exists_of_length_continuation (by omega) (by omega) hlength
    have hb : b = .ofNat (0xC0 + (b.toNat - 0xC0)) := eq_byte (by omega)
    rw [hb]
    exact ⟨_, _, rest, .two (by omega) (by omega) hx, rfl⟩
  · obtain ⟨x, rest, rfl, hx, hxlow, hxhigh, hlength⟩ :=
      exists_of_length_continuation (by omega) (by omega) hlength
    obtain ⟨y, rest, rfl, hy, hylow, hyhigh, _⟩ :=
      exists_of_length_continuation (by omega) (by omega) hlength
    have hb : b = .ofNat (0xE0 + (b.toNat - 0xE0)) := eq_byte (by omega)
    rw [hb]
    exact ⟨_, _, rest, .three (by omega) hx hy (by omega) (by omega), rfl⟩
  · obtain ⟨x, rest, rfl, hx, hxlow, hxhigh, hlength⟩ :=
      exists_of_length_continuation (by omega) (by omega) hlength
    obtain ⟨y, rest, rfl, hy, hylow, hyhigh, hlength⟩ :=
      exists_of_length_continuation (by omega) (by omega) hlength
    obtain ⟨z, rest, rfl, hz, hzlow, hzhigh, _⟩ :=
      exists_of_length_continuation (by omega) (by omega) hlength
    have hb : b = .ofNat (0xF0 + (b.toNat - 0xF0)) := eq_byte (by omega)
    rw [hb]
    exact ⟨_, _, rest, .four hx hy hz (by omega) (by omega), rfl⟩

/-- What is read as a character is its bytes. -/
theorem exists_encoded_of_firstChar {b : UInt8} {bs : List UInt8} {c : Char} {taken : Nat}
    (h : firstChar b bs = (some c, taken)) :
    ∃ code tail rest, Encoded code b tail ∧ bs = tail ++ rest ∧ tail.length = taken ∧
      Char.ofNat code = c := by
  have hencoded : ∃ code tail rest, Encoded code b tail ∧ bs = tail ++ rest := by
    unfold firstChar at h
    split at h
    · next hone => exact ⟨b.toNat, [], bs, by simpa using Encoded.one hone, rfl⟩
    · split at h
      · cases h
      · next hfollowing =>
        dsimp only at h
        split at h
        · next hlength => exact exists_encoded_of_continuation hfollowing hlength
        · cases h
  obtain ⟨code, tail, rest, hencoded, rfl⟩ := hencoded
  obtain ⟨hc, htaken⟩ := Prod.mk.inj ((hencoded.firstChar rest).symm.trans h)
  exact ⟨code, tail, rest, hencoded, rfl, htaken, Option.some.inj hc⟩

theorem pieces_cons (b : UInt8) (bs : List UInt8) :
    pieces (b :: bs) = (firstChar b bs).1 :: pieces (bs.drop (firstChar b bs).2) := by
  rw [pieces]

theorem pieces_utf8EncodeChar_append (c : Char) (rest : List UInt8) :
    pieces (String.utf8EncodeChar c ++ rest) = some c :: pieces rest := by
  obtain ⟨b, bs, hencoded⟩ := exists_encoded c
  have hbytes := hencoded.utf8EncodeChar
  have hfirst := hencoded.firstChar rest
  rw [Char.ofNat_toNat] at hbytes hfirst
  rw [hbytes, List.cons_append, pieces_cons, hfirst, List.drop_left]

theorem toUtf8_cons (c : Char) (cs : List Char) :
    toUtf8 (c :: cs) = String.utf8EncodeChar c ++ toUtf8 cs := List.flatMap_cons

theorem pieces_toUtf8 (cs : List Char) : pieces (toUtf8 cs) = cs.map some := by
  induction cs with
  | nil => rw [toUtf8, List.flatMap_nil, pieces, List.map_nil]
  | cons c cs ih => rw [toUtf8_cons, pieces_utf8EncodeChar_append, ih, List.map_cons]

theorem ofUtf8_toUtf8 (cs : List Char) : ofUtf8 (toUtf8 cs) = cs := by
  rw [ofUtf8, pieces_toUtf8, List.map_map]
  exact List.map_id cs

/-- By induction on the characters, bytes without a malformed piece are those of a text. -/
theorem eq_toUtf8_of_pieces {bytes : List UInt8} {cs : List Char}
    (h : pieces bytes = cs.map some) : bytes = toUtf8 cs := by
  induction cs generalizing bytes with
  | nil =>
      cases bytes with
      | nil => rfl
      | cons b bs =>
          rw [pieces_cons] at h
          cases h
  | cons c cs ih =>
      cases bytes with
      | nil =>
          rw [pieces] at h
          cases h
      | cons b bs =>
          rw [pieces_cons, List.map_cons, List.cons.injEq] at h
          obtain ⟨hfirst, hrest⟩ := h
          obtain ⟨code, tail, rest, hencoded, rfl, _, rfl⟩ :=
            exists_encoded_of_firstChar (Prod.ext hfirst rfl)
          rw [hencoded.firstChar, List.drop_left] at hrest
          rw [toUtf8_cons, hencoded.utf8EncodeChar, ih hrest, List.cons_append]

theorem mapM_id_eq_some_iff {xs : List (Option Char)} {cs : List Char} :
    xs.mapM id = some cs ↔ xs = cs.map some := by
  induction xs generalizing cs with
  | nil => cases cs <;> simp
  | cons x xs ih =>
      rw [List.mapM_cons]
      cases cs with
      | nil => simp [Option.bind_eq_some_iff]
      | cons c cs => simp [Option.bind_eq_some_iff, ih]

/-- Bytes can be read strictly exactly as the text that they are the bytes of. -/
theorem ofUtf8?_eq_some_iff {bytes : List UInt8} {cs : List Char} :
    ofUtf8? bytes = some cs ↔ bytes = toUtf8 cs := by
  rw [ofUtf8?, mapM_id_eq_some_iff]
  refine ⟨eq_toUtf8_of_pieces, ?_⟩
  rintro rfl
  exact pieces_toUtf8 cs

end Calculator.Text
