import CommandConsole.Text.Utf8

/-!
# What the decoder makes of an encoded text

Results: `scalars_encode_append` (an encoded text gives its characters, whatever follows it),
`decodeLossy_flatMap_encode` (texts encoded one after the other give their concatenation).
-/

namespace CommandConsole.Text.Utf8

variable {n v : Nat} {u : Unfinished} {rest : List UInt8}

/-! ## Single bytes -/

theorem scalarsFrom_ascii (h : n < 0x80) :
    scalarsFrom none (UInt8.ofNat n :: rest) = some (Char.ofNat n) :: scalarsFrom none rest := by
  have hbyte : (UInt8.ofNat n).toNat = n := UInt8.toNat_ofNat_of_lt (by change n < 256; omega)
  simp [scalarsFrom, feed, begin, hbyte, h]

theorem scalarsFrom_lead (hn : n < 256) (h : begin n = ([], some u)) :
    scalarsFrom none (UInt8.ofNat n :: rest) = scalarsFrom (some u) rest := by
  have hbyte : (UInt8.ofNat n).toNat = n := UInt8.toNat_ofNat_of_lt hn
  simp [scalarsFrom, feed, hbyte, h]

theorem scalarsFrom_middle (hn : n < 256) (hlow : u.low ≤ n) (hhigh : n ≤ u.high)
    (hmissing : 1 < u.missing) : scalarsFrom (some u) (UInt8.ofNat n :: rest) =
      scalarsFrom (some ⟨u.value * 64 + (n - 0x80), u.missing - 1, 0x80, 0xBF⟩) rest := by
  have hbyte : (UInt8.ofNat n).toNat = n := UInt8.toNat_ofNat_of_lt hn
  simp [scalarsFrom, feed, hbyte, hlow, hhigh, Nat.not_le.mpr hmissing]

theorem scalarsFrom_last (hn : n < 256) (hlow : u.low ≤ n) (hhigh : n ≤ u.high)
    (hmissing : u.missing ≤ 1) : scalarsFrom (some u) (UInt8.ofNat n :: rest) =
      some (Char.ofNat (u.value * 64 + (n - 0x80))) :: scalarsFrom none rest := by
  have hbyte : (UInt8.ofNat n).toNat = n := UInt8.toNat_ofNat_of_lt hn
  simp [scalarsFrom, feed, hbyte, hlow, hhigh, hmissing]

/-! ## Leading bytes

The byte after some of them lies in a narrower range than others, which leaves out the scalars that
have shorter encodings, the surrogates, and what is past the last scalar. -/

theorem begin_two (hlow : 0x7F < v) (hhigh : v ≤ 0x7FF) :
    begin (v / 64 % 32 + 192) = ([], some ⟨v / 64, 1, 0x80, 0xBF⟩) := by
  have hlead : v / 64 % 32 + 192 = v / 64 + 0xC0 := by omega
  rw [hlead, begin, if_neg (by omega), if_pos (by omega), Nat.add_sub_cancel]

theorem begin_three (hlow : 0x7FF < v) (hhigh : v ≤ 0xFFFF) (hvalid : v < 0xD800 ∨ 0xDFFF < v) :
    ∃ low high, begin (v / 4096 % 16 + 224) = ([], some ⟨v / 4096, 2, low, high⟩) ∧
      low ≤ v / 64 % 64 + 128 ∧ v / 64 % 64 + 128 ≤ high := by
  have hlead : v / 4096 % 16 + 224 = v / 4096 + 0xE0 := by omega
  rw [hlead, begin, if_neg (by omega), if_neg (by omega)]
  by_cases hfirst : v / 4096 = 0
  · rw [if_pos (by omega), hfirst]
    exact ⟨_, _, rfl, by omega, by omega⟩
  · rw [if_neg (by omega)]
    by_cases hsurrogate : v / 4096 = 13
    · rw [if_pos (by omega), hsurrogate]
      exact ⟨_, _, rfl, by omega, by omega⟩
    · rw [if_neg (by omega), if_pos (by omega), Nat.add_sub_cancel]
      exact ⟨_, _, rfl, by omega, by omega⟩

theorem begin_four (hlow : 0xFFFF < v) (hhigh : v < 0x110000) :
    ∃ low high, begin (v / 262144 % 8 + 240) = ([], some ⟨v / 262144, 3, low, high⟩) ∧
      low ≤ v / 4096 % 64 + 128 ∧ v / 4096 % 64 + 128 ≤ high := by
  have hlead : v / 262144 % 8 + 240 = v / 262144 + 0xF0 := by omega
  rw [hlead, begin, if_neg (by omega), if_neg (by omega), if_neg (by omega), if_neg (by omega),
    if_neg (by omega)]
  by_cases hfirst : v / 262144 = 0
  · rw [if_pos (by omega), hfirst]
    exact ⟨_, _, rfl, by omega, by omega⟩
  · rw [if_neg (by omega)]
    by_cases hlast : v / 262144 = 4
    · rw [if_neg (by omega), if_pos (by omega), hlast]
      exact ⟨_, _, rfl, by omega, by omega⟩
    · rw [if_pos (by omega), Nat.add_sub_cancel]
      exact ⟨_, _, rfl, by omega, by omega⟩

/-! ## Texts -/

theorem scalarsFrom_two (hlow : 0x7F < v) (hhigh : v ≤ 0x7FF) :
    scalarsFrom none (UInt8.ofNat (v / 64 % 32 + 192) :: UInt8.ofNat (v % 64 + 128) :: rest) =
      some (Char.ofNat v) :: scalarsFrom none rest := by
  have hsum : v / 64 * 64 + (v % 64 + 128 - 0x80) = v := by omega
  rw [scalarsFrom_lead (by omega) (begin_two hlow hhigh),
    scalarsFrom_last (by omega) (by simp) (by simp; omega) (by simp), hsum]

theorem scalarsFrom_three (hlow : 0x7FF < v) (hhigh : v ≤ 0xFFFF)
    (hvalid : v < 0xD800 ∨ 0xDFFF < v) :
    scalarsFrom none (UInt8.ofNat (v / 4096 % 16 + 224) :: UInt8.ofNat (v / 64 % 64 + 128) ::
      UInt8.ofNat (v % 64 + 128) :: rest) = some (Char.ofNat v) :: scalarsFrom none rest := by
  obtain ⟨low, high, hbegin, hl, hh⟩ := begin_three hlow hhigh hvalid
  have hsum : (v / 4096 * 64 + (v / 64 % 64 + 128 - 0x80)) * 64 + (v % 64 + 128 - 0x80) = v := by
    omega
  rw [scalarsFrom_lead (by omega) hbegin, scalarsFrom_middle (by omega) hl hh (by simp),
    scalarsFrom_last (by omega) (by simp) (by simp; omega) (by simp), hsum]

theorem scalarsFrom_four (hlow : 0xFFFF < v) (hhigh : v < 0x110000) :
    scalarsFrom none (UInt8.ofNat (v / 262144 % 8 + 240) :: UInt8.ofNat (v / 4096 % 64 + 128) ::
      UInt8.ofNat (v / 64 % 64 + 128) :: UInt8.ofNat (v % 64 + 128) :: rest) =
        some (Char.ofNat v) :: scalarsFrom none rest := by
  obtain ⟨low, high, hbegin, hl, hh⟩ := begin_four hlow hhigh
  have hsum : ((v / 262144 * 64 + (v / 4096 % 64 + 128 - 0x80)) * 64 +
      (v / 64 % 64 + 128 - 0x80)) * 64 + (v % 64 + 128 - 0x80) = v := by omega
  rw [scalarsFrom_lead (by omega) hbegin, scalarsFrom_middle (by omega) hl hh (by simp),
    scalarsFrom_middle (by omega) (by simp) (by simp; omega) (by simp),
    scalarsFrom_last (by omega) (by simp) (by simp; omega) (by simp), hsum]

/-- **The bytes of a character give the character**, between scalars. -/
theorem scalarsFrom_encodeChar (c : Char) (rest : List UInt8) :
    scalarsFrom none (String.utf8EncodeChar c ++ rest) = some c :: scalarsFrom none rest := by
  have hvalue : Char.ofNat c.val.toNat = c := Char.ofNat_toNat c
  have hvalid : c.val.toNat < 0xD800 ∨ 0xDFFF < c.val.toNat ∧ c.val.toNat < 0x110000 := c.valid
  unfold String.utf8EncodeChar
  generalize c.val.toNat = v at hvalue hvalid
  rw [← hvalue]
  by_cases hone : v ≤ 0x7F
  · rw [if_pos hone]
    exact scalarsFrom_ascii (by omega)
  rw [if_neg hone]
  by_cases htwo : v ≤ 0x7FF
  · rw [if_pos htwo]
    exact scalarsFrom_two (by omega) htwo
  rw [if_neg htwo]
  by_cases hthree : v ≤ 0xFFFF
  · rw [if_pos hthree]
    exact scalarsFrom_three (by omega) hthree (by omega)
  · rw [if_neg hthree]
    exact scalarsFrom_four (by omega) (by omega)

theorem encode_eq (s : String) : encode s = s.toList.flatMap String.utf8EncodeChar := by
  rw [encode, String.toUTF8, ← String.utf8Encode_toList, List.utf8Encode, List.data_toByteArray]

theorem scalars_encode_append (s : String) (rest : List UInt8) :
    scalars (encode s ++ rest) = s.toList.map some ++ scalars rest := by
  rw [encode_eq]
  induction s.toList with
  | nil => rfl
  | cons c cs ih =>
    rw [List.flatMap_cons, List.append_assoc, scalars, scalarsFrom_encodeChar, ← scalars, ih]
    rfl

theorem decodeLossy_flatMap_encode (texts : List String) :
    decodeLossy (texts.flatMap encode) = String.join texts := by
  rw [decodeLossy, ← String.toList_inj, String.toList_ofList, String.toList_join]
  induction texts with
  | nil => rfl
  | cons s rest ih =>
    rw [List.flatMap_cons, scalars_encode_append, List.map_append, ih, List.flatMap_cons,
      List.map_map]
    exact congrArg (· ++ _) (List.map_id _)

end CommandConsole.Text.Utf8
