import CommandConsole.Proofs.Text.Utf8

/-!
# The bytes that are a text

The decoder finds no ill-formed part in some bytes exactly if they are the encoding of a text, and
then it gives that text. One direction is what it makes of an encoding. For the other one, a byte
that starts a scalar tells how many follow and in which range the next one lies; these ranges leave
out what is no shortest form and what is no character, so the bytes of a scalar that is completed are
the encoding of its character.

Results: `decode?_eq_some_iff`, `decode?_eq_none_iff`, `mem_encode_iff` (where the ASCII characters
of a text are).
-/

namespace CommandConsole.Text.Utf8

variable {u : Unfinished} {b : UInt8} {bytes rest : List UInt8} {c : Char} {n v : Nat} {s : String}

/-! ## The encodings of characters -/

theorem toNat_ofNat_of_valid (h : v.isValidChar) : (Char.ofNat v).val.toNat = v := by
  rw [Char.ofNat, dif_pos h]
  rfl

theorem ofNat_toNat_eq (h : b.toNat = n) : UInt8.ofNat n = b := by
  rw [← h]
  exact UInt8.ofNat_toNat

theorem encodeChar_one (h : v ≤ 0x7F) : String.utf8EncodeChar (Char.ofNat v) = [UInt8.ofNat v] := by
  have hvalue := toNat_ofNat_of_valid (v := v) (.inl (by omega))
  rw [String.utf8EncodeChar, hvalue, if_pos h]

theorem encodeChar_two (hlow : 0x7F < v) (hhigh : v ≤ 0x7FF) :
    String.utf8EncodeChar (Char.ofNat v) =
      [UInt8.ofNat (v / 64 % 32 + 192), UInt8.ofNat (v % 64 + 128)] := by
  have hvalue := toNat_ofNat_of_valid (v := v) (.inl (by omega))
  rw [String.utf8EncodeChar, hvalue, if_neg (by omega), if_pos hhigh]

theorem encodeChar_three (hlow : 0x7FF < v) (hhigh : v ≤ 0xFFFF)
    (hvalid : v < 0xD800 ∨ 0xDFFF < v) : String.utf8EncodeChar (Char.ofNat v) =
      [UInt8.ofNat (v / 4096 % 16 + 224), UInt8.ofNat (v / 64 % 64 + 128),
        UInt8.ofNat (v % 64 + 128)] := by
  have hvalue := toNat_ofNat_of_valid (v := v) (hvalid.imp id fun h => ⟨h, by omega⟩)
  rw [String.utf8EncodeChar, hvalue, if_neg (by omega), if_neg (by omega), if_pos hhigh]

theorem encodeChar_four (hlow : 0xFFFF < v) (hhigh : v < 0x110000) :
    String.utf8EncodeChar (Char.ofNat v) =
      [UInt8.ofNat (v / 262144 % 8 + 240), UInt8.ofNat (v / 4096 % 64 + 128),
        UInt8.ofNat (v / 64 % 64 + 128), UInt8.ofNat (v % 64 + 128)] := by
  have hvalue := toNat_ofNat_of_valid (v := v) (.inr ⟨by omega, hhigh⟩)
  rw [String.utf8EncodeChar, hvalue, if_neg (by omega), if_neg (by omega), if_neg (by omega)]

/-! ## Scalars that are completed -/

/-- Nothing ill-formed is left after a byte. -/
theorem scalarsFrom_cons (u : Option Unfinished) (b : UInt8) (rest : List UInt8) :
    scalarsFrom u (b :: rest) = (feed u b.toNat).1 ++ scalarsFrom (feed u b.toNat).2 rest :=
  rfl

/-- In the middle of a scalar there is one more byte, in its range. -/
theorem exists_of_middle (h : none ∉ scalarsFrom (some u) bytes) : ∃ b rest, bytes = b :: rest ∧
    u.low ≤ b.toNat ∧ b.toNat ≤ u.high ∧ scalarsFrom (some u) bytes =
      if u.missing ≤ 1 then
        some (Char.ofNat (u.value * 64 + (b.toNat - 0x80))) :: scalarsFrom none rest
      else scalarsFrom (some ⟨u.value * 64 + (b.toNat - 0x80), u.missing - 1, 0x80, 0xBF⟩) rest := by
  cases bytes with
  | nil => exact absurd List.mem_cons_self h
  | cons b rest =>
    by_cases hrange : u.low ≤ b.toNat ∧ b.toNat ≤ u.high
    · refine ⟨b, rest, rfl, hrange.1, hrange.2, ?_⟩
      rw [scalarsFrom_cons, feed, if_pos hrange]
      simp only
      split <;> rfl
    · rw [scalarsFrom_cons, feed, if_neg hrange] at h
      exact absurd List.mem_cons_self h

/-- The last byte of a scalar. -/
theorem exists_of_last {value low high : Nat}
    (h : none ∉ scalarsFrom (some ⟨value, 1, low, high⟩) bytes) : ∃ b rest, bytes = b :: rest ∧
    low ≤ b.toNat ∧ b.toNat ≤ high ∧ scalarsFrom (some ⟨value, 1, low, high⟩) bytes =
      some (Char.ofNat (value * 64 + (b.toNat - 0x80))) :: scalarsFrom none rest := by
  obtain ⟨b, rest, hb, hlow, hhigh, he⟩ := exists_of_middle h
  exact ⟨b, rest, hb, hlow, hhigh, he⟩

/-- A byte of a scalar with more to come. -/
theorem exists_of_more {value missing low high : Nat}
    (h : none ∉ scalarsFrom (some ⟨value, missing + 2, low, high⟩) bytes) : ∃ b rest,
    bytes = b :: rest ∧ low ≤ b.toNat ∧ b.toNat ≤ high ∧
      scalarsFrom (some ⟨value, missing + 2, low, high⟩) bytes =
        scalarsFrom (some ⟨value * 64 + (b.toNat - 0x80), missing + 1, 0x80, 0xBF⟩) rest := by
  obtain ⟨b, rest, hb, hlow, hhigh, he⟩ := exists_of_middle h
  rw [if_neg (by simp)] at he
  exact ⟨b, rest, hb, hlow, hhigh, he⟩

/-- What completes a scalar of two bytes. -/
theorem exists_of_two {low high : Nat} (hb : 0xC2 ≤ b.toNat) (hb' : b.toNat ≤ 0xDF)
    (hlow : 0x80 ≤ low) (hhigh : high ≤ 0xBF)
    (h : none ∉ scalarsFrom (some ⟨b.toNat - 0xC0, 1, low, high⟩) bytes) :
    ∃ c rest, b :: bytes = String.utf8EncodeChar c ++ rest ∧
      scalarsFrom (some ⟨b.toNat - 0xC0, 1, low, high⟩) bytes = some c :: scalarsFrom none rest := by
  obtain ⟨b₁, rest, rfl, hl, hh, he⟩ := exists_of_last h
  refine ⟨_, rest, ?_, he⟩
  rw [encodeChar_two (by omega) (by omega), ofNat_toNat_eq (b := b) (by omega),
    ofNat_toNat_eq (b := b₁) (by omega)]
  rfl

/-- What completes a scalar of three bytes. -/
theorem exists_of_three {low high value : Nat} (hvalue : b.toNat = value + 0xE0) (hb : value ≤ 0xF)
    (hlow : 0x80 ≤ low) (hhigh : high ≤ 0xBF) (hshort : value = 0 → 0xA0 ≤ low)
    (hsurrogate : value = 0xD → high ≤ 0x9F)
    (h : none ∉ scalarsFrom (some ⟨value, 2, low, high⟩) bytes) :
    ∃ c rest, b :: bytes = String.utf8EncodeChar c ++ rest ∧
      scalarsFrom (some ⟨value, 2, low, high⟩) bytes = some c :: scalarsFrom none rest := by
  obtain ⟨b₁, bytes₁, rfl, hl₁, hh₁, he₁⟩ := exists_of_more h
  rw [he₁] at h
  obtain ⟨b₂, rest, rfl, hl₂, hh₂, he₂⟩ := exists_of_last h
  refine ⟨_, rest, ?_, he₁.trans he₂⟩
  have hrange : 0x7FF < (value * 64 + (b₁.toNat - 0x80)) * 64 + (b₂.toNat - 0x80) ∧
      (value * 64 + (b₁.toNat - 0x80)) * 64 + (b₂.toNat - 0x80) ≤ 0xFFFF := by
    rcases Nat.eq_zero_or_pos value with hzero | hpos
    · have := hshort hzero
      omega
    · omega
  have hvalid : (value * 64 + (b₁.toNat - 0x80)) * 64 + (b₂.toNat - 0x80) < 0xD800 ∨
      0xDFFF < (value * 64 + (b₁.toNat - 0x80)) * 64 + (b₂.toNat - 0x80) := by
    by_cases hd : value = 0xD
    · have := hsurrogate hd
      omega
    · omega
  rw [encodeChar_three hrange.1 hrange.2 hvalid, ofNat_toNat_eq (b := b) (by omega),
    ofNat_toNat_eq (b := b₁) (by omega), ofNat_toNat_eq (b := b₂) (by omega)]
  rfl

/-- What completes a scalar of four bytes. -/
theorem exists_of_four {low high value : Nat} (hvalue : b.toNat = value + 0xF0) (hb : value ≤ 4)
    (hlow : 0x80 ≤ low) (hhigh : high ≤ 0xBF) (hshort : value = 0 → 0x90 ≤ low)
    (hlast : value = 4 → high ≤ 0x8F)
    (h : none ∉ scalarsFrom (some ⟨value, 3, low, high⟩) bytes) :
    ∃ c rest, b :: bytes = String.utf8EncodeChar c ++ rest ∧
      scalarsFrom (some ⟨value, 3, low, high⟩) bytes = some c :: scalarsFrom none rest := by
  obtain ⟨b₁, bytes₁, rfl, hl₁, hh₁, he₁⟩ := exists_of_more h
  rw [he₁] at h
  obtain ⟨b₂, bytes₂, rfl, hl₂, hh₂, he₂⟩ := exists_of_more h
  rw [he₂] at h
  obtain ⟨b₃, rest, rfl, hl₃, hh₃, he₃⟩ := exists_of_last h
  refine ⟨_, rest, ?_, he₁.trans (he₂.trans he₃)⟩
  have hrange : 0xF < value * 64 + (b₁.toNat - 0x80) ∧
      value * 64 + (b₁.toNat - 0x80) ≤ 0x10F := by
    rcases Nat.eq_zero_or_pos value with hzero | hpos
    · have := hshort hzero
      omega
    · by_cases hfour : value = 4
      · have := hlast hfour
        omega
      · omega
  rw [encodeChar_four (by omega) (by omega), ofNat_toNat_eq (b := b) (by omega),
    ofNat_toNat_eq (b := b₁) (by omega), ofNat_toNat_eq (b := b₂) (by omega),
    ofNat_toNat_eq (b := b₃) (by omega)]
  rfl

/-- **Between scalars**, bytes without ill-formed parts begin with the encoding of a character. -/
theorem exists_of_begin (h : none ∉ scalarsFrom none (b :: bytes)) :
    ∃ c rest, b :: bytes = String.utf8EncodeChar c ++ rest ∧
      scalarsFrom none (b :: bytes) = some c :: scalarsFrom none rest := by
  rw [scalarsFrom_cons, feed] at h ⊢
  unfold begin at h ⊢
  by_cases hone : b.toNat < 0x80
  · rw [if_pos hone]
    refine ⟨_, bytes, ?_, rfl⟩
    rw [encodeChar_one (by omega), UInt8.ofNat_toNat]
    rfl
  rw [if_neg hone] at h ⊢
  by_cases htwo : 0xC2 ≤ b.toNat ∧ b.toNat ≤ 0xDF
  · rw [if_pos htwo] at h ⊢
    exact exists_of_two htwo.1 htwo.2 (by simp) (by simp) h
  rw [if_neg htwo] at h ⊢
  by_cases hshort : b.toNat = 0xE0
  · rw [if_pos hshort] at h ⊢
    exact exists_of_three hshort (by simp) (by simp) (by simp) (by simp) (by simp) h
  rw [if_neg hshort] at h ⊢
  by_cases hsurrogate : b.toNat = 0xED
  · rw [if_pos hsurrogate] at h ⊢
    exact exists_of_three hsurrogate (by simp) (by simp) (by simp) (by simp) (by simp) h
  rw [if_neg hsurrogate] at h ⊢
  by_cases hthree : 0xE1 ≤ b.toNat ∧ b.toNat ≤ 0xEF
  · rw [if_pos hthree] at h ⊢
    exact exists_of_three (by omega) (by omega) (by simp) (by simp) (by omega) (by omega) h
  rw [if_neg hthree] at h ⊢
  by_cases hshort : b.toNat = 0xF0
  · rw [if_pos hshort] at h ⊢
    exact exists_of_four hshort (by simp) (by simp) (by simp) (by simp) (by simp) h
  rw [if_neg hshort] at h ⊢
  by_cases hfour : 0xF1 ≤ b.toNat ∧ b.toNat ≤ 0xF3
  · rw [if_pos hfour] at h ⊢
    exact exists_of_four (by omega) (by omega) (by simp) (by simp) (by omega) (by omega) h
  rw [if_neg hfour] at h ⊢
  by_cases hlast : b.toNat = 0xF4
  · rw [if_pos hlast] at h ⊢
    exact exists_of_four hlast (by simp) (by simp) (by simp) (by simp) (by simp) h
  · rw [if_neg hlast] at h
    exact absurd List.mem_cons_self h

theorem length_encodeChar_pos (c : Char) : 0 < (String.utf8EncodeChar c).length := by
  unfold String.utf8EncodeChar
  simp only
  split
  · simp
  · split
    · simp
    · split <;> simp

/-- Bytes without ill-formed parts are the encodings of the characters that they give. -/
theorem exists_of_scalars (h : none ∉ scalars bytes) :
    ∃ cs : List Char, scalars bytes = cs.map some ∧ bytes = cs.flatMap String.utf8EncodeChar := by
  rw [scalars] at h ⊢
  -- Each character takes at least one byte away.
  induction hlength : bytes.length using Nat.strongRecOn generalizing bytes with
  | _ n ih =>
    cases bytes with
    | nil => exact ⟨[], rfl, rfl⟩
    | cons b bytes =>
      obtain ⟨c, rest, hbytes, hscalars⟩ := exists_of_begin h
      have hrest : none ∉ scalarsFrom none rest := by
        rw [hscalars] at h
        exact fun hmem => h (List.mem_cons_of_mem _ hmem)
      have hshorter : rest.length < n := by
        have hpos := length_encodeChar_pos c
        rw [← hlength, hbytes, List.length_append]
        omega
      obtain ⟨cs, hcs, hencoded⟩ := ih rest.length hshorter hrest rfl
      refine ⟨c :: cs, ?_, ?_⟩
      · rw [hscalars, hcs, List.map_cons]
      · rw [hbytes, List.flatMap_cons, ← hencoded]

/-! ## Texts -/

theorem scalars_encode (s : String) : scalars (encode s) = s.toList.map some := by
  have h := scalars_encode_append s []
  rw [List.append_nil] at h
  exact h.trans (List.append_nil _)

/-- **The decoder gives a text** exactly for its encoding. -/
theorem decode?_eq_some_iff : decode? bytes = some s ↔ encode s = bytes := by
  unfold decode?
  simp only
  constructor
  · intro h
    split at h
    next hall =>
      have hnone : none ∉ scalars bytes := fun hmem => by
        have hsome := List.all_eq_true.mp hall none hmem
        cases hsome
      obtain ⟨cs, hcs, hbytes⟩ := exists_of_scalars hnone
      have hfilter : (cs.map some).filterMap id = cs := by simp
      rw [hcs, hfilter] at h
      rw [← Option.some.inj h, encode_eq, String.toList_ofList, hbytes]
    · cases h
  · rintro rfl
    have hall : ((scalars (encode s)).all (·.isSome)) = true := by
      rw [scalars_encode]
      simp
    rw [if_pos hall, scalars_encode]
    simp

theorem decode?_eq_none_iff : decode? bytes = none ↔ ∀ s, encode s ≠ bytes := by
  rw [Option.eq_none_iff_forall_ne_some]
  exact forall_congr' fun s => not_congr decode?_eq_some_iff

theorem encode_append (s t : String) : encode (s ++ t) = encode s ++ encode t := by
  rw [encode_eq, encode_eq, encode_eq, String.toList_append, List.flatMap_append]

/-- A byte below 128 is the encoding of its character, and in no other. -/
theorem eq_of_mem_encodeChar (h : b ∈ String.utf8EncodeChar c) (hb : b.toNat < 0x80) :
    c.val.toNat = b.toNat := by
  have hbyte : ∀ n, b = UInt8.ofNat n → n < 256 → b.toNat = n := by
    rintro n rfl hn
    exact UInt8.toNat_ofNat_of_lt hn
  unfold String.utf8EncodeChar at h
  simp only at h
  generalize c.val.toNat = v at h
  split at h
  · exact (hbyte v (List.mem_singleton.mp h) (by omega)).symm
  -- Every byte of a longer encoding is at least 128.
  all_goals exfalso
  split at h
  · simp only [List.mem_cons, List.not_mem_nil, or_false] at h
    rcases h with h | h <;> have := hbyte _ h (by omega) <;> omega
  split at h
  · simp only [List.mem_cons, List.not_mem_nil, or_false] at h
    rcases h with h | h | h <;> have := hbyte _ h (by omega) <;> omega
  · simp only [List.mem_cons, List.not_mem_nil, or_false] at h
    rcases h with h | h | h | h <;> have := hbyte _ h (by omega) <;> omega

/-- **The newlines of a text** are the bytes 10 of its encoding. -/
theorem mem_encode_iff : 10 ∈ encode s ↔ '\n' ∈ s.toList := by
  rw [encode_eq, List.mem_flatMap]
  constructor
  · rintro ⟨c, hc, hmem⟩
    have hvalue := eq_of_mem_encodeChar hmem (by decide)
    obtain rfl : c = '\n' := Char.ext (UInt32.toNat.inj hvalue)
    exact hc
  · intro h
    exact ⟨'\n', h, by decide⟩

end CommandConsole.Text.Utf8
