import CommandConsole.Text.Utf16
import Mathlib.Data.List.Basic

/-!
# Texts as UTF-16 units

`encode` writes a text in UTF-16: a character below 10000 as the unit of its own number, any other as
a high and a low surrogate. Of some units one is `Unpaired` if it is a surrogate and its partner is
not beside it; units are the encoding of a text iff none is.

Results: `encodeChar_cases` (a character is one unit or a pair), `unpaired_encode_append` (behind an
encoded text the same units are unpaired), `encoded_or_unpaired`, `exists_encode_iff`.
-/

namespace CommandConsole.Text.Utf16

/-- The units of a character. -/
def encodeChar (c : Char) : List Nat :=
  if c.toNat < 0x10000 then [c.toNat]
  else [0xD800 + (c.toNat - 0x10000) / 0x400, 0xDC00 + (c.toNat - 0x10000) % 0x400]

/-- The units of a text. -/
def encode (cs : List Char) : List Nat :=
  cs.flatMap encodeChar

/-- There is a high surrogate at a place. -/
def HighAt (units : List Nat) (i : Nat) : Prop :=
  ∃ unit, units[i]? = some unit ∧ isHigh unit = true

/-- There is a low surrogate at a place. -/
def LowAt (units : List Nat) (i : Nat) : Prop :=
  ∃ unit, units[i]? = some unit ∧ isLow unit = true

/-- There is a high surrogate without a low one directly after it, or a low one without a high one
directly before it. -/
def Unpaired (units : List Nat) (i : Nat) : Prop :=
  HighAt units i ∧ ¬LowAt units (i + 1) ∨ LowAt units i ∧ ∀ j, i = j + 1 → ¬HighAt units j

/-- The first unpaired unit is at a place. -/
structure FirstUnpaired (units : List Nat) (i : Nat) : Prop where
  unpaired : Unpaired units i
  first : ∀ j < i, ¬Unpaired units j

theorem FirstUnpaired.unique {units : List Nat} {i j : Nat} (hi : FirstUnpaired units i)
    (hj : FirstUnpaired units j) : i = j := by
  rcases Nat.lt_trichotomy i j with hlt | heq | hlt
  · exact absurd hi.unpaired (hj.first i hlt)
  · exact heq
  · exact absurd hj.unpaired (hi.first j hlt)

/-! ## Units of one character -/

theorem not_isLow_of_isHigh {unit : Nat} (h : isHigh unit = true) : isLow unit = false := by
  rw [isHigh_iff] at h
  rw [← Bool.not_eq_true, isLow_iff]
  omega

theorem not_isHigh_of_isLow {unit : Nat} (h : isLow unit = true) : isHigh unit = false := by
  rw [isLow_iff] at h
  rw [← Bool.not_eq_true, isHigh_iff]
  omega

/-- Characters are numbered without the surrogates, up to 10FFFF. -/
theorem toNat_valid (c : Char) : c.toNat < 0xD800 ∨ 0xDFFF < c.toNat ∧ c.toNat < 0x110000 :=
  c.valid

theorem toNat_ofNat {n : Nat} (h : n < 0xD800 ∨ 0xDFFF < n ∧ n < 0x110000) :
    (Char.ofNat n).toNat = n := by
  rw [Char.ofNat, dif_pos h]
  rfl

theorem encodeChar_ofNat {unit : Nat} (h : unit < 0x10000) (hh : isHigh unit = false)
    (hl : isLow unit = false) : encodeChar (Char.ofNat unit) = [unit] := by
  rw [← Bool.not_eq_true, isHigh_iff] at hh
  rw [← Bool.not_eq_true, isLow_iff] at hl
  have hunit : (Char.ofNat unit).toNat = unit := toNat_ofNat (by omega)
  rw [encodeChar, hunit, if_pos h]

theorem encodeChar_pair {high low : Nat} (hh : isHigh high = true) (hl : isLow low = true) :
    encodeChar (pair high low) = [high, low] := by
  rw [isHigh_iff] at hh
  rw [isLow_iff] at hl
  have hpair : (pair high low).toNat = 0x10000 + (high - 0xD800) * 0x400 + (low - 0xDC00) :=
    toNat_ofNat (by omega)
  have hhigh : 0xD800 + ((pair high low).toNat - 0x10000) / 0x400 = high := by omega
  have hlow : 0xDC00 + ((pair high low).toNat - 0x10000) % 0x400 = low := by omega
  rw [encodeChar, if_neg (by omega), hhigh, hlow]

/-- **A character is one unit or a pair**, and the units stand for it. -/
theorem encodeChar_cases (c : Char) :
    (∃ unit, encodeChar c = [unit] ∧ isHigh unit = false ∧ isLow unit = false ∧
      Char.ofNat unit = c) ∨
    ∃ high low, encodeChar c = [high, low] ∧ isHigh high = true ∧ isLow low = true ∧
      pair high low = c := by
  have hvalid := toNat_valid c
  by_cases h : c.toNat < 0x10000
  · refine .inl ⟨c.toNat, if_pos h, ?_, ?_, Char.ofNat_toNat c⟩
    · rw [← Bool.not_eq_true, isHigh_iff]
      omega
    · rw [← Bool.not_eq_true, isLow_iff]
      omega
  · refine .inr ⟨_, _, if_neg h, isHigh_iff.mpr (by omega), isLow_iff.mpr (by omega), ?_⟩
    have hnumber : 0x10000 + (0xD800 + (c.toNat - 0x10000) / 0x400 - 0xD800) * 0x400 +
        (0xDC00 + (c.toNat - 0x10000) % 0x400 - 0xDC00) = c.toNat := by omega
    rw [pair, hnumber, Char.ofNat_toNat]

/-! ## Unpaired units -/

variable {units : List Nat} {unit i : Nat}

theorem unpaired_cons_zero : Unpaired (unit :: units) 0 ↔
    isHigh unit = true ∧ (∀ next ∈ units.head?, isLow next = false) ∨ isLow unit = true := by
  simp only [Unpaired, HighAt, LowAt, List.getElem?_cons_succ, ← List.head?_eq_getElem?]
  simp

/-- A unit in front pairs none behind it, unless it is a high surrogate and pairs the first. -/
theorem unpaired_cons_succ (h : isHigh unit = false ∨ 0 < i) :
    Unpaired (unit :: units) (i + 1) ↔ Unpaired units i := by
  have hhigh (j : Nat) : HighAt (unit :: units) (j + 1) ↔ HighAt units j := by simp [HighAt]
  have hlow (j : Nat) : LowAt (unit :: units) (j + 1) ↔ LowAt units j := by simp [LowAt]
  have hbefore : (∀ j, i + 1 = j + 1 → ¬HighAt (unit :: units) j) ↔
      ∀ j, i = j + 1 → ¬HighAt units j := by
    cases i with
    | zero =>
      have hunit : isHigh unit = false := h.resolve_right (Nat.lt_irrefl 0)
      simp [HighAt, hunit]
    | succ i => simp [hhigh]
  rw [Unpaired, Unpaired, hhigh, hlow, hlow, hbefore]

theorem unpaired_encodeChar_append (c : Char) : Unpaired (encodeChar c ++ units) i ↔
    ∃ j, i = (encodeChar c).length + j ∧ Unpaired units j := by
  rcases encodeChar_cases c with ⟨unit, he, hh, hl, -⟩ | ⟨high, low, he, hh, hl, -⟩
  · rw [he, List.singleton_append, List.length_singleton]
    cases i with
    | zero =>
      have hunit : ¬Unpaired (unit :: units) 0 := by simp [unpaired_cons_zero, hh, hl]
      exact ⟨(absurd · hunit), fun ⟨j, hj, _⟩ => by omega⟩
    | succ i => simp [unpaired_cons_succ (.inl hh), Nat.add_comm 1]
  · have hhigh : isLow high = false := not_isLow_of_isHigh hh
    have hlow : isHigh low = false := not_isHigh_of_isLow hl
    rw [he]
    simp only [List.cons_append, List.nil_append, List.length_cons, List.length_nil]
    match i with
    | 0 =>
      have hfirst : ¬Unpaired (high :: low :: units) 0 := by
        simp [unpaired_cons_zero, hhigh, hl]
      exact ⟨(absurd · hfirst), fun ⟨j, hj, _⟩ => by omega⟩
    | 1 =>
      have hsecond : ¬Unpaired (high :: low :: units) 1 := by
        simp [Unpaired, HighAt, LowAt, hh, hlow]
      exact ⟨(absurd · hsecond), fun ⟨j, hj, _⟩ => by omega⟩
    | i + 2 =>
      rw [unpaired_cons_succ (.inr (Nat.succ_pos i)), unpaired_cons_succ (.inl hlow)]
      simp [Nat.add_comm 2]

/-- **Behind an encoded text** the same units are unpaired, and no others. -/
theorem unpaired_encode_append (cs : List Char) : Unpaired (encode cs ++ units) i ↔
    ∃ j, i = (encode cs).length + j ∧ Unpaired units j := by
  induction cs generalizing i with
  | nil => simp [encode]
  | cons c cs ih =>
    have hcons : encode (c :: cs) = encodeChar c ++ encode cs := List.flatMap_cons
    rw [hcons, List.append_assoc, unpaired_encodeChar_append, List.length_append]
    simp only [ih]
    constructor
    · rintro ⟨_, rfl, j, rfl, hj⟩
      exact ⟨j, (Nat.add_assoc _ _ _).symm, hj⟩
    · rintro ⟨j, rfl, hj⟩
      exact ⟨_, Nat.add_assoc _ _ _, j, rfl, hj⟩

/-- **Units are the encoding of a text**, or of one in front of an unpaired unit. -/
theorem encoded_or_unpaired (h : ∀ unit ∈ units, unit < 0x10000) :
    (∃ cs, encode cs = units) ∨
    ∃ cs unit rest, units = encode cs ++ unit :: rest ∧ Unpaired (unit :: rest) 0 := by
  induction hk : units.length using Nat.strongRecOn generalizing units with
  | _ k ih =>
    subst hk
    -- what is left behind a character is shorter
    have hchar (c : Char) (rest : List Nat) (hunits : units = encodeChar c ++ rest)
        (hlt : rest.length < units.length) : (∃ cs, encode cs = units) ∨
        ∃ cs unit rest, units = encode cs ++ unit :: rest ∧ Unpaired (unit :: rest) 0 := by
      subst hunits
      rcases ih _ hlt (fun u hu => h u (List.mem_append_right _ hu)) rfl with
        ⟨cs, rfl⟩ | ⟨cs, u, rest', rfl, hu⟩
      · exact .inl ⟨c :: cs, List.flatMap_cons⟩
      · exact .inr ⟨c :: cs, u, rest', by simp [encode], hu⟩
    cases units with
    | nil => exact .inl ⟨[], rfl⟩
    | cons unit rest =>
      by_cases hu : Unpaired (unit :: rest) 0
      · exact .inr ⟨[], unit, rest, rfl, hu⟩
      rw [unpaired_cons_zero, not_or] at hu
      obtain ⟨hnext, hl⟩ := hu
      rw [Bool.not_eq_true] at hl
      cases hh : isHigh unit with
      | false =>
        refine hchar (Char.ofNat unit) rest ?_ (by simp)
        rw [encodeChar_ofNat (h unit List.mem_cons_self) hh hl]
        rfl
      | true =>
        cases rest with
        | nil => exact absurd ⟨hh, by simp⟩ hnext
        | cons next rest =>
          have hlow : isLow next = true := by simpa [hh] using hnext
          refine hchar (pair unit next) rest ?_ (by simp only [List.length_cons]; omega)
          rw [encodeChar_pair hh hlow]
          rfl

theorem firstUnpaired_encode_append {cs : List Char} {rest : List Nat}
    (h : Unpaired (unit :: rest) 0) :
    FirstUnpaired (encode cs ++ unit :: rest) (encode cs).length := by
  refine ⟨(unpaired_encode_append cs).mpr ⟨0, rfl, h⟩, fun j hj hunpaired => ?_⟩
  obtain ⟨k, rfl, -⟩ := (unpaired_encode_append cs).mp hunpaired
  omega

/-- **Units encode a text** iff none is unpaired. -/
theorem exists_encode_iff (h : ∀ unit ∈ units, unit < 0x10000) :
    (∃ cs, encode cs = units) ↔ ¬∃ i, FirstUnpaired units i := by
  constructor
  · rintro ⟨cs, rfl⟩ ⟨i, hi⟩
    have hnone : Unpaired (encode cs ++ []) i := by
      rw [List.append_nil]
      exact hi.unpaired
    obtain ⟨j, -, hj⟩ := (unpaired_encode_append cs).mp hnone
    simp [Unpaired, HighAt, LowAt] at hj
  · intro hnone
    rcases encoded_or_unpaired h with hencoded | ⟨cs, unit, rest, rfl, hu⟩
    · exact hencoded
    · exact absurd ⟨_, firstUnpaired_encode_append hu⟩ hnone

end CommandConsole.Text.Utf16
