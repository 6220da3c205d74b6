import CommandConsole.Proofs.CommandLine.Reading
import CommandConsole.Proofs.Text.Utf16
import Mathlib.Data.List.Forall2

/-!
# Unicode escapes are UTF-16

A quoted region of Unicode escapes only spells a sequence of UTF-16 units, one escape each. Where the
units encode a text the region stands for that text; where they do not, the first unit that is
unpaired is refused, at the backslash of its own escape.

The units in front of an unpaired one encode a text, so a scan has added just that text when it comes
to the escape in question. Whether a high surrogate is paired is decided by the escape behind it, but
what is reported is where the pair would have begun.

Results: `item_of_encodeChar` (the units of a character are an item), `scanFrom_encode` (the units of
a text add it), `scanFrom_unpaired` (an unpaired unit is refused).
Main statement: `read_inQuotes`.
-/

namespace CommandConsole.CommandLine.Grammar

open CommandConsole.Text Scan

/-- Spelled units one after the other, a backslash in front of each. -/
def escapes (texts : List (List Char)) : List Char :=
  texts.flatMap ('\\' :: ·)

/-- A command line that is one quoted region of escapes. -/
def inQuotes (texts : List (List Char)) : String :=
  String.ofList ('"' :: (escapes texts ++ ['"']))

variable {ws : List String} {w : List Char} {n : Nat} {t rest : List Char} {unit : Nat}
  {texts : List (List Char)} {units : List Nat}

/-- A unit has sixteen bits. -/
theorem Spells.lt (h : Spells t unit) : unit < 0x10000 := by
  obtain ⟨more, digits, values, -, hdigits, hlength, rfl⟩ := h
  match values, hlength, hdigits with
  | [a, b, c, d], _, .cons ha (.cons hb (.cons hc (.cons hd .nil))) =>
    have hlt {ch : Char} {v : Nat} (hv : Digit.value? 16 ch = some v) : v < 16 :=
      (Digit.value?_eq_some_iff.mp hv).2
    have := hlt ha
    have := hlt hb
    have := hlt hc
    have := hlt hd
    simp only [Digit.number, List.foldl_cons, List.foldl_nil]
    omega

theorem lt_of_spells (h : List.Forall₂ Spells texts units) : ∀ unit ∈ units, unit < 0x10000 := by
  induction h with
  | nil => simp
  | cons ht hrest ih => exact List.forall_mem_cons.mpr ⟨ht.lt, ih⟩

/-! ## Units of a text -/

/-- **The units of a character are an item.** -/
theorem item_of_encodeChar {c : Char} (h : List.Forall₂ Spells texts (Utf16.encodeChar c)) :
    Item rest (escapes texts) c := by
  rcases Utf16.encodeChar_cases c with ⟨unit, he, hh, hl, rfl⟩ | ⟨high, low, he, hh, hl, rfl⟩
  · rw [he] at h
    obtain ⟨t, texts, hs, hnil, rfl⟩ := List.forall₂_cons_right_iff.mp h
    cases hnil
    have hitem : Item rest ('\\' :: t) (Char.ofNat unit) :=
      .unit hs (Utf16.not_surrogate_iff.mp ⟨hh, hl⟩)
    simpa [escapes] using hitem
  · rw [he] at h
    obtain ⟨t, texts, hs, hlow, rfl⟩ := List.forall₂_cons_right_iff.mp h
    obtain ⟨t', texts, hs', hnil, rfl⟩ := List.forall₂_cons_right_iff.mp hlow
    cases hnil
    have hitem : Item rest ('\\' :: (t ++ '\\' :: t')) (Utf16.pair high low) :=
      .pair hs hs' (Utf16.isHigh_iff.mp hh) (Utf16.isLow_iff.mp hl)
    simpa [escapes] using hitem

/-- **The units of a text add it.** -/
theorem scanFrom_encode {cs : List Char} (h : List.Forall₂ Spells texts (Utf16.encode cs)) :
    scanFrom ⟨ws, some w, .quoted, n⟩ (escapes texts ++ rest) =
      scanFrom ⟨ws, some (cs.reverse ++ w), .quoted, n + (escapes texts).length⟩ rest := by
  induction cs generalizing texts w n with
  | nil =>
    cases h
    rfl
  | cons c cs ih =>
    have hcons : Utf16.encode (c :: cs) = Utf16.encodeChar c ++ Utf16.encode cs :=
      List.flatMap_cons
    rw [hcons] at h
    have hchar := List.forall₂_take_append _ _ _ h
    have htext := List.forall₂_drop_append _ _ _ h
    rw [← List.take_append_drop (Utf16.encodeChar c).length texts]
    generalize List.take (Utf16.encodeChar c).length texts = front at *
    generalize List.drop (Utf16.encodeChar c).length texts = back at *
    have happend : escapes (front ++ back) = escapes front ++ escapes back := List.flatMap_append
    rw [happend, List.append_assoc, scanFrom_item (item_of_encodeChar hchar), ih htext]
    simp [Nat.add_assoc]

/-! ## Unpaired units -/

/-- **An unpaired unit is refused** at the backslash of its own escape. -/
theorem scanFrom_unpaired (h : List.Forall₂ Spells texts (unit :: units))
    (hu : Utf16.Unpaired (unit :: units) 0) :
    scanFrom ⟨ws, some w, .quoted, n⟩ (escapes texts ++ '"' :: rest) =
      .error (EscapeFault.unpairedSurrogate.at n) := by
  obtain ⟨t, texts, hs, hmore, rfl⟩ := List.forall₂_cons_right_iff.mp h
  obtain ⟨front, c, value, d, rfl, hc, rfl, hscan⟩ := scanFrom_spelled hs
  have hescapes : escapes (('u' :: (front ++ [c])) :: texts) ++ '"' :: rest =
      '\\' :: 'u' :: (front ++ c :: (escapes texts ++ '"' :: rest)) := by simp [escapes]
  rw [hescapes, scanFrom_quoted_backslash, scanFrom_escape_unicode, hscan]
  rcases Utf16.unpaired_cons_zero.mp hu with ⟨hh, hnext⟩ | hl
  · rw [scanFrom_unit_high hc hh]
    cases hmore with
    | nil => exact scanFrom_pairing_other (by decide)
    | @cons t' unit' texts units hs' hmore =>
      have hl' : Utf16.isLow unit' = false := hnext unit' rfl
      obtain ⟨front', c', value', d', rfl, hc', rfl, hscan'⟩ := scanFrom_spelled hs'
      have hescapes' : escapes (('u' :: (front' ++ [c'])) :: texts) ++ '"' :: rest =
          '\\' :: 'u' :: (front' ++ c' :: (escapes texts ++ '"' :: rest)) := by simp [escapes]
      rw [hescapes', scanFrom_pairing_backslash, scanFrom_pairingEscape_u, hscan']
      exact scanFrom_pair_other hc' hl'
  · exact scanFrom_unit_low hc (Utf16.not_isHigh_of_isLow hl) hl

/-- Before the first unpaired unit stand the units of a text. -/
theorem scanFrom_firstUnpaired {i : Nat} (h : List.Forall₂ Spells texts units)
    (hi : Utf16.FirstUnpaired units i) :
    scanFrom ⟨ws, some w, .quoted, n⟩ (escapes texts ++ '"' :: rest) =
      .error (EscapeFault.unpairedSurrogate.at (n + (escapes (texts.take i)).length)) := by
  rcases Utf16.encoded_or_unpaired (lt_of_spells h) with hencoded | ⟨cs, unit, units, rfl, hu⟩
  · exact absurd ⟨i, hi⟩ ((Utf16.exists_encode_iff (lt_of_spells h)).mp hencoded)
  · obtain rfl := hi.unique (Utf16.firstUnpaired_encode_append hu)
    have hsplit : escapes texts = escapes (texts.take (Utf16.encode cs).length) ++
        escapes (texts.drop (Utf16.encode cs).length) := by
      rw [escapes, escapes, escapes, ← List.flatMap_append, List.take_append_drop]
    rw [hsplit, List.append_assoc, scanFrom_encode (List.forall₂_take_append _ _ _ h)]
    exact scanFrom_unpaired (List.forall₂_drop_append _ _ _ h) hu

/-! ## Main statement -/

theorem scanFrom_inQuotes : scanFrom {} (inQuotes texts).toList =
    scanFrom ⟨[], some [], .quoted, 1⟩ (escapes texts ++ ['"']) := by
  rw [inQuotes, String.toList_ofList]
  exact scanFrom_bare_quote

/-- **Unicode escapes are UTF-16.** Spelled units between two quotes are read as the one word that
they encode; if they encode none, that is if one is unpaired, what is reported is the offset of the
backslash in front of the first one. -/
theorem read_inQuotes (texts : List (List Char)) (units : List Nat)
    (h : List.Forall₂ Spells texts units) :
    (∀ cs, Utf16.encode cs = units →
      read (inQuotes texts) = .ok (.complete [String.ofList cs])) ∧
    (∀ i, Utf16.FirstUnpaired units i → read (inQuotes texts) =
      .error ⟨1 + (escapes (texts.take i)).length, "unpaired surrogate in Unicode escape"⟩) ∧
    ((∃ cs, Utf16.encode cs = units) ↔ ¬∃ i, Utf16.FirstUnpaired units i) := by
  refine ⟨?_, fun i hi => ?_, Utf16.exists_encode_iff (lt_of_spells h)⟩
  · rintro cs rfl
    refine read_eq_ok_iff.mpr ⟨⟨[], some cs.reverse, .bare, 1 + (escapes texts).length + 1⟩, ?_, ?_⟩
    · rw [scanFrom_inQuotes, scanFrom_encode h, List.append_nil]
      exact scanFrom_quoted_quote
    · exact outcome_eq_complete_iff.mpr ⟨rfl, by simp⟩
  · rw [read_eq_error_iff, scanFrom_inQuotes]
    exact scanFrom_firstUnpaired h hi

/-- A pair, in digits of either case and with several `u`s, and a low surrogate behind it. -/
def loneLow : List (List Char) :=
  ["uD83d".toList, "uuuDE00".toList, "udE01".toList]

/-- The pair is one word, and with the third unit that unit is reported. -/
theorem read_loneLow :
    List.Forall₂ Spells loneLow [0xd83d, 0xde00, 0xde01] ∧
    read (inQuotes (loneLow.take 2)) = .ok (.complete ["😀"]) ∧
    read (inQuotes loneLow) = .error ⟨15, "unpaired surrogate in Unicode escape"⟩ := by
  have hhigh : Spells "uD83d".toList 0xd83d := ⟨0, ['D', '8', '3', 'd'], [13, 8, 3, 13], rfl,
    .cons rfl (.cons rfl (.cons rfl (.cons rfl .nil))), rfl, rfl⟩
  have hlow : Spells "uuuDE00".toList 0xde00 := ⟨2, ['D', 'E', '0', '0'], [13, 14, 0, 0], rfl,
    .cons rfl (.cons rfl (.cons rfl (.cons rfl .nil))), rfl, rfl⟩
  have hlone : Spells "udE01".toList 0xde01 := ⟨0, ['d', 'E', '0', '1'], [13, 14, 0, 1], rfl,
    .cons rfl (.cons rfl (.cons rfl (.cons rfl .nil))), rfl, rfl⟩
  have hpair : List.Forall₂ Spells (loneLow.take 2) [0xd83d, 0xde00] :=
    .cons hhigh (.cons hlow .nil)
  have hall : List.Forall₂ Spells loneLow [0xd83d, 0xde00, 0xde01] :=
    .cons hhigh (.cons hlow (.cons hlone .nil))
  have hfirst : Utf16.FirstUnpaired (Utf16.encode ['😀'] ++ [0xde01]) 2 :=
    Utf16.firstUnpaired_encode_append (Utf16.unpaired_cons_zero.mpr (.inr rfl))
  exact ⟨hall, (read_inQuotes _ _ hpair).1 ['😀'] rfl, (read_inQuotes _ _ hall).2.1 2 hfirst⟩

end CommandConsole.CommandLine.Grammar
