import CommandConsole.CommandLine.Scan

/-!
# What a scan does with one character

One equation for each mode and each kind of character: how `scanFrom` goes on after the character,
or the report it ends with. All that is proved about the words and escapes of the default grammar
goes through these equations; only where a scan stands in a longer text matters nowhere else but in
`Composition`, which opens `Scan.step` for that.

An octal escape that ends before a character leaves that character to the region it stands in
(`scanFrom_octal_end`), so it is the only place where a scan looks ahead.
-/

namespace CommandConsole.CommandLine.Scan

open CommandConsole.Text

variable {ws : List String} {o : Option (List Char)} {w : List Char} {n : Nat} {c : Char}
  {r : List Char}

/-- The finished words once the open one is ended too. -/
def ended (ws : List String) (o : Option (List Char)) : List String :=
  o.elim ws fun cs => String.ofList cs.reverse :: ws

@[simp] theorem ended_none : ended ws none = ws := rfl

@[simp] theorem ended_some : ended ws (some w) = String.ofList w.reverse :: ws := rfl

theorem closeWord_mk (m : Mode) : closeWord ⟨ws, o, m, n⟩ = ⟨ended ws o, none, m, n⟩ := by
  cases o <;> rfl

theorem outcome_eq_complete_iff {s : Scan} {words : List String} :
    s.outcome = .complete words ↔ s.mode = .bare ∧ words = (ended s.words s.word).reverse := by
  obtain ⟨ws, o, m, n⟩ := s
  cases m <;> simp [outcome, closeWord_mk, eq_comm]

theorem outcome_eq_needsMore_iff {s : Scan} : s.outcome = .needsMore ↔ s.mode ≠ .bare := by
  obtain ⟨ws, o, m, n⟩ := s
  cases m <;> simp [outcome]

theorem scanFrom_cons_ok {s t : Scan} (h : s.stepMode c = .ok t) :
    s.scanFrom (c :: r) = scanFrom { t with offset := t.offset + 1 } r := by
  simp [scanFrom, step, h]

theorem scanFrom_cons_error {s : Scan} {e : Malformed} (h : s.stepMode c = .error e) :
    s.scanFrom (c :: r) = .error e := by
  simp [scanFrom, step, h]

/-! ## Outside quotes -/

theorem scanFrom_bare_quote : scanFrom ⟨ws, o, .bare, n⟩ ('"' :: r) =
    scanFrom ⟨ws, some (o.getD []), .quoted, n + 1⟩ r := rfl

theorem scanFrom_bare_backslash : scanFrom ⟨ws, o, .bare, n⟩ ('\\' :: r) =
    scanFrom ⟨ws, o, .bareEscape, n + 1⟩ r := rfl

theorem ne_quote_of_isBlank (h : isBlank c = true) : c ≠ '"' := by
  rintro rfl
  exact absurd h (by decide)

theorem ne_backslash_of_isBlank (h : isBlank c = true) : c ≠ '\\' := by
  rintro rfl
  exact absurd h (by decide)

theorem scanFrom_bare_blank (h : isBlank c = true) : scanFrom ⟨ws, o, .bare, n⟩ (c :: r) =
    scanFrom ⟨ended ws o, none, .bare, n + 1⟩ r := by
  have hs : stepMode ⟨ws, o, .bare, n⟩ c = .ok ⟨ended ws o, none, .bare, n⟩ := by
    simp [stepMode, bareStep, ne_quote_of_isBlank h, ne_backslash_of_isBlank h, h, closeWord_mk]
  exact scanFrom_cons_ok hs

theorem scanFrom_bare_plain (hq : c ≠ '"') (hb : c ≠ '\\') (hs : isBlank c = false) :
    scanFrom ⟨ws, o, .bare, n⟩ (c :: r) =
      scanFrom ⟨ws, some (c :: o.getD []), .bare, n + 1⟩ r := by
  have hstep : stepMode ⟨ws, o, .bare, n⟩ c = .ok ⟨ws, some (c :: o.getD []), .bare, n⟩ := by
    simp [stepMode, bareStep, hq, hb, hs, push]
  exact scanFrom_cons_ok hstep

theorem scanFrom_bareEscape_newline : scanFrom ⟨ws, o, .bareEscape, n⟩ ('\n' :: r) =
    scanFrom ⟨ended ws o, none, .bare, n + 1⟩ r := by
  have hs : stepMode ⟨ws, o, .bareEscape, n⟩ '\n' = .ok ⟨ended ws o, none, .bare, n⟩ := by
    simp [stepMode, closeWord_mk, goto]
  exact scanFrom_cons_ok hs

theorem scanFrom_bareEscape_other (h : c ≠ '\n') : scanFrom ⟨ws, o, .bareEscape, n⟩ (c :: r) =
    scanFrom ⟨ws, some (c :: o.getD []), .bare, n + 1⟩ r := by
  have hs : stepMode ⟨ws, o, .bareEscape, n⟩ c = .ok ⟨ws, some (c :: o.getD []), .bare, n⟩ := by
    simp [stepMode, h, push, goto]
  exact scanFrom_cons_ok hs

/-! ## Inside quotes -/

theorem scanFrom_quoted_quote : scanFrom ⟨ws, o, .quoted, n⟩ ('"' :: r) =
    scanFrom ⟨ws, o, .bare, n + 1⟩ r := rfl

theorem scanFrom_quoted_backslash : scanFrom ⟨ws, o, .quoted, n⟩ ('\\' :: r) =
    scanFrom ⟨ws, o, .quotedEscape n, n + 1⟩ r := rfl

theorem scanFrom_quoted_plain (hq : c ≠ '"') (hb : c ≠ '\\') :
    scanFrom ⟨ws, some w, .quoted, n⟩ (c :: r) =
      scanFrom ⟨ws, some (c :: w), .quoted, n + 1⟩ r := by
  have hs : stepMode ⟨ws, some w, .quoted, n⟩ c = .ok ⟨ws, some (c :: w), .quoted, n⟩ := by
    simp [stepMode, quotedStep, hq, hb, push, goto]
  exact scanFrom_cons_ok hs

/-! ## Escapes inside quotes -/

section Escapes

variable {start d : Nat}

theorem scanFrom_escape_named {x : Char} (h : namedEscape c = some x) :
    scanFrom ⟨ws, some w, .quotedEscape start, n⟩ (c :: r) =
      scanFrom ⟨ws, some (x :: w), .quoted, n + 1⟩ r := by
  have hs : stepMode ⟨ws, some w, .quotedEscape start, n⟩ c =
      .ok ⟨ws, some (x :: w), .quoted, n⟩ := by
    simp [stepMode, escapeStep, h, push, goto]
  exact scanFrom_cons_ok hs

theorem scanFrom_escape_octal (hn : namedEscape c = none) (hd : Digit.value? 8 c = some d) :
    scanFrom ⟨ws, o, .quotedEscape start, n⟩ (c :: r) =
      scanFrom ⟨ws, o, .octal start d (if d ≤ 3 then 2 else 1), n + 1⟩ r := by
  have hs : stepMode ⟨ws, o, .quotedEscape start, n⟩ c =
      .ok ⟨ws, o, .octal start d (if d ≤ 3 then 2 else 1), n⟩ := by
    simp [stepMode, escapeStep, hn, hd, goto]
  exact scanFrom_cons_ok hs

theorem scanFrom_escape_unicode : scanFrom ⟨ws, o, .quotedEscape start, n⟩ ('u' :: r) =
    scanFrom ⟨ws, o, .unicode start none 0 0, n + 1⟩ r := rfl

theorem scanFrom_escape_other (hn : namedEscape c = none) (hd : Digit.value? 8 c = none)
    (hu : c ≠ 'u') : scanFrom ⟨ws, o, .quotedEscape start, n⟩ (c :: r) =
      .error (EscapeFault.invalidBackslash.at start) := by
  apply scanFrom_cons_error
  simp [stepMode, escapeStep, hn, hd, hu]

variable {value room digits : Nat} {lead : Option Lead}

theorem scanFrom_octal_quote : scanFrom ⟨ws, o, .octal start value room, n⟩ ('"' :: r) =
    .error (EscapeFault.truncatedOctal.at start) := rfl

theorem scanFrom_octal_last (hq : c ≠ '"') (hd : Digit.value? 8 c = some d) (hr : room ≤ 1) :
    scanFrom ⟨ws, some w, .octal start value room, n⟩ (c :: r) =
      scanFrom ⟨ws, some (Char.ofNat (value * 8 + d) :: w), .quoted, n + 1⟩ r := by
  have hs : stepMode ⟨ws, some w, .octal start value room, n⟩ c =
      .ok ⟨ws, some (Char.ofNat (value * 8 + d) :: w), .quoted, n⟩ := by
    simp [stepMode, octalStep, hq, hd, hr, push, goto]
  exact scanFrom_cons_ok hs

theorem scanFrom_octal_digit (hq : c ≠ '"') (hd : Digit.value? 8 c = some d) (hr : 1 < room) :
    scanFrom ⟨ws, o, .octal start value room, n⟩ (c :: r) =
      scanFrom ⟨ws, o, .octal start (value * 8 + d) (room - 1), n + 1⟩ r := by
  have hs : stepMode ⟨ws, o, .octal start value room, n⟩ c =
      .ok ⟨ws, o, .octal start (value * 8 + d) (room - 1), n⟩ := by
    simp [stepMode, octalStep, hq, hd, Nat.not_le.mpr hr, goto]
  exact scanFrom_cons_ok hs

theorem scanFrom_octal_end (hq : c ≠ '"') (hd : Digit.value? 8 c = none) :
    scanFrom ⟨ws, some w, .octal start value room, n⟩ (c :: r) =
      scanFrom ⟨ws, some (Char.ofNat value :: w), .quoted, n⟩ (c :: r) := by
  have hs : stepMode ⟨ws, some w, .octal start value room, n⟩ c =
      stepMode ⟨ws, some (Char.ofNat value :: w), .quoted, n⟩ c := by
    simp only [stepMode, octalStep, if_neg hq, hd]
    by_cases hb : c = '\\' <;> simp [quotedStep, hq, hb, push, goto]
  simp only [scanFrom, step, hs]

theorem scanFrom_unicode_quote : scanFrom ⟨ws, o, .unicode start lead value digits, n⟩ ('"' :: r) =
    .error (EscapeFault.truncatedUnicode.at start) := rfl

theorem scanFrom_unicode_u : scanFrom ⟨ws, o, .unicode start lead value 0, n⟩ ('u' :: r) =
    scanFrom ⟨ws, o, .unicode start lead value 0, n + 1⟩ r := rfl

theorem ne_quote_of_ofHex? (h : Digit.ofHex? c = some d) : c ≠ '"' := by
  rintro rfl
  have hnone : Digit.ofHex? '"' = none := by decide
  rw [hnone] at h
  cases h

theorem ne_u_of_ofHex? (h : Digit.ofHex? c = some d) : c ≠ 'u' := by
  rintro rfl
  have hnone : Digit.ofHex? 'u' = none := by decide
  rw [hnone] at h
  cases h

theorem scanFrom_unicode_digit (hd : Digit.ofHex? c = some d) (hn : digits < 3) :
    scanFrom ⟨ws, o, .unicode start lead value digits, n⟩ (c :: r) =
      scanFrom ⟨ws, o, .unicode start lead (value * 16 + d) (digits + 1), n + 1⟩ r := by
  have hs : stepMode ⟨ws, o, .unicode start lead value digits, n⟩ c =
      .ok ⟨ws, o, .unicode start lead (value * 16 + d) (digits + 1), n⟩ := by
    simp [stepMode, unicodeStep, ne_quote_of_ofHex? hd, ne_u_of_ofHex? hd, hd, hn, goto]
  exact scanFrom_cons_ok hs

theorem stepMode_unicode_last (hd : Digit.ofHex? c = some d) :
    stepMode ⟨ws, o, .unicode start lead value 3, n⟩ c =
      unit ⟨ws, o, .unicode start lead value 3, n⟩ start lead (value * 16 + d) := by
  simp [stepMode, unicodeStep, ne_quote_of_ofHex? hd, hd]

theorem scanFrom_unicode_other (hq : c ≠ '"') (hu : ¬(digits = 0 ∧ c = 'u'))
    (hd : Digit.ofHex? c = none) :
    scanFrom ⟨ws, o, .unicode start lead value digits, n⟩ (c :: r) =
      .error (EscapeFault.invalidUnicode.at start) := by
  apply scanFrom_cons_error
  simp [stepMode, unicodeStep, hq, hu, hd]

/-- The last digit of a unit that is no surrogate. -/
theorem scanFrom_unit_plain (hd : Digit.ofHex? c = some d)
    (hh : Utf16.isHigh (value * 16 + d) = false) (hl : Utf16.isLow (value * 16 + d) = false) :
    scanFrom ⟨ws, some w, .unicode start none value 3, n⟩ (c :: r) =
      scanFrom ⟨ws, some (Char.ofNat (value * 16 + d) :: w), .quoted, n + 1⟩ r := by
  have hs : stepMode ⟨ws, some w, .unicode start none value 3, n⟩ c =
      .ok ⟨ws, some (Char.ofNat (value * 16 + d) :: w), .quoted, n⟩ := by
    rw [stepMode_unicode_last hd]
    simp [unit, hh, hl, push, goto]
  exact scanFrom_cons_ok hs

/-- The last digit of a high surrogate. -/
theorem scanFrom_unit_high (hd : Digit.ofHex? c = some d)
    (hh : Utf16.isHigh (value * 16 + d) = true) :
    scanFrom ⟨ws, o, .unicode start none value 3, n⟩ (c :: r) =
      scanFrom ⟨ws, o, .pairing ⟨start, value * 16 + d⟩, n + 1⟩ r := by
  have hs : stepMode ⟨ws, o, .unicode start none value 3, n⟩ c =
      .ok ⟨ws, o, .pairing ⟨start, value * 16 + d⟩, n⟩ := by
    rw [stepMode_unicode_last hd]
    simp [unit, hh, goto]
  exact scanFrom_cons_ok hs

/-- The last digit of a low surrogate that has no partner. -/
theorem scanFrom_unit_low (hd : Digit.ofHex? c = some d)
    (hh : Utf16.isHigh (value * 16 + d) = false) (hl : Utf16.isLow (value * 16 + d) = true) :
    scanFrom ⟨ws, o, .unicode start none value 3, n⟩ (c :: r) =
      .error (EscapeFault.unpairedSurrogate.at start) := by
  apply scanFrom_cons_error
  rw [stepMode_unicode_last hd]
  simp [unit, hh, hl]

variable {p : Lead}

/-- The last digit of the second unit of a pair. -/
theorem scanFrom_pair_low (hd : Digit.ofHex? c = some d)
    (hl : Utf16.isLow (value * 16 + d) = true) :
    scanFrom ⟨ws, some w, .unicode start (some p) value 3, n⟩ (c :: r) =
      scanFrom ⟨ws, some (Utf16.pair p.unit (value * 16 + d) :: w), .quoted, n + 1⟩ r := by
  have hs : stepMode ⟨ws, some w, .unicode start (some p) value 3, n⟩ c =
      .ok ⟨ws, some (Utf16.pair p.unit (value * 16 + d) :: w), .quoted, n⟩ := by
    rw [stepMode_unicode_last hd]
    simp [unit, hl, push, goto]
  exact scanFrom_cons_ok hs

theorem scanFrom_pair_other (hd : Digit.ofHex? c = some d)
    (hl : Utf16.isLow (value * 16 + d) = false) :
    scanFrom ⟨ws, o, .unicode start (some p) value 3, n⟩ (c :: r) =
      .error (EscapeFault.unpairedSurrogate.at p.start) := by
  apply scanFrom_cons_error
  rw [stepMode_unicode_last hd]
  simp [unit, hl]

theorem scanFrom_pairing_backslash : scanFrom ⟨ws, o, .pairing p, n⟩ ('\\' :: r) =
    scanFrom ⟨ws, o, .pairingEscape p n, n + 1⟩ r := rfl

theorem scanFrom_pairing_other (h : c ≠ '\\') : scanFrom ⟨ws, o, .pairing p, n⟩ (c :: r) =
    .error (EscapeFault.unpairedSurrogate.at p.start) := by
  apply scanFrom_cons_error
  simp [stepMode, h]

theorem scanFrom_pairingEscape_u : scanFrom ⟨ws, o, .pairingEscape p start, n⟩ ('u' :: r) =
    scanFrom ⟨ws, o, .unicode start (some p) 0 0, n + 1⟩ r := rfl

theorem scanFrom_pairingEscape_other (h : c ≠ 'u') :
    scanFrom ⟨ws, o, .pairingEscape p start, n⟩ (c :: r) =
      .error (EscapeFault.unpairedSurrogate.at p.start) := by
  apply scanFrom_cons_error
  simp [stepMode, h]

end Escapes

end CommandConsole.CommandLine.Scan

namespace CommandConsole.CommandLine

theorem read_eq_ok_iff {s : String} {answer : Outcome} :
    read s = .ok answer ↔ ∃ f, Scan.scanFrom {} s.toList = .ok f ∧ f.outcome = answer := by
  unfold read
  cases Scan.scanFrom {} s.toList <;> simp [Except.map]

theorem read_eq_error_iff {s : String} {e : Malformed} :
    read s = .error e ↔ Scan.scanFrom {} s.toList = .error e := by
  unfold read
  cases Scan.scanFrom {} s.toList <;> simp [Except.map]

end CommandConsole.CommandLine
