import CommandConsole.Proofs.CommandLine.Reading
import CommandConsole.Proofs.CommandLine.Reports

/-!
# Where a text breaks off

`Grammar` says what whole command lines are. A text may also break off inside quotes: behind some
items of the region, or in the middle of an escape. `Inside` and `Place` say so of a text, again
without a scanner, and `Stands` says it for each mode in which a scan of the text may end.

Whether an octal escape is an item depends on what follows it, so both carry what follows the text;
in `Stands` that is anything at all, or anything that begins with a character already read.

Results: `stands_of_stepMode` (one step), `stands_of_scanFrom` (a scan stands where its text breaks
off), `scanFrom_inside` and `scanFrom_place` (and the other way round).
-/

namespace CommandConsole.CommandLine.Grammar

open CommandConsole.Text Scan

/-- A text in front of `rest` that ends inside quotes where an item may begin: a command line, an
opening quote, and items. -/
inductive Inside : List Char → List Char → Prop
  | opened {rest text : List Char} {words : List String} {parts : List Part}
      (h : Derives text words parts) : Inside rest (text ++ ['"'])
  | item {rest text t : List Char} {x : Char} (h : Inside (t ++ rest) text) (hi : Item rest t x) :
      Inside rest (text ++ t)

/-- A text in front of `rest` that ends where the backslash of a Unicode escape may stand: of one
that begins, or of one that completes the pair that `high` has begun. -/
inductive Place : Option Nat → List Char → List Char → Prop
  | first {rest text : List Char} (h : Inside rest text) : Place none rest text
  | second {rest text t : List Char} {high : Nat} (h : Inside ('\\' :: t ++ rest) text)
      (hs : Spells t high) (hh : Utf16.isHigh high = true) :
      Place (some high) rest (text ++ '\\' :: t)

/-- The front of a Unicode escape behind its backslash, and the values of its digits so far. -/
def Begins (text : List Char) (values : List Nat) : Prop :=
  ∃ more digits, text = 'u' :: (List.replicate more 'u' ++ digits) ∧ Digits 16 digits values ∧
    values.length < 4

/-- What a text says about the mode in which a scan of it ends. -/
def Stands : Mode → List Char → Prop
  | .bare, _ | .bareEscape, _ => True
  | .quoted, text => ∀ rest, Inside rest text
  | .quotedEscape _, text => ∃ before, text = before ++ ['\\'] ∧ ∀ rest, Inside ('\\' :: rest) before
  | .octal _ value room, text => ∃ before t d ds, text = before ++ '\\' :: t ∧
      (∀ rest, Inside ('\\' :: rest) before) ∧ Digits 8 t (d :: ds) ∧
      value = Digit.number 8 (d :: ds) ∧ (d :: ds).length + room = octalLimit d ∧ 0 < room
  | .unicode _ lead value digits, text => ∃ before t values, text = before ++ '\\' :: t ∧
      (∀ rest, Place (lead.map Lead.unit) ('\\' :: rest) before) ∧ Begins t values ∧
      value = Digit.number 16 values ∧ digits = values.length
  | .pairing lead, text => ∀ rest, Place (some lead.unit) rest text
  | .pairingEscape lead _, text => ∃ before, text = before ++ ['\\'] ∧
      ∀ rest, Place (some lead.unit) rest before

variable {s t : Scan} {c : Char} {text : List Char}

/-! ## One digit more -/

theorem number_snoc (radix : Nat) (ds : List Nat) (d : Nat) :
    Digit.number radix (ds ++ [d]) = Digit.number radix ds * radix + d := by
  simp [Digit.number]

theorem Digits.snoc {radix d : Nat} {digits : List Char} {values : List Nat}
    (h : Digits radix digits values) (hd : Digit.value? radix c = some d) :
    Digits radix (digits ++ [c]) (values ++ [d]) :=
  List.rel_append h (.cons hd .nil)

namespace Begins

variable {values : List Nat} {d : Nat}

theorem length_lt (h : Begins text values) : values.length < 4 := by
  obtain ⟨-, -, -, -, hlt⟩ := h
  exact hlt

theorem u (h : Begins text []) : Begins (text ++ ['u']) [] := by
  obtain ⟨more, digits, rfl, hd, hlt⟩ := h
  cases hd
  exact ⟨more + 1, [], by simp [List.replicate_succ'], .nil, hlt⟩

theorem digit (h : Begins text values) (hd : Digit.ofHex? c = some d) (hlt : values.length < 3) :
    Begins (text ++ [c]) (values ++ [d]) := by
  obtain ⟨more, digits, rfl, hdigits, -⟩ := h
  refine ⟨more, digits ++ [c], by simp, hdigits.snoc (value?_of_ofHex? hd), ?_⟩
  rw [List.length_append, List.length_singleton]
  omega

/-- The fourth digit completes the escape. -/
theorem spells (h : Begins text values) (hd : Digit.ofHex? c = some d) (hlt : ¬values.length < 3) :
    Spells (text ++ [c]) (Digit.number 16 values * 16 + d) := by
  obtain ⟨more, digits, rfl, hdigits, hlen⟩ := h
  refine ⟨more, digits ++ [c], values ++ [d], by simp, hdigits.snoc (value?_of_ofHex? hd), ?_,
    (number_snoc 16 values d).symm⟩
  rw [List.length_append, List.length_singleton]
  omega

end Begins

/-! ## One step -/

theorem stands_bareStep (hscan : scanFrom {} text = .ok s) (hm : s.mode = .bare) (c : Char) :
    Stands (s.bareStep c).mode (text ++ [c]) := by
  obtain ⟨ws, o, m, n⟩ := s
  obtain rfl : m = .bare := hm
  unfold bareStep
  split
  next hc =>
    obtain ⟨parts, words, hd, -⟩ := exists_parts ⟨hscan, rfl⟩
    subst hc
    exact fun rest => .opened hd
  split
  · trivial
  split
  · rw [closeWord_mk]
    trivial
  · trivial

/-- A character inside quotes; an octal escape may have ended in front of it. -/
theorem stands_quotedStep (h : ∀ rest, Inside (c :: rest) text) (s : Scan) :
    Stands (s.quotedStep c).mode (text ++ [c]) := by
  unfold quotedStep
  split
  · trivial
  next hq =>
    split
    next hb =>
      subst hb
      exact ⟨text, rfl, h⟩
    next hb => exact fun rest => (h rest).item (.plain hq hb)

theorem stands_escapeStep {start : Nat} {before : List Char}
    (h : ∀ rest, Inside ('\\' :: rest) before) (hs : s.escapeStep start c = .ok t) :
    Stands t.mode (before ++ ['\\'] ++ [c]) := by
  rw [List.append_assoc]
  unfold escapeStep at hs
  split at hs
  next x hn =>
    cases hs
    exact fun rest => (h _).item (.named (namedEscape_eq_some_iff.mp hn))
  split at hs
  next d hd =>
    cases hs
    refine ⟨before, [c], d, [], rfl, h, .cons hd .nil, by simp [Digit.number], ?_, ?_⟩
    · unfold octalLimit
      split <;> rfl
    · split <;> omega
  split at hs
  next hu =>
    cases hs
    subst hu
    exact ⟨before, ['u'], [], rfl, fun rest => .first (h rest), ⟨0, [], rfl, .nil, by simp⟩, rfl, rfl⟩
  · cases hs

theorem stands_octalStep {start value room : Nat}
    (h : Stands (.octal start value room) text) (hs : s.octalStep start value room c = .ok t) :
    Stands t.mode (text ++ [c]) := by
  obtain ⟨before, t', d, ds, rfl, hbefore, hdigits, rfl, hroom, hpos⟩ := h
  unfold octalStep at hs
  split at hs
  · cases hs
  next hq =>
    split at hs
    next d' hd =>
      have hdigits' : Digits 8 (t' ++ [c]) (d :: (ds ++ [d'])) := hdigits.snoc hd
      have hvalue : Digit.number 8 (d :: ds) * 8 + d' = Digit.number 8 (d :: (ds ++ [d'])) :=
        (number_snoc 8 (d :: ds) d').symm
      have hlength : (d :: (ds ++ [d'])).length = (d :: ds).length + 1 := by simp
      rw [List.append_assoc, List.cons_append]
      split at hs
      next hlast =>
        cases hs
        exact fun rest => (hbefore _).item (.octal hdigits' (by omega) (by omega))
      next hlast =>
        cases hs
        exact ⟨before, t' ++ [c], d, ds ++ [d'], rfl, hbefore, hdigits', hvalue, by omega, by omega⟩
    next hd =>
      cases hs
      exact stands_quotedStep (fun rest => (hbefore _).item
        (.octal hdigits (by omega) fun _ => ⟨c, rest, rfl, hq, hd⟩)) _

/-- The last digit of a unit. -/
theorem stands_unit {start unit : Nat} {lead : Option Lead} {before : List Char}
    (h : ∀ rest, Place (lead.map Lead.unit) ('\\' :: rest) before) (hspells : Spells text unit)
    (hs : s.unit start lead unit = .ok t) : Stands t.mode (before ++ '\\' :: text) := by
  unfold Scan.unit at hs
  cases lead with
  | none =>
    have hinside (rest : List Char) : Inside ('\\' :: text ++ rest) before := by
      cases h (text ++ rest) with
      | first hi => exact hi
    simp only at hs
    split at hs
    next hh =>
      cases hs
      exact fun rest => .second (hinside rest) hspells hh
    next hh =>
      split at hs
      · cases hs
      next hl =>
        cases hs
        exact fun rest => (hinside rest).item
          (.unit hspells (Utf16.not_surrogate_iff.mp ⟨by simpa using hh, by simpa using hl⟩))
  | some p =>
    simp only at hs
    split at hs
    next hl =>
      cases hs
      intro rest
      cases h (text ++ rest) with
      | @second _ b t₁ _ hi hhigh hh =>
        rw [List.append_assoc]
        have hpair : Item rest ('\\' :: (t₁ ++ '\\' :: text)) (Utf16.pair p.unit unit) :=
          .pair hhigh hspells (Utf16.isHigh_iff.mp hh) (Utf16.isLow_iff.mp hl)
        refine .item ?_ hpair
        simpa using hi
    · cases hs

theorem stands_unicodeStep {start value digits : Nat} {lead : Option Lead}
    (hm : s.mode = .unicode start lead value digits)
    (h : Stands (.unicode start lead value digits) text)
    (hs : s.unicodeStep start lead value digits c = .ok t) : Stands t.mode (text ++ [c]) := by
  obtain ⟨before, t', values, rfl, hplace, hbegins, rfl, rfl⟩ := h
  unfold unicodeStep at hs
  rw [List.append_assoc, List.cons_append]
  split at hs
  · cases hs
  split at hs
  next hu =>
    cases hs
    obtain ⟨hnil, rfl⟩ := hu
    obtain rfl := List.length_eq_zero_iff.mp hnil
    rw [hm]
    exact ⟨before, t' ++ ['u'], [], rfl, hplace, hbegins.u, rfl, rfl⟩
  split at hs
  · cases hs
  next d hd =>
    split at hs
    next hlt =>
      cases hs
      exact ⟨before, t' ++ [c], values ++ [d], rfl, hplace, hbegins.digit hd hlt,
        (number_snoc 16 values d).symm, by simp⟩
    next hlt => exact stands_unit hplace (hbegins.spells hd hlt) hs

/-- **A step goes on where the text goes on.** -/
theorem stands_of_stepMode (hscan : scanFrom {} text = .ok s) (h : Stands s.mode text)
    (hs : s.stepMode c = .ok t) : Stands t.mode (text ++ [c]) := by
  unfold stepMode at hs
  cases hm : s.mode with
  | bare =>
    rw [hm] at hs
    cases hs
    exact stands_bareStep hscan hm c
  | bareEscape =>
    rw [hm] at hs
    simp only at hs
    split at hs <;> cases hs <;> trivial
  | quoted =>
    rw [hm] at h hs
    cases hs
    exact stands_quotedStep (fun rest => h _) s
  | quotedEscape start =>
    rw [hm] at h hs
    obtain ⟨before, rfl, hbefore⟩ := h
    exact stands_escapeStep hbefore hs
  | octal start value room =>
    rw [hm] at h hs
    exact stands_octalStep h hs
  | unicode start lead value digits =>
    rw [hm] at h hs
    exact stands_unicodeStep hm h hs
  | pairing lead =>
    rw [hm] at h hs
    simp only at hs
    split at hs
    next hc =>
      cases hs
      subst hc
      exact ⟨text, rfl, h⟩
    · cases hs
  | pairingEscape lead start =>
    rw [hm] at h hs
    obtain ⟨before, rfl, hbefore⟩ := h
    simp only at hs
    split at hs
    next hc =>
      cases hs
      subst hc
      exact ⟨before, ['u'], [], by simp, fun rest => hbefore _, ⟨0, [], rfl, .nil, by simp⟩, rfl,
        rfl⟩
    · cases hs

/-! ## A scan -/

/-- **A scan stands where its text breaks off.** -/
theorem stands_of_scanFrom (h : scanFrom {} text = .ok s) : Stands s.mode text :=
  scan_induction (P := fun text s => Stands s.mode text) trivial stands_of_stepMode h

/-- A text that ends inside quotes is scanned to there. -/
theorem scanFrom_inside {rest : List Char} (h : Inside rest text) : ∃ ws w n,
    scanFrom {} (text ++ rest) = scanFrom ⟨ws, some w, .quoted, n⟩ rest := by
  induction h with
  | @opened rest text words parts h =>
    obtain ⟨⟨ws, o, m, n⟩, hf, rfl, -⟩ := @scanFrom_parts [] none 0 parts h.valid h.apart (.inl rfl)
    refine ⟨ws, o.getD [], n + 1, ?_⟩
    rw [List.append_assoc, scanFrom_append, h.text_eq]
    rw [show scanFrom {} (parts.flatMap Part.text) = _ from hf]
    exact scanFrom_bare_quote
  | item h hi ih =>
    obtain ⟨ws, w, n, hscan⟩ := ih
    rw [List.append_assoc, hscan]
    exact ⟨ws, _, _, scanFrom_item hi⟩

/-- A text that ends where the backslash of a Unicode escape stands, and the escape's first `u`. -/
theorem scanFrom_place {place : Option Nat} {rest : List Char}
    (h : Place place ('\\' :: 'u' :: rest) text) : ∃ ws o start lead n,
      lead.map Lead.unit = place ∧ scanFrom {} (text ++ '\\' :: 'u' :: rest) =
        scanFrom ⟨ws, o, .unicode start lead 0 0, n⟩ rest := by
  cases h with
  | first hi =>
    obtain ⟨ws, w, n, hscan⟩ := scanFrom_inside hi
    refine ⟨ws, some w, n, none, n + 2, rfl, ?_⟩
    rw [hscan, scanFrom_quoted_backslash, scanFrom_escape_unicode]
  | @second _ before t high hi hs hh =>
    obtain ⟨ws, w, n, hscan⟩ := scanFrom_inside hi
    obtain ⟨front, c, value, d, rfl, hc, rfl, hspelled⟩ := scanFrom_spelled hs
    rw [List.append_assoc, hscan]
    simp only [List.cons_append, List.append_assoc, List.nil_append]
    rw [scanFrom_quoted_backslash, scanFrom_escape_unicode, hspelled, scanFrom_unit_high hc hh,
      scanFrom_pairing_backslash, scanFrom_pairingEscape_u]
    exact ⟨ws, some w, _, some ⟨n, value * 16 + d⟩, _, rfl, rfl⟩

end CommandConsole.CommandLine.Grammar
