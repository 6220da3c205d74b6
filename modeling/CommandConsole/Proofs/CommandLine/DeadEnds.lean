import CommandConsole.Proofs.CommandLine.Standing
import CommandConsole.Proofs.Text.Utf16

/-!
# Which unfinished texts can be finished

A text that needs more can be completed, unless it breaks off in a Unicode escape whose digits
already rule out every unit that may stand there. Such a `DeadEnd` is said of the text; where a scan
stands it is `Mode.Doomed`, which every further character keeps or refuses. From any other mode a few
characters lead out of the quotes.

Results: `doomed_of_scanFrom` (a doomed scan never ends outside quotes), `exists_completion` (any
other does, with some text behind it), `deadEnd_iff_doomed` (dead ends are where scans are doomed).
Main statement: `completable_of_needsMore`.
-/

namespace CommandConsole.CommandLine

open CommandConsole.Text

namespace Grammar

/-- A unit that four digits may spell which begin with these. -/
def Extends (values : List Nat) (unit : Nat) : Prop :=
  ∃ more, (∀ d ∈ more, d < 16) ∧ (values ++ more).length = 4 ∧
    unit = Digit.number 16 (values ++ more)

/-- A unit that may stand at a place: any that is not the second of a pair, and behind a high
surrogate only such. -/
def Legal : Option Nat → Nat → Prop
  | none, unit => Utf16.isLow unit = false
  | some _, unit => Utf16.isLow unit = true

/-- **A dead end**: a text that breaks off in a Unicode escape whose digits so far exclude every
legal unit. -/
def DeadEnd (text : List Char) : Prop :=
  ∃ place before t values, text = before ++ '\\' :: t ∧ Place place ('\\' :: t) before ∧
    Begins t values ∧ ∀ unit, Extends values unit → ¬Legal place unit

end Grammar

open Grammar

/-- No digits that may follow in the escape spell a legal unit. -/
def Mode.Doomed : Mode → Prop
  | .unicode _ lead value digits => digits < 4 ∧
      ∀ more : List Nat, (∀ d ∈ more, d < 16) → digits + more.length = 4 →
        ¬Legal (lead.map Lead.unit) (more.foldl (fun v d => v * 16 + d) value)
  | _ => False

namespace Scan

variable {s t f : Scan} {c : Char} {text : List Char} {start value digits unit : Nat}
  {lead : Option Lead}

/-! ## Doomed scans -/

/-- A unit that is not legal is refused. -/
theorem unit_of_not_legal (h : ¬Legal (lead.map Lead.unit) unit) (t : Scan) :
    s.unit start lead unit ≠ .ok t := by
  unfold Scan.unit
  cases lead with
  | none =>
    have hl : Utf16.isLow unit = true := by simpa [Legal] using h
    have hh : Utf16.isHigh unit ≠ true := fun hh => by simp [Utf16.not_isLow_of_isHigh hh] at hl
    simp [hh, hl]
  | some p =>
    have hl : Utf16.isLow unit = false := by simpa [Legal] using h
    simp [hl]

theorem doomed_of_stepMode (h : s.mode.Doomed) (hs : s.stepMode c = .ok t) : t.mode.Doomed := by
  unfold stepMode at hs
  cases hm : s.mode with
  | unicode start lead value digits =>
    rw [hm] at h hs
    obtain ⟨hlt, hillegal⟩ := h
    simp only [unicodeStep] at hs
    split at hs
    · cases hs
    split at hs
    · cases hs
      rw [hm]
      exact ⟨hlt, hillegal⟩
    split at hs
    · cases hs
    next d hd =>
      have hd16 := ofHex?_lt hd
      split at hs
      next hlt3 =>
        cases hs
        refine ⟨by omega, fun more hmore hlength => ?_⟩
        refine hillegal (d :: more) (List.forall_mem_cons.mpr ⟨hd16, hmore⟩) ?_
        rw [List.length_cons]
        omega
      next hlt3 =>
        refine absurd hs (unit_of_not_legal (hillegal [d] ?_ ?_) t)
        · exact List.forall_mem_singleton.mpr hd16
        · rw [List.length_singleton]
          omega
  | _ =>
    rw [hm] at h
    exact h.elim

/-- **A doomed scan** stays doomed, whatever it still reads. -/
theorem doomed_of_scanFrom (h : s.mode.Doomed) (hf : s.scanFrom text = .ok f) : f.mode.Doomed := by
  induction text generalizing s with
  | nil =>
    cases hf
    exact h
  | cons c text ih =>
    cases hs : s.stepMode c with
    | error e =>
      rw [scanFrom_cons_error hs] at hf
      cases hf
    | ok t =>
      rw [scanFrom_cons_ok hs] at hf
      have hdoomed : t.mode.Doomed := doomed_of_stepMode h hs
      exact ih (s := { t with offset := t.offset + 1 }) hdoomed hf

/-! ## The way out of the quotes -/

/-- Some text leads a scan to another. -/
def Reaches (s t : Scan) : Prop :=
  ∃ text, s.scanFrom text = .ok t

/-- A step and what it leads to, the offset apart. -/
theorem Reaches.step (hs : s.stepMode c = .ok t)
    (h : Reaches { t with offset := t.offset + 1 } f) : Reaches s f := by
  obtain ⟨text, htext⟩ := h
  exact ⟨c :: text, (scanFrom_cons_ok hs).trans htext⟩

theorem Reaches.trans (h : Reaches s t) (h' : Reaches t f) : Reaches s f := by
  obtain ⟨front, hfront⟩ := h
  obtain ⟨back, hback⟩ := h'
  refine ⟨front ++ back, ?_⟩
  rw [scanFrom_append, hfront]
  exact hback

/-- A scan that some text leads out of the quotes. -/
def Completable (s : Scan) : Prop :=
  ∃ f, s.Reaches f ∧ f.mode = .bare

theorem completable_of_bare (h : s.mode = .bare) : s.Completable :=
  ⟨s, ⟨[], rfl⟩, h⟩

theorem Completable.of_reaches (h : s.Reaches t) (ht : t.Completable) : s.Completable := by
  obtain ⟨f, hf, hm⟩ := ht
  exact ⟨f, h.trans hf, hm⟩

theorem Completable.of_step (hs : s.stepMode c = .ok t)
    (h : Completable { t with offset := t.offset + 1 }) : s.Completable := by
  obtain ⟨f, hf, hm⟩ := h
  exact ⟨f, hf.step hs, hm⟩

theorem stepMode_of_mode {m : Mode} (h : s.mode = m) (c : Char) :
    s.stepMode c = stepMode { s with mode := m } c := by
  rw [← h]

/-- A quote closes a region. -/
theorem completable_of_quoted (h : s.mode = .quoted) : s.Completable := by
  have hs : s.stepMode '"' = .ok (s.goto .bare) := stepMode_of_mode h '"'
  exact .of_step hs (completable_of_bare rfl)

theorem ofHex?_digitChar {d : Nat} (h : d < 16) : Digit.ofHex? (Nat.digitChar d) = some d := by
  revert d
  decide

/-- Any digit may follow in an escape. -/
theorem stepMode_unicode_digit (hm : s.mode = .unicode start lead value digits) {d : Nat}
    (hd : d < 16) : s.stepMode (Nat.digitChar d) =
      if digits < 3 then .ok (s.goto (.unicode start lead (value * 16 + d) (digits + 1)))
      else s.unit start lead (value * 16 + d) := by
  have hhex := ofHex?_digitChar hd
  unfold stepMode
  rw [hm]
  simp [unicodeStep, ne_quote_of_ofHex? hhex, ne_u_of_ofHex? hhex, hhex]

/-- A legal unit is either added or waits for its partner. -/
theorem unit_of_legal (h : Legal (lead.map Lead.unit) unit) (s : Scan) (start : Nat) :
    ∃ t, s.unit start lead unit = .ok t ∧
      (t.mode = .quoted ∨ lead = none ∧ ∃ p, t.mode = .pairing p) := by
  unfold Scan.unit
  cases lead with
  | none =>
    have hl : Utf16.isLow unit = false := h
    simp only [hl]
    split
    · exact ⟨_, rfl, .inr ⟨trivial, _, rfl⟩⟩
    · exact ⟨_, rfl, .inl rfl⟩
  | some p =>
    have hl : Utf16.isLow unit = true := h
    simp only [hl]
    exact ⟨_, rfl, .inl rfl⟩

/-- Digits that spell a legal unit lead to where it is known. -/
theorem exists_reaches_unit {more : List Nat} (hm : s.mode = .unicode start lead value digits)
    (hmore : ∀ d ∈ more, d < 16) (hlength : digits + more.length = 4) (hne : more ≠ [])
    (hlegal : Legal (lead.map Lead.unit) (more.foldl (fun v d => v * 16 + d) value)) :
    ∃ t, s.Reaches t ∧ (t.mode = .quoted ∨ lead = none ∧ ∃ p, t.mode = .pairing p) := by
  induction more generalizing s value digits with
  | nil => exact absurd rfl hne
  | cons d more ih =>
    obtain ⟨hd, hmore⟩ := List.forall_mem_cons.mp hmore
    have hstep := stepMode_unicode_digit hm hd
    rw [List.length_cons] at hlength
    by_cases hlt : digits < 3
    · rw [if_pos hlt] at hstep
      have hnext : more ≠ [] := by
        rintro rfl
        rw [List.length_nil] at hlength
        omega
      obtain ⟨t, ht, hmode⟩ := ih (s := { s.goto (.unicode start lead (value * 16 + d) (digits + 1))
        with offset := s.offset + 1 }) rfl hmore (by omega) hnext hlegal
      exact ⟨t, ht.step hstep, hmode⟩
    · rw [if_neg hlt] at hstep
      obtain rfl : more = [] := List.length_eq_zero_iff.mp (by omega)
      obtain ⟨t, ht, hmode⟩ := unit_of_legal hlegal s start
      exact ⟨{ t with offset := t.offset + 1 }, .step (hstep.trans ht) ⟨[], rfl⟩, hmode⟩

/-- The second unit of a pair can be spelled. -/
theorem completable_of_pairingEscape {p : Lead} (h : s.mode = .pairingEscape p start) :
    s.Completable := by
  have hs : s.stepMode 'u' = .ok (s.goto (.unicode start (some p) 0 0)) := stepMode_of_mode h 'u'
  have hdigits : ∀ d ∈ [0xd, 0xc, 0, 0], d < 16 := by decide
  have hlow : Utf16.isLow 0xdc00 = true := by decide
  obtain ⟨t, ht, hmode⟩ := exists_reaches_unit
    (s := { s.goto (.unicode start (some p) 0 0) with offset := s.offset + 1 }) rfl hdigits rfl
    (by decide) hlow
  refine .of_step hs (.of_reaches ht (completable_of_quoted ?_))
  exact hmode.resolve_right fun hpairing => by cases hpairing.1

theorem completable_of_pairing {p : Lead} (h : s.mode = .pairing p) : s.Completable := by
  have hs : s.stepMode '\\' = .ok (s.goto (.pairingEscape p s.offset)) := stepMode_of_mode h '\\'
  exact .of_step hs (completable_of_pairingEscape rfl)

theorem completable_of_unicode (hm : s.mode = .unicode start lead value digits)
    (hlt : digits < 4) (h : ¬s.mode.Doomed) : s.Completable := by
  rw [hm] at h
  simp only [Mode.Doomed, hlt, true_and, not_forall, not_not] at h
  obtain ⟨more, hmore, hlength, hlegal⟩ := h
  have hne : more ≠ [] := by
    rintro rfl
    rw [List.length_nil] at hlength
    omega
  obtain ⟨t, ht, hquoted | ⟨-, p, hpairing⟩⟩ := exists_reaches_unit hm hmore hlength hne hlegal
  · exact .of_reaches ht (completable_of_quoted hquoted)
  · exact .of_reaches ht (completable_of_pairing hpairing)

/-- **A scan that is not doomed** can be led out of the quotes. -/
theorem exists_completion (hscan : scanFrom {} text = .ok s) (h : ¬s.mode.Doomed) :
    s.Completable := by
  cases hm : s.mode with
  | bare => exact completable_of_bare hm
  | bareEscape =>
    have hs : s.stepMode 'x' = .ok ((s.push 'x').goto .bare) := stepMode_of_mode hm 'x'
    exact .of_step hs (completable_of_bare rfl)
  | quoted => exact completable_of_quoted hm
  | quotedEscape start =>
    have hs : s.stepMode 'n' = .ok ((s.push '\n').goto .quoted) := stepMode_of_mode hm 'n'
    exact .of_step hs (completable_of_quoted rfl)
  | octal start value room =>
    -- a blank ends the octal escape and is an item of its own
    have hs : s.stepMode ' ' = .ok ((s.push (Char.ofNat value)).quotedStep ' ') :=
      stepMode_of_mode hm ' '
    exact .of_step hs (completable_of_quoted rfl)
  | unicode start lead value digits =>
    have hstands := stands_of_scanFrom hscan
    rw [hm] at hstands
    obtain ⟨before, t, values, -, -, hbegins, -, rfl⟩ := hstands
    exact completable_of_unicode hm hbegins.length_lt h
  | pairing p => exact completable_of_pairing hm
  | pairingEscape p start => exact completable_of_pairingEscape hm

/-! ## Dead ends -/

theorem foldl_number (values more : List Nat) :
    more.foldl (fun v d => v * 16 + d) (Digit.number 16 values) =
      Digit.number 16 (values ++ more) := by
  rw [Digit.number, Digit.number, List.foldl_append]

theorem scanFrom_digits {ws : List String} {o : Option (List Char)} {n : Nat} {values : List Nat}
    (h : Digits 16 text values) (hlt : digits + values.length < 4) :
    scanFrom ⟨ws, o, .unicode start lead value digits, n⟩ text =
      .ok ⟨ws, o, .unicode start lead (values.foldl (fun v d => v * 16 + d) value)
        (digits + values.length), n + text.length⟩ := by
  induction h generalizing value digits n with
  | nil => rfl
  | @cons c d text values hd htext ih =>
    rw [List.length_cons] at hlt
    rw [scanFrom_unicode_digit (Digit.value?_eq_some_iff.mp hd).1 (by omega), ih (by omega)]
    simp only [List.foldl_cons, List.length_cons, Nat.add_assoc, Nat.add_comm 1]

theorem doomed_iff {values : List Nat} (hlt : values.length < 4) :
    (Mode.unicode start lead (Digit.number 16 values) values.length).Doomed ↔
      ∀ unit, Extends values unit → ¬Legal (lead.map Lead.unit) unit := by
  constructor
  · rintro ⟨-, h⟩ unit ⟨more, hmore, hlength, rfl⟩ hlegal
    rw [List.length_append] at hlength
    refine h more hmore hlength ?_
    rwa [foldl_number]
  · refine fun h => ⟨hlt, fun more hmore hlength hlegal => ?_⟩
    rw [foldl_number] at hlegal
    exact h _ ⟨more, hmore, by rwa [List.length_append], rfl⟩ hlegal

/-- **Dead ends are where scans are doomed.** -/
theorem deadEnd_iff_doomed (hscan : scanFrom {} text = .ok s) :
    DeadEnd text ↔ s.mode.Doomed := by
  constructor
  · rintro ⟨place, before, t, values, rfl, hplace, ⟨more, digits, rfl, hdigits, hlt⟩, hillegal⟩
    obtain ⟨ws, o, start, lead, n, rfl, hfront⟩ := scanFrom_place hplace
    rw [hfront, scanFrom_us, scanFrom_digits hdigits (by omega)] at hscan
    cases hscan
    rw [Nat.zero_add]
    exact (doomed_iff hlt).mpr hillegal
  · intro h
    have hstands := stands_of_scanFrom hscan
    cases hm : s.mode with
    | unicode start lead value digits =>
      rw [hm] at h hstands
      obtain ⟨before, t, values, rfl, hplace, hbegins, rfl, rfl⟩ := hstands
      exact ⟨_, before, t, values, rfl, hplace t, hbegins, (doomed_iff hbegins.length_lt).mp h⟩
    | _ =>
      rw [hm] at h
      exact h.elim

end Scan

/-! ## Main statement -/

theorem read_append_eq_complete_iff {s : String} {f : Scan} (hf : Scan.scanFrom {} s.toList = .ok f) :
    (∃ t ws, read (s ++ t) = .ok (.complete ws)) ↔ f.Completable := by
  have happend (t : String) : Scan.scanFrom {} (s ++ t).toList = f.scanFrom t.toList := by
    rw [String.toList_append, Scan.scanFrom_append, hf]
    rfl
  constructor
  · rintro ⟨t, ws, ht⟩
    obtain ⟨g, hg, ho⟩ := read_eq_ok_iff.mp ht
    rw [happend] at hg
    exact ⟨g, ⟨_, hg⟩, (Scan.outcome_eq_complete_iff.mp ho).1⟩
  · rintro ⟨g, ⟨t, ht⟩, hm⟩
    refine ⟨String.ofList t, _, read_eq_ok_iff.mpr ⟨g, ?_, Scan.outcome_eq_complete_iff.mpr ⟨hm, rfl⟩⟩⟩
    rw [happend, String.toList_ofList]
    exact ht

/-- **Needing more means completable**, dead ends apart. A text that needs more can be continued to a
complete one iff it is no dead end, and it is a dead end iff whatever follows it leaves a text that
needs more or is malformed. -/
theorem completable_of_needsMore (s : String) (h : read s = .ok .needsMore) :
    ((∃ t ws, read (s ++ t) = .ok (.complete ws)) ↔ ¬DeadEnd s.toList) ∧
    (DeadEnd s.toList ↔ ∀ t, read (s ++ t) = .ok .needsMore ∨ ∃ e, read (s ++ t) = .error e) := by
  obtain ⟨f, hf, -⟩ := read_eq_ok_iff.mp h
  have hcompletable : (∃ t ws, read (s ++ t) = .ok (.complete ws)) ↔ ¬DeadEnd s.toList := by
    rw [read_append_eq_complete_iff hf, Scan.deadEnd_iff_doomed hf]
    refine ⟨fun ⟨g, ⟨t, ht⟩, hm⟩ hdoomed => ?_, Scan.exists_completion hf⟩
    have hg := Scan.doomed_of_scanFrom hdoomed ht
    rw [hm] at hg
    exact hg.elim
  refine ⟨hcompletable, ?_⟩
  rw [← not_iff_not, ← hcompletable]
  constructor
  · rintro ⟨t, ws, ht⟩ hall
    rcases hall t with hmore | ⟨e, he⟩
    · cases hmore.symm.trans ht
    · cases he.symm.trans ht
  · intro hnot
    obtain ⟨t, ht⟩ := not_forall.mp hnot
    cases hread : read (s ++ t) with
    | error e => exact absurd (.inr ⟨e, hread⟩) ht
    | ok answer =>
      cases answer with
      | complete ws => exact ⟨t, ws, hread⟩
      | needsMore => exact absurd (.inl hread) ht

/-- A text that breaks off behind `\udc`. -/
def lowHalf : String :=
  "a \"\\udc"

/-- Every unit that begins so is the second of a pair, so nothing completes it. -/
theorem completable_lowHalf : read lowHalf = .ok .needsMore ∧ DeadEnd lowHalf.toList ∧
    ∀ t, read (lowHalf ++ t) = .ok .needsMore ∨ ∃ e, read (lowHalf ++ t) = .error e := by
  have hneeds : read lowHalf = .ok .needsMore := by rfl
  have hdoomed : (Mode.unicode 3 none 0xdc 2).Doomed := by
    refine ⟨by decide, fun more hmore hlength => ?_⟩
    obtain ⟨a, b, rfl⟩ := List.length_eq_two.mp (by omega : more.length = 2)
    simp only [List.mem_cons, List.not_mem_nil, or_false, forall_eq_or_imp, forall_eq] at hmore
    simp [Legal, Utf16.isLow]
    omega
  have hdead : DeadEnd lowHalf.toList := by
    refine (Scan.deadEnd_iff_doomed (s := ⟨["a"], some [], .unicode 3 none 0xdc 2, 7⟩) ?_).mpr hdoomed
    rfl
  exact ⟨hneeds, hdead, (completable_of_needsMore lowHalf hneeds).2.mp hdead⟩

end CommandConsole.CommandLine
