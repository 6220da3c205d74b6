import CommandConsole.Proofs.CommandLine.Composition
import Mathlib.Data.List.Induction

/-!
# Where reports point

A report gives the offset of a backslash that opens an escape, and what stands before that backslash
needs more. While a scan is inside an escape it keeps the offsets that it may report (`Mode.starts`):
that of the escape's own backslash and, in the second half of a surrogate pair, that of the first
half. A step adds no offset but that of a backslash it reads inside quotes, and what it reports is
one of those it keeps.

Results: `starts_of_stepMode`, `start_of_stepMode_error` (one step), `scan_induction` (what every step
keeps), `marks_of_scanFrom` (a scan).
Main statement: `located_of_report`.
-/

namespace CommandConsole.CommandLine

/-- The offsets that may be reported from here. -/
def Mode.starts : Mode → List Nat
  | .bare | .bareEscape | .quoted => []
  | .quotedEscape start | .octal start _ _ => [start]
  | .unicode start lead _ _ => start :: (lead.map Lead.start).toList
  | .pairing lead => [lead.start]
  | .pairingEscape lead start => [start, lead.start]

namespace Scan

variable {s t f : Scan} {c : Char} {k : Nat} {e : Malformed} {cs : List Char}

/-! ## One step -/

theorem starts_bareStep (h : s.mode = .bare) (c : Char) : (s.bareStep c).mode.starts = [] := by
  have hclosed : s.closeWord.mode = .bare := by
    unfold closeWord
    split <;> exact h
  unfold bareStep
  split
  · rfl
  split
  · rfl
  split
  · rw [hclosed]
    rfl
  · rw [show (s.push c).mode = .bare from h]
    rfl

/-- Inside quotes a backslash opens an escape, and nothing else does. -/
theorem starts_quotedStep (hk : k ∈ (s.quotedStep c).mode.starts) : k = s.offset ∧ c = '\\' := by
  unfold quotedStep at hk
  split at hk
  · cases hk
  split at hk
  next hc => exact ⟨List.mem_singleton.mp hk, hc⟩
  · cases hk

theorem starts_escapeStep {start : Nat} (h : s.escapeStep start c = .ok t)
    (hk : k ∈ t.mode.starts) : k = start := by
  unfold escapeStep at h
  split at h
  · cases h
    cases hk
  split at h
  · cases h
    exact List.mem_singleton.mp hk
  split at h <;> cases h
  exact List.mem_singleton.mp hk

/-- A backslash right behind an octal escape opens the next one. -/
theorem starts_octalStep {start value room : Nat} (h : s.octalStep start value room c = .ok t)
    (hk : k ∈ t.mode.starts) : k = start ∨ k = s.offset ∧ c = '\\' := by
  unfold octalStep at h
  split at h
  · cases h
  split at h
  · split at h <;> cases h
    · cases hk
    · exact .inl (List.mem_singleton.mp hk)
  · cases h
    exact .inr (starts_quotedStep (s := s.push (Char.ofNat value)) hk)

section Unicode

variable {start value digits : Nat} {lead : Option Lead}

theorem starts_unit (h : s.unit start lead value = .ok t) (hk : k ∈ t.mode.starts) : k = start := by
  unfold unit at h
  split at h
  · split at h
    · cases h
      exact List.mem_singleton.mp hk
    split at h <;> cases h
    cases hk
  · split at h <;> cases h
    cases hk

theorem start_of_unit_error (h : s.unit start lead value = .error e) :
    e.offset ∈ start :: (lead.map Lead.start).toList := by
  unfold unit at h
  split at h
  · split at h
    · cases h
    split at h <;> cases h
    exact List.mem_cons_self
  · split at h <;> cases h
    exact List.mem_cons_of_mem _ List.mem_cons_self

theorem starts_unicodeStep (hs : s.mode = .unicode start lead value digits)
    (h : s.unicodeStep start lead value digits c = .ok t) (hk : k ∈ t.mode.starts) :
    k ∈ s.mode.starts := by
  unfold unicodeStep at h
  split at h
  · cases h
  split at h
  · cases h
    exact hk
  split at h
  · cases h
  rw [hs]
  split at h
  · cases h
    exact hk
  · rw [starts_unit h hk]
    exact List.mem_cons_self

theorem start_of_unicodeStep_error (h : s.unicodeStep start lead value digits c = .error e) :
    e.offset ∈ (Mode.unicode start lead value digits).starts := by
  unfold unicodeStep at h
  split at h
  · cases h
    exact List.mem_cons_self
  split at h
  · cases h
  split at h
  · cases h
    exact List.mem_cons_self
  split at h
  · cases h
  · exact start_of_unit_error h

end Unicode

/-- **A step adds no offset** but that of a backslash it reads where the text so far needs more. -/
theorem starts_of_stepMode (h : s.stepMode c = .ok t) (hk : k ∈ t.mode.starts) :
    k ∈ s.mode.starts ∨ k = s.offset ∧ c = '\\' ∧ s.mode ≠ .bare := by
  unfold stepMode at h
  cases hm : s.mode with
  | bare =>
    rw [hm] at h
    cases h
    rw [starts_bareStep hm] at hk
    cases hk
  | bareEscape =>
    rw [hm] at h
    simp only at h
    split at h <;> cases h <;> cases hk
  | quoted =>
    rw [hm] at h
    cases h
    obtain ⟨hoffset, hc⟩ := starts_quotedStep hk
    exact .inr ⟨hoffset, hc, nofun⟩
  | quotedEscape start =>
    rw [hm] at h
    exact .inl (List.mem_singleton.mpr (starts_escapeStep h hk))
  | octal start value room =>
    rw [hm] at h
    rcases starts_octalStep h hk with hstart | ⟨hoffset, hc⟩
    · exact .inl (List.mem_singleton.mpr hstart)
    · exact .inr ⟨hoffset, hc, nofun⟩
  | unicode start lead value digits =>
    rw [hm] at h
    rw [← hm]
    exact .inl (starts_unicodeStep hm h hk)
  | pairing lead =>
    rw [hm] at h
    simp only at h
    split at h
    next hc =>
      cases h
      rcases List.mem_cons.mp hk with hoffset | hlead
      · exact .inr ⟨hoffset, hc, nofun⟩
      · exact .inl hlead
    · cases h
  | pairingEscape lead start =>
    rw [hm] at h
    simp only at h
    split at h <;> cases h
    exact .inl hk

/-- **A report gives an offset** that the scan kept. -/
theorem start_of_stepMode_error (h : s.stepMode c = .error e) : e.offset ∈ s.mode.starts := by
  unfold stepMode at h
  cases hm : s.mode with
  | bare | quoted =>
    rw [hm] at h
    cases h
  | bareEscape =>
    rw [hm] at h
    simp only at h
    split at h <;> cases h
  | quotedEscape start =>
    rw [hm] at h
    simp only [escapeStep] at h
    split at h
    · cases h
    split at h
    · cases h
    split at h <;> cases h
    exact List.mem_cons_self
  | octal start value room =>
    rw [hm] at h
    simp only [octalStep] at h
    split at h
    · cases h
      exact List.mem_cons_self
    split at h
    · split at h <;> cases h
    · cases h
  | unicode start lead value digits =>
    rw [hm] at h
    exact start_of_unicodeStep_error h
  | pairing lead =>
    rw [hm] at h
    simp only at h
    split at h <;> cases h
    exact List.mem_cons_self
  | pairingEscape lead start =>
    rw [hm] at h
    simp only at h
    split at h <;> cases h
    exact List.mem_cons_of_mem _ List.mem_cons_self

/-! ## A scan -/

/-- A text has a backslash at an offset, and what stands before it needs more. -/
def Marks (cs : List Char) (k : Nat) : Prop :=
  ∃ before after f, cs = before ++ '\\' :: after ∧ before.length = k ∧
    scanFrom {} before = .ok f ∧ f.mode ≠ .bare

theorem Marks.append (h : Marks cs k) (more : List Char) : Marks (cs ++ more) k := by
  obtain ⟨before, after, f, rfl, hlength, hf, hmode⟩ := h
  exact ⟨before, after ++ more, f, by rw [List.append_assoc, List.cons_append], hlength, hf, hmode⟩

theorem scanFrom_snoc (cs : List Char) (c : Char) :
    scanFrom {} (cs ++ [c]) = (scanFrom {} cs).bind fun s => s.step c := by
  rw [scanFrom_append]
  cases scanFrom {} cs with
  | error e => rfl
  | ok s =>
    simp only [Except.bind, scanFrom]
    cases s.step c <;> rfl

/-- What holds before a text is read and is kept by every step holds after it. -/
theorem scan_induction {P : List Char → Scan → Prop} (nil : P [] {})
    (snoc : ∀ {cs : List Char} {s t : Scan} {c : Char}, scanFrom {} cs = .ok s → P cs s →
      s.stepMode c = .ok t → P (cs ++ [c]) { t with offset := t.offset + 1 })
    (h : scanFrom {} cs = .ok f) : P cs f := by
  induction cs using List.reverseRecOn generalizing f with
  | nil =>
    cases h
    exact nil
  | append_singleton cs c ih =>
    rw [scanFrom_snoc] at h
    cases hcs : scanFrom {} cs with
    | error e =>
      rw [hcs] at h
      cases h
    | ok s =>
      rw [hcs] at h
      simp only [Except.bind, step] at h
      cases hs : s.stepMode c with
      | error e =>
        rw [hs] at h
        cases h
      | ok t =>
        rw [hs] at h
        cases h
        exact snoc hcs (ih hcs) hs

/-- **The offsets that a scan keeps** are of backslashes behind a text that needs more. -/
theorem marks_of_scanFrom (h : scanFrom {} cs = .ok f) : ∀ k ∈ f.mode.starts, Marks cs k := by
  refine scan_induction (P := fun cs f => ∀ k ∈ f.mode.starts, Marks cs k) nofun ?_ h
  intro cs s t c hcs ih hs k hk
  rcases starts_of_stepMode hs hk with hkept | ⟨rfl, rfl, hmode⟩
  · exact (ih k hkept).append [c]
  · refine ⟨cs, [], s, rfl, ?_, hcs, hmode⟩
    rw [offset_of_scanFrom hcs]
    exact (Nat.zero_add _).symm

/-- What a scan reports is at such a backslash. -/
theorem marks_of_error (h : scanFrom {} cs = .error e) : Marks cs e.offset := by
  induction cs using List.reverseRecOn with
  | nil => cases h
  | append_singleton cs c ih =>
    rw [scanFrom_snoc] at h
    cases hcs : scanFrom {} cs with
    | error e' =>
      rw [hcs] at h
      cases h
      exact (ih hcs).append [c]
    | ok s =>
      rw [hcs] at h
      simp only [Except.bind, step] at h
      cases hs : s.stepMode c with
      | ok t =>
        rw [hs] at h
        cases h
      | error e' =>
        rw [hs] at h
        cases h
        exact (marks_of_scanFrom hcs _ (start_of_stepMode_error hs)).append [c]

end Scan

/-! ## Main statement -/

/-- **Reports are located and final.** A report on a text gives the offset of a backslash in it; what
stands before that backslash needs more, and any text behind the whole leaves the report as it is.
So no front of a text that is complete or needs more is malformed. -/
theorem located_of_report (s : String) :
    (∀ e, read s = .error e → e.offset < s.length ∧
      (∃ before after, s = before ++ "\\" ++ after ∧ before.length = e.offset ∧
        read before = .ok .needsMore) ∧
      ∀ t, read (s ++ t) = .error e) ∧
    ∀ front back answer, s = front ++ back → read s = .ok answer → ∀ e, read front ≠ .error e := by
  constructor
  · intro e h
    obtain ⟨before, after, f, hcs, hlength, hf, hmode⟩ :=
      Scan.marks_of_error (read_eq_error_iff.mp h)
    have hs : s = String.ofList before ++ "\\" ++ String.ofList after := by
      apply String.toList_injective
      rw [hcs]
      simp
    have hbefore : (String.ofList before).length = e.offset := by rw [← hlength]; simp
    refine ⟨?_, ⟨_, _, hs, hbefore, ?_⟩, read_append_error h⟩
    · rw [← String.length_toList, hcs, List.length_append, List.length_cons, hlength]
      omega
    · refine read_eq_ok_iff.mpr ⟨f, ?_, Scan.outcome_eq_needsMore_iff.mpr hmode⟩
      rw [String.toList_ofList]
      exact hf
  · rintro front back answer rfl hok e herror
    rw [read_append_error herror] at hok
    cases hok

/-- A pair whose second half has a bad digit. -/
def badHalf : String :=
  "a \"\\ud83d\\ude0g\" b"

/-- The report gives the backslash of that half. -/
theorem located_badHalf : read badHalf = .error ⟨9, "invalid Unicode escape"⟩ ∧
    9 < badHalf.length ∧
    (∃ before after, badHalf = before ++ "\\" ++ after ∧ before.length = 9 ∧
      read before = .ok .needsMore) ∧
    ∀ t, read (badHalf ++ t) = .error ⟨9, "invalid Unicode escape"⟩ := by
  have hreport : read badHalf = .error ⟨9, "invalid Unicode escape"⟩ := by rfl
  exact ⟨hreport, (located_of_report badHalf).1 _ hreport⟩

end CommandConsole.CommandLine
