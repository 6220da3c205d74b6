import CommandConsole.Proofs.CommandLine.Transitions

/-!
# Command lines one after the other

Where a complete command line ends and a newline follows, a scan stands as at the beginning, except
that it has words already and counts its characters from further on. Neither changes what it does
with the rest: its words come after the ones before, and what it reports lies further right.

Results: `scanFrom_behind` (a scan behind other text), `read_append_error` (a report is final),
`read_complete_newline` (a complete text and a newline in front of any text).
-/

namespace CommandConsole.CommandLine

/-- A report on a text that stands `k` characters further right. -/
def Malformed.behind (k : Nat) (e : Malformed) : Malformed :=
  ⟨k + e.offset, e.message⟩

/-- What a text stands for behind a complete one with the words `before`. -/
def Outcome.behind (before : List String) : Outcome → Outcome
  | complete words => complete (before ++ words)
  | needsMore => needsMore

/-- An answer about a text that stands `k` characters further right. -/
def answerBehind {α : Type} (k : Nat) (f : α → α) : Except Malformed α → Except Malformed α
  | .ok a => .ok (f a)
  | .error e => .error (e.behind k)

@[simp] theorem EscapeFault.at_behind (fault : EscapeFault) (k start : Nat) :
    (fault.at start).behind k = fault.at (k + start) := rfl

namespace Scan

/-- A lead that started `k` characters further right. -/
def leadBehind (k : Nat) (p : Lead) : Lead :=
  ⟨k + p.start, p.unit⟩

/-- A mode whose escape started `k` characters further right. -/
def modeBehind (k : Nat) : Mode → Mode
  | .bare => .bare
  | .bareEscape => .bareEscape
  | .quoted => .quoted
  | .quotedEscape start => .quotedEscape (k + start)
  | .octal start value room => .octal (k + start) value room
  | .unicode start lead value digits => .unicode (k + start) (lead.map (leadBehind k)) value digits
  | .pairing p => .pairing (leadBehind k p)
  | .pairingEscape p start => .pairingEscape (leadBehind k p) (k + start)

/-- The scan behind `k` characters whose finished words, last first, are `before`. -/
def behind (before : List String) (k : Nat) (s : Scan) : Scan :=
  ⟨s.words ++ before, s.word, modeBehind k s.mode, k + s.offset⟩

variable {before : List String} {k : Nat}

theorem stepMode_behind (s : Scan) (c : Char) :
    (s.behind before k).stepMode c = answerBehind k (behind before k) (s.stepMode c) := by
  obtain ⟨ws, o, m, n⟩ := s
  cases m with
  | bare =>
    simp only [behind, modeBehind, stepMode, bareStep]
    split
    · rfl
    split
    · rfl
    split
    · cases o <;> rfl
    · rfl
  | bareEscape =>
    simp only [behind, modeBehind, stepMode]
    split
    · cases o <;> rfl
    · rfl
  | quoted =>
    simp only [behind, modeBehind, stepMode, quotedStep]
    split
    · rfl
    split <;> rfl
  | quotedEscape start =>
    simp only [behind, modeBehind, stepMode, escapeStep]
    split
    · rfl
    split
    · rfl
    split <;> rfl
  | octal start value room =>
    simp only [behind, modeBehind, stepMode, octalStep, quotedStep]
    split
    · rfl
    split
    · split <;> rfl
    split <;> rfl
  | unicode start lead value digits =>
    simp only [behind, modeBehind, stepMode, unicodeStep, unit]
    split
    · rfl
    split
    · rfl
    split
    · rfl
    split
    · rfl
    cases lead with
    | none =>
      simp only [Option.map_none]
      split
      · rfl
      split <;> rfl
    | some p =>
      simp only [Option.map_some]
      split <;> rfl
  | pairing p =>
    simp only [behind, modeBehind, stepMode]
    split <;> rfl
  | pairingEscape p start =>
    simp only [behind, modeBehind, stepMode]
    split <;> rfl

theorem step_behind (s : Scan) (c : Char) :
    (s.behind before k).step c = answerBehind k (behind before k) (s.step c) := by
  unfold step
  rw [stepMode_behind]
  cases s.stepMode c <;> rfl

/-- **A scan behind other text** does what it does at the beginning. -/
theorem scanFrom_behind (s : Scan) (cs : List Char) :
    (s.behind before k).scanFrom cs = answerBehind k (behind before k) (s.scanFrom cs) := by
  induction cs generalizing s with
  | nil => rfl
  | cons c cs ih =>
    unfold scanFrom
    rw [step_behind]
    cases s.step c with
    | error e => rfl
    | ok t => exact ih t

theorem outcome_behind (s : Scan) :
    (s.behind before k).outcome = s.outcome.behind before.reverse := by
  obtain ⟨ws, o, m, n⟩ := s
  cases m <;> cases o <;> simp [behind, modeBehind, outcome, closeWord, Outcome.behind]

theorem closeWord_offset (s : Scan) : s.closeWord.offset = s.offset := by
  unfold closeWord
  split <;> rfl

theorem bareStep_offset (s : Scan) (c : Char) : (s.bareStep c).offset = s.offset := by
  unfold bareStep
  split
  · rfl
  split
  · rfl
  split
  · exact closeWord_offset s
  · rfl

theorem quotedStep_offset (s : Scan) (c : Char) : (s.quotedStep c).offset = s.offset := by
  unfold quotedStep
  split
  · rfl
  split <;> rfl

theorem unit_offset {s t : Scan} {start value : Nat} {lead : Option Lead}
    (h : s.unit start lead value = .ok t) : t.offset = s.offset := by
  cases lead with
  | none =>
    simp only [unit] at h
    split at h
    · cases h; rfl
    split at h <;> cases h
    rfl
  | some p =>
    simp only [unit] at h
    split at h <;> cases h
    rfl

/-- Only `step` itself counts. -/
theorem stepMode_offset {s t : Scan} {c : Char} (h : s.stepMode c = .ok t) :
    t.offset = s.offset := by
  unfold stepMode at h
  split at h
  · cases h
    exact bareStep_offset s c
  · split at h <;> cases h
    · exact closeWord_offset s
    · rfl
  · cases h
    exact quotedStep_offset s c
  · unfold escapeStep at h
    split at h
    · cases h; rfl
    split at h
    · cases h; rfl
    split at h <;> cases h
    rfl
  · unfold octalStep at h
    split at h
    · cases h
    split at h
    · split at h <;> cases h <;> rfl
    · cases h
      exact quotedStep_offset _ c
  · unfold unicodeStep at h
    split at h
    · cases h
    split at h
    · cases h; rfl
    split at h
    · cases h
    split at h
    · cases h; rfl
    · exact unit_offset h
  · split at h <;> cases h
    rfl
  · split at h <;> cases h
    rfl

/-- A scan counts the characters that it reads. -/
theorem offset_of_scanFrom {s f : Scan} {cs : List Char} (h : s.scanFrom cs = .ok f) :
    f.offset = s.offset + cs.length := by
  induction cs generalizing s with
  | nil =>
    cases h
    rfl
  | cons c cs ih =>
    cases hs : s.stepMode c with
    | error e => rw [scanFrom_cons_error hs] at h; cases h
    | ok t =>
      rw [scanFrom_cons_ok hs] at h
      calc f.offset = t.offset + 1 + cs.length := ih h
        _ = s.offset + (c :: cs).length := by rw [stepMode_offset hs, List.length_cons]; omega

end Scan

/-! ## Reading a text in two parts -/

/-- A report is final: more text does not change it. -/
theorem read_append_error {s : String} {e : Malformed} (h : read s = .error e) (t : String) :
    read (s ++ t) = .error e := by
  rw [read_eq_error_iff] at h ⊢
  rw [String.toList_append, Scan.scanFrom_append, h]
  rfl

/-- An empty text is a command line without words. -/
theorem read_empty : read "" = .ok (.complete []) := rfl

/-- **A complete text and a newline** in front of any text: the words of the front come first, and
reports lie further right. -/
theorem read_complete_newline {s : String} {ws : List String} (h : read s = .ok (.complete ws))
    (t : String) :
    read (s ++ "\n" ++ t) = answerBehind (s.length + 1) (Outcome.behind ws) (read t) := by
  obtain ⟨f, hf, ho⟩ := read_eq_ok_iff.mp h
  obtain ⟨hm, hws⟩ := Scan.outcome_eq_complete_iff.mp ho
  have hoff : f.offset = s.length := by
    rw [Scan.offset_of_scanFrom hf, String.length_toList]
    exact Nat.zero_add _
  obtain ⟨words, word, mode, n⟩ := f
  obtain rfl : mode = .bare := hm
  obtain rfl : n = s.length := hoff
  have hstart : (⟨Scan.ended words word, none, .bare, s.length + 1⟩ : Scan) =
      Scan.behind (Scan.ended words word) (s.length + 1) {} := rfl
  have hscan : Scan.scanFrom {} (s ++ "\n" ++ t).toList =
      answerBehind (s.length + 1) (Scan.behind (Scan.ended words word) (s.length + 1))
        (Scan.scanFrom {} t.toList) := by
    rw [String.append_assoc, String.toList_append, Scan.scanFrom_append, hf, String.toList_append]
    rw [← Scan.scanFrom_behind, ← hstart]
    exact Scan.scanFrom_bare_blank (by decide)
  unfold read
  rw [hscan]
  cases Scan.scanFrom {} t.toList with
  | error e => rfl
  | ok g =>
    rw [hws]
    exact congrArg Except.ok (Scan.outcome_behind g)

end CommandConsole.CommandLine
