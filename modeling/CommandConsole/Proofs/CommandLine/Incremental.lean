import CommandConsole.Proofs.CommandLine.Composition
import CommandConsole.Proofs.CommandLine.Protocol

/-!
# Line by line or all at once

The continuation protocol on some lines comes to what the default reader answers for the lines
joined by newlines. A complete step cuts the joined text where the reader could start afresh
(`read_complete_newline`), a report is final (`read_append_error`), and a step that needs more hands
its whole buffer on, which is never empty.

The induction is on the lines, for any buffer that is empty or needs more (`amounts_read`).

Main statement: `read_intercalate_iff`.
-/

namespace CommandConsole.CommandLine

variable {buffer line : String} {lines : List String}

/-- The text that a buffer and the lines after it come to. -/
def gathered (buffer : String) : List String → String
  | [] => buffer
  | line :: lines => "\n".intercalate (extendBuffer buffer line :: lines)

/-- No step was refused. -/
def Accepted (answers : List (Except Malformed Outcome)) : Prop :=
  ∀ e, .error e ∉ answers

/-- Of the steps on some lines the first refused one reports `fault`, and its buffer begins behind
`start` characters of all that was gathered. -/
def FirstFault (reader : Reader) (buffer : String) (lines : List String) (start : Nat)
    (fault : Malformed) : Prop :=
  ∃ before line after front, lines = before ++ line :: after ∧
    Accepted (answersFrom reader buffer before) ∧
    (continueWith reader (keptFrom reader buffer before) line).1 = .error fault ∧
    gathered buffer (before ++ [line]) =
      front ++ extendBuffer (keptFrom reader buffer before) line ∧
    start = front.length

/-- What the steps on some lines come to as one answer. -/
inductive Amounts (reader : Reader) (buffer : String) (lines : List String) :
    Except Malformed Outcome → Prop
  | complete (h : Accepted (answersFrom reader buffer lines))
      (hk : keptFrom reader buffer lines = "") :
      Amounts reader buffer lines
        (.ok (.complete ((answersFrom reader buffer lines).flatMap wordsOf)))
  | needsMore (h : Accepted (answersFrom reader buffer lines))
      (hk : keptFrom reader buffer lines ≠ "") : Amounts reader buffer lines (.ok .needsMore)
  | fault {start : Nat} {fault : Malformed} (h : FirstFault reader buffer lines start fault) :
      Amounts reader buffer lines (.error (fault.behind start))

/-! ## The gathered text -/

theorem gathered_empty (lines : List String) : gathered "" lines = "\n".intercalate lines := by
  cases lines with
  | nil => exact String.intercalate_nil.symm
  | cons line lines => rfl

theorem gathered_singleton : gathered buffer [line] = extendBuffer buffer line := by
  simp only [gathered, String.intercalate_singleton]

/-- A buffer that is kept whole is extended by the next line. -/
theorem gathered_cons (h : extendBuffer buffer line ≠ "") (lines : List String) :
    gathered buffer (line :: lines) = gathered (extendBuffer buffer line) lines := by
  cases lines with
  | nil => exact gathered_singleton
  | cons next lines =>
    simp only [gathered]
    rw [String.intercalate_cons_cons, extendBuffer_of_ne h, String.intercalate_cons_append]

/-- A buffer that is emptied stays in front of what is gathered afresh. -/
theorem gathered_cons_of_ne_nil (h : lines ≠ []) : gathered buffer (line :: lines) =
    extendBuffer buffer line ++ "\n" ++ gathered "" lines := by
  rw [gathered_empty]
  exact String.intercalate_cons_of_ne_nil h

theorem exists_gathered_cons (buffer line : String) (lines : List String) :
    ∃ more, gathered buffer (line :: lines) = extendBuffer buffer line ++ more := by
  by_cases h : lines = []
  · exact ⟨"", by rw [h, gathered_singleton, String.append_empty]⟩
  · exact ⟨"\n" ++ gathered "" lines, by rw [gathered_cons_of_ne_nil h, String.append_assoc]⟩

/-! ## The first refused step -/

theorem accepted_iff {as : List (Except Malformed Outcome)} :
    Accepted as ↔ ¬∃ e, .error e ∈ as :=
  not_exists.symm

theorem Accepted.cons {a : Except Malformed Outcome} {as : List (Except Malformed Outcome)}
    (ha : ∀ e, a ≠ .error e) (h : Accepted as) : Accepted (a :: as) := by
  intro e he
  rcases List.mem_cons.mp he with rfl | he
  · exact ha e rfl
  · exact h e he

namespace FirstFault

variable {reader : Reader} {start : Nat} {fault : Malformed}

theorem here (h : reader (extendBuffer buffer line) = .error fault) (lines : List String) :
    FirstFault reader buffer (line :: lines) 0 fault :=
  ⟨[], line, lines, "", rfl, fun _ => List.not_mem_nil, continueWith_fst.trans h,
    gathered_singleton, rfl⟩

/-- Behind a step that needs more the buffer begins where it began. -/
theorem needsMore (h : reader (extendBuffer buffer line) = .ok .needsMore)
    (hne : extendBuffer buffer line ≠ "")
    (hf : FirstFault reader (extendBuffer buffer line) lines start fault) :
    FirstFault reader buffer (line :: lines) start fault := by
  obtain ⟨before, l, after, front, rfl, ha, hl, hg, rfl⟩ := hf
  refine ⟨line :: before, l, after, front, rfl, ?_, ?_, ?_, rfl⟩
  · rw [answersFrom_cons, continueWith_needsMore h]
    exact ha.cons (by simp)
  · rwa [keptFrom_cons, continueWith_needsMore h]
  · rwa [List.cons_append, gathered_cons hne, keptFrom_cons, continueWith_needsMore h]

/-- Behind a complete step it begins that step's buffer and a newline further right. -/
theorem complete {words : List String}
    (h : reader (extendBuffer buffer line) = .ok (.complete words))
    (hf : FirstFault reader "" lines start fault) :
    FirstFault reader buffer (line :: lines) ((extendBuffer buffer line).length + 1 + start)
      fault := by
  obtain ⟨before, l, after, front, rfl, ha, hl, hg, rfl⟩ := hf
  refine ⟨line :: before, l, after, extendBuffer buffer line ++ "\n" ++ front, rfl, ?_, ?_, ?_, ?_⟩
  · rw [answersFrom_cons, continueWith_complete h]
    exact ha.cons (by simp)
  · rwa [keptFrom_cons, continueWith_complete h]
  · rw [List.cons_append, gathered_cons_of_ne_nil (by simp), hg, keptFrom_cons,
      continueWith_complete h]
    simp only [String.append_assoc]
  · simp only [String.length_append]
    rfl

/-- A refused step stands among the answers, whatever comes behind it. -/
theorem mem_answersFrom {before : List String}
    (h : (continueWith reader (keptFrom reader buffer before) line).1 = .error fault)
    (after : List String) : .error fault ∈ answersFrom reader buffer (before ++ line :: after) := by
  rw [answersFrom_append, answersFrom_cons, h]
  exact List.mem_append_right _ List.mem_cons_self

theorem not_accepted (hf : FirstFault reader buffer lines start fault) :
    ¬Accepted (answersFrom reader buffer lines) := by
  obtain ⟨before, l, after, front, rfl, ha, hl, hg, rfl⟩ := hf
  exact fun h => h fault (mem_answersFrom hl after)

/-- There is one first refused step. -/
theorem unique {start' : Nat} {fault' : Malformed}
    (hf : FirstFault reader buffer lines start fault)
    (hf' : FirstFault reader buffer lines start' fault') : start = start' ∧ fault = fault' := by
  obtain ⟨before, l, after, front, rfl, ha, hl, hg, rfl⟩ := hf
  obtain ⟨before', l', after', front', he, ha', hl', hg', rfl⟩ := hf'
  -- A step that lies further on would have the refused one before it.
  have hbefore : before = before' ∧ l = l' := by
    rcases List.append_eq_append_iff.mp he with ⟨mid, rfl, hmid⟩ | ⟨mid, rfl, hmid⟩
    · cases mid with
      | nil => exact ⟨by simp, (List.cons.inj hmid).1⟩
      | cons m mid =>
        obtain ⟨rfl, -⟩ := List.cons.inj hmid
        exact absurd (mem_answersFrom hl mid) (ha' fault)
    · cases mid with
      | nil => exact ⟨by simp, (List.cons.inj hmid).1.symm⟩
      | cons m mid =>
        obtain ⟨rfl, -⟩ := List.cons.inj hmid
        exact absurd (mem_answersFrom hl' mid) (ha fault')
  obtain ⟨rfl, rfl⟩ := hbefore
  have hfront : front = front' := (String.append_left_inj _).mp (hg.symm.trans hg')
  exact ⟨by rw [hfront], Except.error.inj (hl.symm.trans hl')⟩

end FirstFault

/-! ## The protocol and the reader -/

namespace Amounts

variable {reader : Reader} {a : Except Malformed Outcome}

/-- Behind a step that needs more the others come to what they come to behind its buffer. -/
theorem needsMore_cons (hs : Amounts reader (extendBuffer buffer line) lines a)
    (h : reader (extendBuffer buffer line) = .ok .needsMore)
    (hne : extendBuffer buffer line ≠ "") : Amounts reader buffer (line :: lines) a := by
  have hanswers : answersFrom reader buffer (line :: lines) =
      .ok .needsMore :: answersFrom reader (extendBuffer buffer line) lines := by
    rw [answersFrom_cons, continueWith_needsMore h]
  have hkept : keptFrom reader buffer (line :: lines) =
      keptFrom reader (extendBuffer buffer line) lines := by
    rw [keptFrom_cons, continueWith_needsMore h]
  cases hs with
  | complete ha hk =>
    have := Amounts.complete (hanswers ▸ ha.cons (by simp)) (hkept ▸ hk)
    rwa [hanswers] at this
  | needsMore ha hk => exact .needsMore (hanswers ▸ ha.cons (by simp)) (hkept ▸ hk)
  | fault hf => exact .fault (hf.needsMore h hne)

/-- Behind a complete step its words come first and reports lie further right. -/
theorem complete_cons {words : List String} (hs : Amounts reader "" lines a)
    (h : reader (extendBuffer buffer line) = .ok (.complete words)) :
    Amounts reader buffer (line :: lines)
      (answerBehind ((extendBuffer buffer line).length + 1) (Outcome.behind words) a) := by
  have hanswers : answersFrom reader buffer (line :: lines) =
      .ok (.complete words) :: answersFrom reader "" lines := by
    rw [answersFrom_cons, continueWith_complete h]
  have hkept : keptFrom reader buffer (line :: lines) = keptFrom reader "" lines := by
    rw [keptFrom_cons, continueWith_complete h]
  cases hs with
  | complete ha hk =>
    have := Amounts.complete (hanswers ▸ ha.cons (by simp)) (hkept ▸ hk)
    rwa [hanswers] at this
  | needsMore ha hk => exact .needsMore (hanswers ▸ ha.cons (by simp)) (hkept ▸ hk)
  | @fault start fault hf =>
    have := Amounts.fault (hf.complete h)
    simpa [answerBehind, Malformed.behind, Nat.add_assoc] using this

theorem eq_complete_iff (hs : Amounts reader buffer lines a) {words : List String} :
    a = .ok (.complete words) ↔ Accepted (answersFrom reader buffer lines) ∧
      keptFrom reader buffer lines = "" ∧
      words = (answersFrom reader buffer lines).flatMap wordsOf := by
  cases hs with
  | complete ha hk => simp [ha, hk, eq_comm]
  | needsMore ha hk => simp [hk]
  | fault hf => simp [hf.not_accepted]

theorem eq_needsMore_iff (hs : Amounts reader buffer lines a) :
    a = .ok .needsMore ↔ Accepted (answersFrom reader buffer lines) ∧
      keptFrom reader buffer lines ≠ "" := by
  cases hs with
  | complete ha hk => simp [hk]
  | needsMore ha hk => simp [ha, hk]
  | fault hf => simp [hf.not_accepted]

theorem eq_error_iff (hs : Amounts reader buffer lines a) {report : Malformed} :
    a = .error report ↔
      ∃ start fault, FirstFault reader buffer lines start fault ∧ report = fault.behind start := by
  constructor
  · rintro rfl
    cases hs with
    | fault hf => exact ⟨_, _, hf, rfl⟩
  · rintro ⟨start, fault, hf, rfl⟩
    cases hs with
    | complete ha => exact absurd ha hf.not_accepted
    | needsMore ha => exact absurd ha hf.not_accepted
    | fault hf' =>
      obtain ⟨rfl, rfl⟩ := hf.unique hf'
      rfl

theorem exists_error_iff (hs : Amounts reader buffer lines a) :
    (∃ report, a = .error report) ↔ ∃ e, .error e ∈ answersFrom reader buffer lines := by
  cases hs with
  | complete ha hk => simp [accepted_iff.mp ha]
  | needsMore ha hk => simp [accepted_iff.mp ha]
  | fault hf =>
    have hsome : ∃ e, .error e ∈ answersFrom reader buffer lines :=
      Classical.byContradiction fun h => hf.not_accepted (accepted_iff.mpr h)
    simp [hsome]

end Amounts

/-- **What the steps come to is what the reader answers for all that was gathered.** -/
theorem amounts_read (hb : buffer = "" ∨ read buffer = .ok .needsMore) :
    Amounts read buffer lines (read (gathered buffer lines)) := by
  induction lines generalizing buffer with
  | nil =>
    rcases hb with rfl | hb
    · exact .complete (fun _ => List.not_mem_nil) rfl
    · have hne : buffer ≠ "" := by
        rintro rfl
        rw [read_empty] at hb
        cases hb
      exact hb ▸ .needsMore (fun _ => List.not_mem_nil) hne
  | cons line lines ih =>
    cases h : read (extendBuffer buffer line) with
    | error e =>
      obtain ⟨more, hmore⟩ := exists_gathered_cons buffer line lines
      rw [hmore, read_append_error h]
      have := Amounts.fault (FirstFault.here h lines)
      simpa [Malformed.behind] using this
    | ok answer =>
      cases answer with
      | needsMore =>
        have hne : extendBuffer buffer line ≠ "" := by
          intro he
          rw [he, read_empty] at h
          cases h
        rw [gathered_cons hne]
        exact (ih (.inr h)).needsMore_cons h hne
      | complete words =>
        have hcons := (ih (.inl rfl)).complete_cons h
        by_cases hl : lines = []
        · subst hl
          rw [gathered_singleton, h]
          simpa [gathered, read_empty, answerBehind, Outcome.behind] using hcons
        · rwa [gathered_cons_of_ne_nil hl, read_complete_newline h]

/-- **Incremental reading is one-shot reading.** For the continuation protocol from an empty buffer
and the same lines joined by newlines: the joined text is complete iff no step was refused and the
buffer is empty at the end, and then its words are those of the complete steps in order; it needs
more iff no step was refused and the buffer is not empty at the end; it is malformed iff some step
was refused, and the report is the first refused step's, moved by where its buffer begins. -/
theorem read_intercalate_iff (lines : List String) :
    (∀ words, read ("\n".intercalate lines) = .ok (.complete words) ↔
      (∀ e, .error e ∉ (continueAll read "" lines).1) ∧ (continueAll read "" lines).2 = "" ∧
        words = (continueAll read "" lines).1.flatMap wordsOf) ∧
    (read ("\n".intercalate lines) = .ok .needsMore ↔
      (∀ e, .error e ∉ (continueAll read "" lines).1) ∧ (continueAll read "" lines).2 ≠ "") ∧
    ((∃ report, read ("\n".intercalate lines) = .error report) ↔
      ∃ e, .error e ∈ (continueAll read "" lines).1) ∧
    ∀ report, read ("\n".intercalate lines) = .error report ↔
      ∃ start fault, FirstFault read "" lines start fault ∧
        report = ⟨start + fault.offset, fault.message⟩ := by
  have h : Amounts read "" lines (read (gathered "" lines)) := amounts_read (.inl rfl)
  rw [gathered_empty] at h
  exact ⟨fun _ => h.eq_complete_iff, h.eq_needsMore_iff, h.exists_error_iff,
    fun _ => h.eq_error_iff⟩

end CommandConsole.CommandLine
