import CommandConsole.Proofs.Text.Newline
import CommandConsole.Proofs.Text.Utf8

/-!
# What a sink holds

A text makes one call on a sink, which leaves the text there or nothing. `Holds` says that a sink
was written nothing but texts, and that each that it kept has some property.

Results: `write_eq_called` and `write_eq_ok_iff` (the call of a text), `holds_write`, `holds_flush`,
`contents_of_chunks` (what it holds is the concatenation of what it kept).
-/

namespace CommandConsole.Sink

variable {P : String → Prop} {s : Sink} {text : String}

/-- The sink after a call that wrote a text, and was taken or not. -/
def called (s : Sink) (text : String) (taken : Bool) : Sink :=
  { s with writes := s.writes + 1, log := .write (.text text) taken :: s.log }

/-- Whether the next write call is taken. -/
def takesNext (s : Sink) : Bool :=
  (s.faults.onWrite s.writes).isNone

theorem write_eq_called (h : text ≠ "") : (s.write text).2 = s.called text s.takesNext := by
  rw [write, if_neg (by simpa using h), put, takesNext]
  cases s.faults.onWrite s.writes <;> rfl

theorem write_eq_ok_iff (h : text ≠ "") : (s.write text).1 = .ok () ↔ s.takesNext = true := by
  rw [write, if_neg (by simpa using h), put, takesNext]
  cases s.faults.onWrite s.writes <;> simp

/-- What the sink kept are texts with a property. -/
def Holds (P : String → Prop) (s : Sink) : Prop :=
  ∃ texts : List String, chunksOf s.log = texts.map .text ∧ ∀ text ∈ texts, P text

theorem contents_of_chunks {texts : List String} (h : chunksOf s.log = texts.map .text) :
    s.contents = String.join texts := by
  rw [contents, textOf, h, List.flatMap_map]
  exact Text.Utf8.decodeLossy_flatMap_encode texts

theorem holds_nil (h : s.log = []) : s.Holds P :=
  ⟨[], by rw [h]; rfl, nofun⟩

theorem holds_called (h : s.Holds P) (ht : P text) (taken : Bool) :
    (s.called text taken).Holds P := by
  obtain ⟨texts, hchunks, hall⟩ := h
  rw [chunksOf] at hchunks
  cases taken with
  | false => exact ⟨texts, hchunks, hall⟩
  | true =>
    refine ⟨texts ++ [text], ?_, ?_⟩
    · have hkept : SinkCall.kept? (.write (.text text) true) = some (.text text) := rfl
      simp only [called, chunksOf, List.filterMap_cons_some hkept, List.reverse_cons, hchunks,
        List.map_append, List.map_singleton]
    · simpa [or_imp, forall_and] using ⟨hall, ht⟩

theorem holds_write (h : s.Holds P) (ht : P text) : (s.write text).2.Holds P := by
  by_cases hempty : text = ""
  · rw [hempty, write_empty]
    exact h
  · rw [write_eq_called hempty]
    exact holds_called h ht s.takesNext

theorem holds_flush (h : s.Holds P) : s.flush.2.Holds P := by
  obtain ⟨texts, hchunks, hall⟩ := h
  rw [flush]
  split <;> exact ⟨texts, hchunks, hall⟩

end CommandConsole.Sink
