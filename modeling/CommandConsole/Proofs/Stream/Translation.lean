import Mathlib.Logic.Relation
import CommandConsole.Proofs.Stream.Contents
import CommandConsole.Proofs.Text.NormalForm

/-!
# What a translating output sends

A text is one call on a sink, so what an output sends for it is what an empty sink holds after that
call (`sent`). For an output that puts carriage returns before bare newlines, that is a normal form
of the text. The output forgets a text as soon as it was written: only two texts that meet between a
carriage return and its newline are sent otherwise than as one.

Outputs share their sink, and any call on it may fail. `Prints` are the calls that translating
outputs make on one sink, in any order and number.

Results: `sent_eq`, `holds_of_prints`, `normalizes_and_never_bare`.
-/

namespace CommandConsole

open Relation
open Text (Returned Seam asLine withReturns withoutReturns)

namespace Output

/-- What an output sends to its sink for a text. -/
def sent (o : Output) (text : String) : String :=
  (o.write {} text).2.contents

theorem sent_eq (o : Output) (text : String) : o.sent text = o.translate text := by
  rw [sent, write]
  by_cases hempty : o.translate text = ""
  · rw [hempty]
    rfl
  · rw [Sink.write_eq_called hempty]
    have hchunks : Sink.chunksOf [.write (.text (o.translate text)) true] =
        [o.translate text].map Chunk.text := rfl
    rw [Sink.contents_of_chunks hchunks, String.join_cons, String.join_nil, String.append_empty]

/-- A translation of texts into those without bare newlines. -/
structure Normalizes (translated : String → String) : Prop where
  returned : ∀ t, Returned (translated t)
  idempotent : ∀ t, translated (translated t) = translated t
  /-- Only carriage returns before newlines are added. -/
  withoutReturns_eq : ∀ t, withoutReturns (translated t) = withoutReturns t
  fixed_iff : ∀ t, translated t = t ↔ Returned t
  /-- A text may be cut anywhere but between a carriage return and its newline. -/
  append : ∀ a b, ¬ Seam a b → translated a ++ translated b = translated (a ++ b)
  /-- There it gets one carriage return more, exactly at the cut. -/
  seam : ∀ a b, Seam a b → ∃ tail, translated (a ++ b) = translated a ++ tail ∧
    translated a ++ translated b = translated a ++ "\r" ++ tail

theorem normalizes_withReturns : Normalizes withReturns where
  returned := Text.returned_withReturns
  idempotent t := Text.withReturns_eq_self_iff.mpr (Text.returned_withReturns t)
  withoutReturns_eq := Text.withoutReturns_withReturns
  fixed_iff _ := Text.withReturns_eq_self_iff
  append _ _ := Text.withReturns_append_of_not_seam
  seam _ _ := Text.exists_of_seam

/-- A call that a translating output makes on its sink. -/
inductive Prints (sink : Sink) : Sink → Prop
  | text (t : String) : Prints sink ((⟨true⟩ : Output).write sink t).2
  | line (t : String) : Prints sink ((⟨true⟩ : Output).write sink (asLine t)).2
  | flush : Prints sink sink.flush.2

variable {sink sink' : Sink}

theorem holds_of_prints (h : sink.Holds Returned) (hp : Prints sink sink') :
    sink'.Holds Returned := by
  cases hp with
  | text t => exact Sink.holds_write h (Text.returned_withReturns t)
  | line t => exact Sink.holds_write h (Text.returned_withReturns (asLine t))
  | flush => exact Sink.holds_flush h

/-- **What a translating output sends is a normal form**, with one exact seam, and a sink that is
written to by translating outputs alone never holds a bare newline, whichever calls fail. -/
theorem normalizes_and_never_bare : Normalizes (sent ⟨true⟩) ∧
    ∀ sink sink', sink.log = [] → ReflTransGen Prints sink sink' → Returned sink'.contents := by
  constructor
  · have hsent : sent ⟨true⟩ = withReturns := funext (sent_eq ⟨true⟩)
    rw [hsent]
    exact normalizes_withReturns
  · intro sink sink' hempty hprints
    have hholds : sink'.Holds Returned := by
      induction hprints with
      | refl => exact Sink.holds_nil hempty
      | tail _ hstep ih => exact holds_of_prints ih hstep
    obtain ⟨texts, hchunks, hall⟩ := hholds
    rw [Sink.contents_of_chunks hchunks]
    exact Text.returned_join hall

/-- The sink after the two parts of a text that was cut at the seam: the first call is taken, the
second one fails, and the third one is taken. -/
def cutAtSeam : Sink :=
  let output : Output := ⟨true⟩
  let first := (output.write { faults := .writeAt 1 ⟨"sink failed"⟩ } "a\r").2
  (output.write (output.write first "lost\n").2 (asLine "\nb")).2

theorem returned_cutAtSeam :
    (∃ tail, sent ⟨true⟩ ("a\r" ++ "\nb") = sent ⟨true⟩ "a\r" ++ tail ∧
      sent ⟨true⟩ "a\r" ++ sent ⟨true⟩ "\nb" = sent ⟨true⟩ "a\r" ++ "\r" ++ tail) ∧
    cutAtSeam.contents = "a\r\r\nb\r\n" ∧ Returned cutAtSeam.contents := by
  refine ⟨normalizes_and_never_bare.1.seam "a\r" "\nb" ⟨rfl, rfl⟩, rfl, ?_⟩
  refine normalizes_and_never_bare.2 { faults := .writeAt 1 ⟨"sink failed"⟩ } cutAtSeam rfl ?_
  exact ((ReflTransGen.single (.text "a\r")).tail (.text "lost\n")).tail (.line "\nb")

end Output

end CommandConsole
