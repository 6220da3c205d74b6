import CommandConsole.Proofs.Stream.Answers
import CommandConsole.Proofs.Text.Lines
import CommandConsole.Proofs.Text.Utf8Valid
import Mathlib.Data.List.Forall2

/-!
# What is read of some bytes

The bytes of a source are cut after each newline, and each piece is answered by itself (`Told`): one
that is the encoding of a text by that text, without the newline and one carriage return directly
before it if it has a newline at its end; any other by a fault, which costs no byte of the pieces
around it.

A source is shared by its readers, any of which may take the next line. Its bytes may come over time:
`Readings` is what may happen to it, with the readers and their answers in order. A reader waits only
for the end of a line, and no longer than until the source is closed.

Results: `told_of_cuts` (the answer for each piece), `gives_of_readings`, `answersOf_written` (lines
that were written are read back). Main statement: `told_of_readings`.
-/

namespace CommandConsole.Source

open Text (Cuts dropReturn pieces)
open Text.Utf8 (encode)

/-! ## Pieces -/

/-- What a piece of some bytes is answered with. -/
inductive Told : List UInt8 → Except StreamFault (Option String) → Prop
  /-- A text and a newline. -/
  | line (text : String) (h : text.toList.getLast? ≠ some '\r') :
      Told (encode (text ++ "\n")) (.ok (some text))
  /-- A text, a carriage return and a newline. -/
  | returned (text : String) : Told (encode (text ++ "\r\n")) (.ok (some text))
  /-- A text at the end of the bytes. -/
  | unended (text : String) (h : '\n' ∉ text.toList) : Told (encode text) (.ok (some text))
  | invalid {piece : List UInt8} (h : ∀ text, encode text ≠ piece) : Told piece (.error notText)

variable {bytes piece : List UInt8} {ps : List (List UInt8)} {text : String}

theorem getLast?_bytes (piece : List UInt8) (e : StreamFault) :
    (piece.map Item.byte).getLast? ≠ some (.fault e) := by
  intro h
  rw [List.getLast?_map, Option.map_eq_some_iff] at h
  obtain ⟨b, -, hb⟩ := h
  cases hb

theorem lineOf_bytes (piece : List UInt8) : lineOf (piece.map Item.byte) =
    match Text.Utf8.decode? piece with
    | some text => .ok (String.ofList (Text.chomp text.toList))
    | none => .error notText := by
  have hbytes : (piece.map Item.byte).filterMap Item.byte? = piece := by
    rw [List.filterMap_map]
    exact List.filterMap_some
  unfold lineOf
  rw [hbytes]
  split
  next e h => exact absurd h (getLast?_bytes piece e)
  · rfl

/-- The answer for the encoding of a text. -/
theorem lineOf_encode (text : String) :
    lineOf ((encode text).map Item.byte) = .ok (String.ofList (Text.chomp text.toList)) := by
  rw [lineOf_bytes, Text.Utf8.decode?_eq_some_iff.mpr rfl]

theorem lineOf_ended (text : String) : lineOf ((encode (text ++ "\n")).map Item.byte) =
    .ok (String.ofList (dropReturn text.toList)) := by
  have hend : "\n".toList = ['\n'] := rfl
  rw [lineOf_encode, String.toList_append, hend, Text.chomp_ended]

theorem lineOf_line (h : text.toList.getLast? ≠ some '\r') :
    lineOf ((encode (text ++ "\n")).map Item.byte) = .ok text := by
  rw [lineOf_ended, dropReturn, if_neg h, String.ofList_toList]

theorem lineOf_returned (text : String) :
    lineOf ((encode (text ++ "\r\n")).map Item.byte) = .ok text := by
  have hend : text ++ "\r\n" = text ++ "\r" ++ "\n" := by
    rw [String.append_assoc]
    rfl
  have hreturn : "\r".toList = ['\r'] := rfl
  rw [hend, lineOf_ended, String.toList_append, hreturn, dropReturn, List.getLast?_concat,
    if_pos rfl, List.dropLast_concat, String.ofList_toList]

theorem lineOf_unended (h : '\n' ∉ text.toList) :
    lineOf ((encode text).map Item.byte) = .ok text := by
  rw [lineOf_encode, Text.chomp_of_not_mem h, String.ofList_toList]

/-- A piece that is the encoding of a text: the newline that ends it ends the text. -/
theorem exists_of_encode_eq {front : List UInt8} (h : encode text = front ++ [newline]) :
    ∃ t, text = t ++ "\n" := by
  have hmem : '\n' ∈ text.toList := by
    rw [← Text.Utf8.mem_encode_iff, h]
    exact List.mem_append_right _ List.mem_cons_self
  rcases List.eq_nil_or_concat text.toList with hnil | ⟨cs, c, hcs⟩
  · rw [hnil] at hmem
    cases hmem
  · rw [List.concat_eq_append] at hcs
    have hlast : newline ∈ String.utf8EncodeChar c := by
      have hne := List.length_pos_iff.mp (Text.Utf8.length_encodeChar_pos c)
      have hgetLast := congrArg List.getLast? h
      rw [Text.Utf8.encode_eq, hcs, List.flatMap_append, List.flatMap_singleton, List.getLast?_concat,
        List.getLast?_append, List.getLast?_eq_some_getLast hne, Option.some_or] at hgetLast
      rw [← Option.some.inj hgetLast]
      exact List.getLast_mem hne
    have hvalue := Text.Utf8.eq_of_mem_encodeChar hlast (by decide)
    obtain rfl : c = '\n' := Char.ext (UInt32.toNat.inj hvalue)
    refine ⟨String.ofList cs, ?_⟩
    rw [← String.toList_inj, hcs, String.toList_append, String.toList_ofList]
    rfl

/-- **The answer for each piece** that some bytes are cut into. -/
theorem told_of_cuts (h : Cuts (· == newline) bytes ps) :
    ∀ piece ∈ ps, Told piece ((lineOf (piece.map Item.byte)).map some) := by
  have hinvalid : ∀ piece, (∀ text, encode text ≠ piece) →
      Told piece ((lineOf (piece.map Item.byte)).map some) := by
    intro piece hnone
    rw [lineOf_bytes, Text.Utf8.decode?_eq_none_iff.mpr hnone]
    exact .invalid hnone
  induction h with
  | nil => simp
  | @last piece hne hpiece =>
    refine List.forall_mem_singleton.mpr ?_
    by_cases hvalid : ∃ text, encode text = piece
    · obtain ⟨text, rfl⟩ := hvalid
      have htext : '\n' ∉ text.toList := fun hmem => by
        have hbyte := hpiece newline (Text.Utf8.mem_encode_iff.mpr hmem)
        cases hbyte
      rw [lineOf_unended htext]
      exact .unended text htext
    · exact hinvalid piece (not_exists.mp hvalid)
  | @ended front rest b ps hfront hb _ ih =>
    refine List.forall_mem_cons.mpr ⟨?_, ih⟩
    obtain rfl : b = newline := by simpa using hb
    by_cases hvalid : ∃ text, encode text = front ++ [newline]
    · obtain ⟨text, htext⟩ := hvalid
      obtain ⟨text, rfl⟩ := exists_of_encode_eq htext
      rw [← htext]
      by_cases hreturn : text.toList.getLast? = some '\r'
      · obtain ⟨cs, hcs⟩ := List.getLast?_eq_some_iff.mp hreturn
        have hsplit : text ++ "\n" = String.ofList cs ++ "\r\n" := by
          have hfront : (String.ofList cs).toList = cs := String.toList_ofList
          rw [← String.toList_inj, String.toList_append, hcs, String.toList_append, hfront,
            List.append_assoc]
          rfl
        rw [hsplit, lineOf_returned]
        exact .returned _
      · rw [lineOf_line hreturn]
        exact .line text hreturn
    · exact hinvalid _ (not_exists.mp hvalid)

/-- The answers for some bytes are those for their pieces. -/
theorem answersOf_bytes (bytes : List UInt8) : answersOf (bytes.map Item.byte) =
    (pieces (· == newline) bytes).map fun piece => (lineOf (piece.map Item.byte)).map some := by
  have hends : Item.ends ∘ Item.byte = (· == newline) := rfl
  rw [answersOf, Text.pieces_map, hends, List.map_map]
  rfl

/-! ## Readers -/

section Readers

variable {ι : Type} {s₀ s s' : Source} {arrived more : List UInt8}
  {calls : List (ι × Except StreamFault (Option String))}

/-- What may happen to a source that readers share, with the bytes that come to it and the answers
that the readers get. -/
inductive Readings {ι : Type} (s₀ : Source) : List UInt8 →
    List (ι × Except StreamFault (Option String)) → Source → Prop
  | start : Readings s₀ [] [] s₀
  /-- A reader takes the next line. -/
  | read {arrived : List UInt8} {calls : List (ι × Except StreamFault (Option String))}
      {s s' : Source} {answer : Except StreamFault (Option String)}
      (h : Readings s₀ arrived calls s) (reader : ι) (hr : s.readLine? = some (answer, s')) :
      Readings s₀ arrived (calls ++ [(reader, answer)]) s'
  | receive {arrived : List UInt8} {calls : List (ι × Except StreamFault (Option String))}
      {s : Source} (h : Readings s₀ arrived calls s) (hopen : s.closed = false)
      (more : List UInt8) : Readings s₀ (arrived ++ more) calls (s.feed (more.map Item.byte))
  | close {arrived : List UInt8} {calls : List (ι × Except StreamFault (Option String))}
      {s : Source} (h : Readings s₀ arrived calls s) : Readings s₀ arrived calls s.close

/-- The readers have got the first answers, whoever they were. -/
theorem gives_of_readings (h : Readings s₀ arrived calls s) :
    Gives (s₀.rest ++ arrived.map Item.byte) (calls.map Prod.snd) s := by
  induction h with
  | start =>
    rw [List.map_nil, List.append_nil]
    exact gives_start s₀
  | read _ reader hr ih =>
    rw [List.map_append]
    exact gives_readLine? ih hr
  | receive _ hopen more ih =>
    rw [List.map_append, ← List.append_assoc]
    exact gives_feed ih hopen _
  | close _ ih => exact gives_close ih

/-- A closed source answers every reader. -/
theorem readLine?_of_closed (h : s.closed = true) : s.readLine? = some s.readLine := by
  have hclose : s.close = s := by
    cases s
    cases h
    rfl
  cases hr : s.readLine? with
  | none =>
    unfold readLine? at hr
    simp [h] at hr
  | some read =>
    obtain ⟨answer, s'⟩ := read
    obtain ⟨-, rfl, -⟩ := readLine?_eq_some hr
    rw [readLine, hclose, hr]

end Readers

/-! ## Lines that were written -/

/-- A line as it is written, with a carriage return or not. -/
def written (line : String × Bool) : String :=
  line.1 ++ if line.2 then "\r\n" else "\n"

/-- What can be written as a line: a text without newlines and without a carriage return at its
end. -/
def IsLine (text : String) : Prop :=
  '\n' ∉ text.toList ∧ text.toList.getLast? ≠ some '\r'

instance (text : String) : Decidable (IsLine text) :=
  inferInstanceAs (Decidable (_ ∧ _))

theorem lineOf_written {line : String × Bool} (h : IsLine line.1) :
    lineOf ((encode (written line)).map Item.byte) = .ok line.1 := by
  obtain ⟨text, _ | _⟩ := line
  · exact lineOf_line h.2
  · exact lineOf_returned text

/-- A written line ends with its only newline. -/
theorem encode_written {line : String × Bool} (h : IsLine line.1) :
    ∃ front, (∀ b ∈ front, (b == newline) = false) ∧ encode (written line) = front ++ [newline] := by
  have hcut : ∃ t : String, '\n' ∉ t.toList ∧ written line = t ++ "\n" := by
    obtain ⟨text, _ | _⟩ := line
    · exact ⟨text, h.1, rfl⟩
    · refine ⟨text ++ "\r", ?_, by rw [String.append_assoc]; rfl⟩
      rw [String.toList_append, List.mem_append]
      exact not_or.mpr ⟨h.1, by decide⟩
  obtain ⟨t, ht, hwritten⟩ := hcut
  refine ⟨encode t, fun b hb => ?_, ?_⟩
  · rw [beq_eq_false_iff_ne]
    rintro rfl
    exact ht (Text.Utf8.mem_encode_iff.mp hb)
  · rw [hwritten, Text.Utf8.encode_append]
    rfl

/-- The bytes of lines that were written are cut into these lines. -/
theorem pieces_written {lines : List (String × Bool)} (h : ∀ line ∈ lines, IsLine line.1) :
    pieces (· == newline) (encode (String.join (lines.map written))) =
      lines.map (encode ∘ written) := by
  induction lines with
  | nil => rfl
  | cons line rest ih =>
    obtain ⟨hline, hrest⟩ := List.forall_mem_cons.mp h
    obtain ⟨front, hfront, hwritten⟩ := encode_written hline
    rw [List.map_cons, String.join_cons, Text.Utf8.encode_append, hwritten, List.append_assoc,
      List.singleton_append, Text.pieces_ended hfront rfl, ih hrest, List.map_cons,
      Function.comp_apply, hwritten]

/-- **Lines that were written are read back.** -/
theorem answersOf_written {lines : List (String × Bool)} (h : ∀ line ∈ lines, IsLine line.1) :
    answersOf (ofText (String.join (lines.map written))).rest =
      lines.map fun line => .ok (some line.1) := by
  rw [ofText, answersOf_bytes, pieces_written h, List.map_map]
  refine List.map_congr_left fun line hline => ?_
  rw [Function.comp_apply, Function.comp_apply, lineOf_written (h line hline)]
  rfl

/-- **Every byte is accounted for.** Whatever the bytes of a source are, whichever of its readers take
the lines and however the bytes come, the answers are those for the pieces that the bytes are cut
into after each newline, one for each and in order, and then the end of the source for ever. A reader
waits only while the source is open and has no newline. So lines without newlines in them or carriage
returns at their ends, each written with a newline or with a carriage return and a newline, are read
back as they are. -/
theorem told_of_readings {ι : Type} :
    (∀ (s₀ : Source) (bytes : List UInt8), s₀.rest = bytes.map Item.byte →
      ∀ arrived (calls : List (ι × Except StreamFault (Option String))) s,
        Readings s₀ arrived calls s →
        (∃ ps answers, Cuts (· == newline) (bytes ++ arrived) ps ∧ List.Forall₂ Told ps answers ∧
          ∀ (i : Nat) reader answer, calls[i]? = some (reader, answer) →
            answer = answers[i]?.getD (Except.ok none)) ∧
        (s.readLine? = none → s.closed = false ∧ .byte newline ∉ s.rest) ∧
        (s.closed = true → s.readLine? = some s.readLine)) ∧
    ∀ lines : List (String × Bool), (∀ line ∈ lines, IsLine line.1) →
      ∀ (calls : List (ι × Except StreamFault (Option String))) s,
        Readings (ofText (String.join (lines.map written))) [] calls s →
        ∀ (i : Nat) reader answer, calls[i]? = some (reader, answer) →
          answer = Except.ok (lines.map Prod.fst)[i]? := by
  constructor
  · intro s₀ bytes hbytes arrived calls s h
    have hgives := gives_of_readings h
    rw [hbytes, ← List.map_append] at hgives
    have hcuts : Cuts (· == newline) (bytes ++ arrived) (pieces (· == newline) (bytes ++ arrived)) :=
      Text.cuts_iff.mpr rfl
    refine ⟨⟨_, answersOf ((bytes ++ arrived).map Item.byte), hcuts, ?_, ?_⟩, ?_, readLine?_of_closed⟩
    · rw [answersOf_bytes, List.forall₂_map_right_iff, List.forall₂_same]
      exact told_of_cuts hcuts
    · intro i reader answer hi
      refine answer_of_gives hgives ?_
      rw [List.getElem?_map, hi]
      rfl
    · intro hwaiting
      obtain ⟨hopen, -, hrest⟩ := unfinished_of_waiting hgives hwaiting
      exact ⟨hopen, fun hmem => absurd (hrest _ hmem) (by decide)⟩
  · intro lines hlines calls s h i reader answer hi
    have hgives := gives_of_readings h
    rw [List.map_nil, List.append_nil] at hgives
    have hcall : (calls.map Prod.snd)[i]? = some answer := by
      rw [List.getElem?_map, hi]
      rfl
    rw [answer_of_gives hgives hcall, answerAt, answersOf_written hlines, List.getElem?_map,
      List.getElem?_map]
    cases lines[i]? <;> rfl

/-- Two readers share a line that ends with a carriage return and a newline, one that is not text and
one that nothing ends; and then two lines that were written. -/
theorem told_to_two :
    let bytes : List UInt8 := [97, 13, 10, 255, 10, 98, 13]
    let calls : List (Bool × Except StreamFault (Option String)) :=
      [(true, .ok (some "a")), (false, .error notText), (false, .ok (some "b\r")), (true, .ok none)]
    let lines := [("a", true), ("", false)]
    (∃ s, Readings ⟨bytes.map .byte, true⟩ [] calls s ∧
      (∃ ps answers, Cuts (· == newline) (bytes ++ []) ps ∧ List.Forall₂ Told ps answers ∧
        ∀ (i : Nat) reader answer, calls[i]? = some (reader, answer) →
          answer = answers[i]?.getD (Except.ok none)) ∧
      s.readLine? = some s.readLine) ∧
    let reads : List (Bool × Except StreamFault (Option String)) :=
      [(true, .ok (some "a")), (false, .ok (some ""))]
    ∃ s, Readings (ofText (String.join (lines.map written))) [] reads s ∧
      ∀ (i : Nat) reader answer, reads[i]? = some (reader, answer) →
        answer = Except.ok (lines.map Prod.fst)[i]? := by
  intro bytes calls lines
  have hbytes : Readings ⟨bytes.map .byte, true⟩ [] calls ⟨[], true⟩ := by
    have h₁ : readLine? ⟨bytes.map .byte, true⟩ =
        some (.ok (some "a"), ⟨(bytes.drop 3).map .byte, true⟩) := by decide +kernel
    have h₂ : readLine? ⟨(bytes.drop 3).map .byte, true⟩ =
        some (.error notText, ⟨(bytes.drop 5).map .byte, true⟩) := by decide +kernel
    have h₃ : readLine? ⟨(bytes.drop 5).map .byte, true⟩ =
        some (.ok (some "b\r"), ⟨[], true⟩) := by decide +kernel
    have h₄ : readLine? ⟨[], true⟩ = some (.ok none, ⟨[], true⟩) := by decide +kernel
    exact .read (.read (.read (.read .start true h₁) false h₂) false h₃) true h₄
  have hlines : Readings (ofText (String.join (lines.map written))) []
      [(true, .ok (some "a")), (false, .ok (some ""))] ⟨[], true⟩ := by
    have h₁ : (ofText (String.join (lines.map written))).readLine? =
        some (.ok (some "a"), ⟨[.byte newline], true⟩) := by decide +kernel
    have h₂ : readLine? ⟨[.byte newline], true⟩ = some (.ok (some ""), ⟨[], true⟩) := by
      decide +kernel
    exact .read (.read .start true h₁) false h₂
  obtain ⟨htold, -, hclosed⟩ := told_of_readings.1 _ bytes rfl _ _ _ hbytes
  have hread := told_of_readings.2 lines (by decide) _ _ hlines
  exact ⟨⟨_, hbytes, htold, hclosed rfl⟩, _, hlines, hread⟩

end CommandConsole.Source
