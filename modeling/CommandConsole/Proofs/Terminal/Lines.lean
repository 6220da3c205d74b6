import CommandConsole.Proofs.Terminal.Reads

/-!
# Terminals that report lines

A world is calm if no write and no flush fails in it and its terminal, of either kind, reports some
lines and then the end of input, as often as it is asked. Each read takes the next line; a read of a
terminal on streams takes it when it is started, so that the line is already gone when the read is
asked for it.

Results: `calm_write`, `calm_flush`, `calm_startRead`, `calm_pollRead`, `calm_clock` (what sessions
do to a calm world leaves it calm, and a read gives the next line).
-/

namespace CommandConsole

open Source Terminal

namespace Sink

/-- No call fails. -/
structure Takes (s : Sink) : Prop where
  write : ∀ n, s.faults.onWrite n = none
  flush : ∀ n, s.faults.onFlush n = none

variable {s : Sink}

theorem takes_write (h : s.Takes) (text : String) :
    (s.write text).1 = .ok () ∧ (s.write text).2.Takes := by
  unfold write put
  split
  · exact ⟨rfl, h⟩
  · rw [h.write]
    exact ⟨rfl, h.write, h.flush⟩

theorem takes_flush (h : s.Takes) : s.flush.1 = .ok () ∧ s.flush.2.Takes := by
  unfold Sink.flush
  rw [h.flush]
  exact ⟨rfl, h.write, h.flush⟩

end Sink

namespace Source

variable {s : Source} {lines : List String}

/-- A closed source that holds some lines gives the first of them, or its end. -/
theorem readLine?_of_lines (hclosed : s.closed = true)
    (h : answersOf s.rest = lines.map fun text => .ok (some text)) :
    ∃ s', s.readLine? = some (.ok lines.head?, s') ∧ s'.closed = true ∧
      answersOf s'.rest = lines.tail.map fun text => .ok (some text) := by
  have hempty : (Text.spanThrough Item.ends s.rest).1.isEmpty = true ↔ s.rest = [] := by
    rw [List.isEmpty_iff]
    refine ⟨fun he => ?_, fun he => by rw [he]; rfl⟩
    by_cases hrest : s.rest = []
    · exact hrest
    · exact absurd he (Text.spanThrough_fst_ne_nil hrest)
  refine ⟨{ s with rest := (Text.spanThrough Item.ends s.rest).2 }, ?_, hclosed, ?_⟩
  · simp only [readLine?, hclosed, or_true, if_true, hempty]
    by_cases hrest : s.rest = []
    · rw [hrest] at h
      obtain rfl := List.map_eq_nil_iff.mp h.symm
      rw [if_pos hrest]
      rfl
    · rw [answersOf_eq_cons hrest] at h
      obtain ⟨line, more, rfl, hline, -⟩ := List.map_eq_cons_iff.mp h.symm
      rw [if_neg hrest, ← hline]
      rfl
  · by_cases hrest : s.rest = []
    · rw [hrest] at h ⊢
      obtain rfl := List.map_eq_nil_iff.mp h.symm
      exact h
    · rw [answersOf_eq_cons hrest] at h
      obtain ⟨line, more, rfl, -, hmore⟩ := List.map_eq_cons_iff.mp h.symm
      exact hmore.symm

end Source

namespace World

/-- The terminal has some lines and then the end of input to report; a read of it was started or
not. -/
inductive Tells (w : World) : Bool → List String → Prop
  | scripted {t : ScriptedTerminal} {asked : Bool} {lines : List String}
      (ht : w.terminal = .scripted t) (hended : t.ended = true)
      (hcues : t.cues = lines.map fun text => .report (.ok (.line text))) : Tells w asked lines
  | idle {t : PlainTerminal} {lines : List String} (ht : w.terminal = .plain t)
      (hclosed : w.input.closed = true) (hp : t.pending = none)
      (hrest : answersOf w.input.rest = lines.map fun text => .ok (some text)) :
      Tells w false lines
  /-- The read took its line. -/
  | asked {t : PlainTerminal} {lines : List String} (ht : w.terminal = .plain t)
      (hclosed : w.input.closed = true) (hp : t.pending = some (.answered (.ok lines.head?)))
      (hrest : answersOf w.input.rest = lines.tail.map fun text => .ok (some text)) :
      Tells w true lines

/-- No stream of the world fails, and the terminal reports some lines and then the end of input. -/
structure Calm (w : World) (asked : Bool) (lines : List String) : Prop where
  takes : ∀ name, (w.sink name).Takes
  tells : w.Tells asked lines

variable {w w' : World} {asked : Bool} {lines : List String}

theorem Tells.of_eq (h : w.Tells asked lines) (ht : w'.terminal = w.terminal)
    (hi : w'.input = w.input) : w'.Tells asked lines := by
  cases h with
  | scripted hscripted hended hcues => exact .scripted (ht.trans hscripted) hended hcues
  | idle hplain hclosed hp hrest =>
    rw [← hi] at hclosed hrest
    exact .idle (ht.trans hplain) hclosed hp hrest
  | asked hplain hclosed hp hrest =>
    rw [← hi] at hclosed hrest
    exact .asked (ht.trans hplain) hclosed hp hrest

theorem takes_setSink (h : ∀ name, (w.sink name).Takes) {sink : Sink} (hs : sink.Takes)
    (name name' : SinkName) : ((w.setSink name sink).sink name').Takes := by
  cases name <;> cases name'
  · exact hs
  · exact h .second
  · exact h .first
  · exact hs

theorem calm_setSink (h : w.Calm asked lines) {sink : Sink} (hs : sink.Takes) (name : SinkName) :
    (w.setSink name sink).Calm asked lines := by
  refine ⟨takes_setSink h.takes hs name, h.tells.of_eq ?_ ?_⟩ <;> cases name <;> rfl

theorem calm_write (h : w.Calm asked lines) (outlet : Outlet) (text : String) :
    (w.write outlet text).1 = .ok () ∧ (w.write outlet text).2.Calm asked lines := by
  obtain ⟨hok, htakes⟩ :=
    Sink.takes_write (h.takes outlet.sink) (outlet.output.translate text)
  exact ⟨hok, calm_setSink h htakes outlet.sink⟩

theorem calm_flush (h : w.Calm asked lines) (outlet : Outlet) :
    (w.flush outlet).1 = .ok () ∧ (w.flush outlet).2.Calm asked lines := by
  obtain ⟨hok, htakes⟩ := Sink.takes_flush (h.takes outlet.sink)
  exact ⟨hok, calm_setSink h htakes outlet.sink⟩

theorem calm_clock (h : w.Calm asked lines) (time : Nat) :
    ({ w with clock := time } : World).Calm asked lines :=
  ⟨h.takes, h.tells.of_eq rfl rfl⟩

/-- The prompt is shown. -/
theorem takes_prompt {sink : Sink} (h : sink.Takes) (t : PlainTerminal) (text : String) :
    (t.prompt sink text).1 = .ok () ∧ (t.prompt sink text).2.Takes := by
  unfold PlainTerminal.prompt
  split
  · obtain ⟨hok, htakes⟩ := Sink.takes_write h (t.output.translate text)
    rcases hw : t.output.write sink text with ⟨result, sink'⟩
    rw [Output.write] at hw
    rw [hw] at hok htakes
    obtain rfl : result = .ok () := hok
    exact Sink.takes_flush htakes
  · exact ⟨rfl, h⟩

/-- A read of a terminal on streams takes the next line, unless one was started before. -/
theorem startRead_of_takes {t : PlainTerminal} (ht : w.terminal = .plain t)
    (h : ∀ name, (w.sink name).Takes) (prompt : String) : ∃ sink, sink.Takes ∧
      w.startRead prompt = (.ok (), { w with
        first := sink
        terminal := .plain (t.startRead w.input).1
        input := (t.startRead w.input).2 }) := by
  obtain ⟨hok, htakes⟩ := takes_prompt (h .first) t prompt
  rcases hprompt : t.prompt w.first prompt with ⟨result, sink⟩
  have hfirst : w.sink .first = w.first := rfl
  rw [hfirst, hprompt] at hok htakes
  obtain rfl : result = .ok () := hok
  refine ⟨sink, htakes, ?_⟩
  unfold startRead
  rw [ht]
  simp only
  rw [hprompt]

/-- **A read is started**, if none was. -/
theorem calm_startRead (h : w.Calm asked lines) (prompt : String) :
    (w.startRead prompt).1 = .ok () ∧ (w.startRead prompt).2.Calm true lines := by
  cases h.tells with
  | scripted ht hended hcues =>
    unfold startRead
    rw [ht]
    exact ⟨rfl, h.takes, .scripted ht hended hcues⟩
  | @idle t _ ht hclosed hp hrest =>
    obtain ⟨sink, hsink, he⟩ := startRead_of_takes ht h.takes prompt
    obtain ⟨s', hread, hclosed', hrest'⟩ := readLine?_of_lines hclosed hrest
    have hstart : t.startRead w.input =
        ({ t with pending := some (.answered (.ok lines.head?)) }, s') := by
      simp only [PlainTerminal.startRead, PlainTerminal.advance, hp, Option.getD_none, hread]
    rw [he, hstart]
    exact ⟨rfl, takes_setSink h.takes hsink .first, .asked rfl hclosed' rfl hrest'⟩
  | @asked t _ ht hclosed hp hrest =>
    obtain ⟨sink, hsink, he⟩ := startRead_of_takes ht h.takes prompt
    have hstart : t.startRead w.input =
        ({ t with pending := some (.answered (.ok lines.head?)) }, w.input) := by
      simp only [PlainTerminal.startRead, PlainTerminal.advance, hp, Option.getD_some]
    rw [he, hstart]
    exact ⟨rfl, takes_setSink h.takes hsink .first, .asked rfl hclosed rfl hrest⟩

/-- **A read gives the next line**, or the end of input. -/
theorem calm_pollRead (h : w.Calm true lines) (prompt : String) :
    (w.pollRead prompt).1 = ⟨some (.ok (Event.ofLine? lines.head?)), false⟩ ∧
      (w.pollRead prompt).2.Calm false lines.tail := by
  cases h.tells with
  | @scripted t _ _ ht hended hcues =>
    cases lines with
    | nil =>
      have hnext : t.next? = some (.report (.ok .endOfInput), t) := by
        rw [ScriptedTerminal.next?, hcues, List.map_nil, hended]
        rfl
      unfold pollRead
      rw [ht]
      simp only [hnext]
      exact ⟨rfl, h.takes, .scripted rfl hended hcues⟩
    | cons line lines =>
      have hnext : t.next? = some (.report (.ok (.line line)), { t with
          cues := lines.map fun text => .report (.ok (.line text)) }) := by
        rw [ScriptedTerminal.next?, hcues, List.map_cons]
      unfold pollRead
      rw [ht]
      simp only [hnext]
      exact ⟨rfl, h.takes, .scripted rfl hended rfl⟩
  | @asked t _ ht hclosed hp hrest =>
    have hadvance : t.advance w.input = (t, w.input) := by
      simp only [PlainTerminal.advance, hp]
    have htaken : t.takeAnswer? =
        some (.ok (Event.ofLine? lines.head?), { t with pending := none }) := by
      simp only [PlainTerminal.takeAnswer?, hp]
      rfl
    have hread := pollRead_some ht (by rw [hadvance]; exact htaken) prompt
    rw [hadvance] at hread
    rw [hread]
    exact ⟨rfl, h.takes, .idle rfl hclosed rfl hrest⟩

end World

end CommandConsole
