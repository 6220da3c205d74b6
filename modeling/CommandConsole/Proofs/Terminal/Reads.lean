import CommandConsole.Proofs.Stream.Answers
import CommandConsole.Session.World

/-!
# Reads that were given up

A terminal on streams hands a read that nobody waits for any more to the next call, through
whichever clone that comes. `World.Goes` is what may happen to the terminal and its input when
nobody else reads the input, and `Serves` that the answers given to calls are the first ones of all
that has come to the input, the answer of a read that has ended but was not asked for being the next
one.

A `Desk` is the terminal with the call whose turn it is. The calls of all clones take turns: one
waits for the read while the others queue. A call may be given up at any moment after its read was
started. One that cannot show its prompt starts no read and takes no answer.

Results: `serves_of_goes` (one change keeps the order), `waits_of_step` (a call waits for a read that
was started), `answers_of_calls`.
-/

namespace CommandConsole

open Source Terminal

/-- The line that a call got. -/
def Terminal.gotLine? : Except StreamFault Event → Option String
  | .ok (.line text) => some text
  | _ => none

theorem Terminal.gotLine?_map (answer : Except StreamFault (Option String)) :
    gotLine? (answer.map Event.ofLine?) = textOf? answer := by
  cases answer with
  | error fault => rfl
  | ok line => cases line <;> rfl

namespace PlainTerminal

/-- The answer of a read that has ended and was not asked for. -/
def kept (t : PlainTerminal) : List (Except StreamFault (Option String)) :=
  match t.pending with
  | some (.answered answer) => [answer]
  | _ => []

variable {total : List Item} {given : List (Except StreamFault (Option String))}
  {t t' : PlainTerminal} {source : Source} {e : Except StreamFault Event}

/-- A read that takes its line keeps the answer, which comes next. -/
theorem gives_advance (h : Gives total (given ++ t.kept) source) :
    Gives total (given ++ (t.advance source).1.kept) (t.advance source).2 := by
  unfold advance
  split
  next hp =>
    cases hr : source.readLine? with
    | none => exact h
    | some read =>
      obtain ⟨answer, source'⟩ := read
      have hkept : t.kept = [] := by rw [kept, hp]
      rw [hkept, List.append_nil] at h
      exact gives_readLine? h hr
  · exact h

theorem gives_startRead (h : Gives total (given ++ t.kept) source) :
    Gives total (given ++ (t.startRead source).1.kept) (t.startRead source).2 := by
  unfold startRead
  refine gives_advance ?_
  have hkept : ({ t with pending := some (t.pending.getD .inFlight) } : PlainTerminal).kept =
      t.kept := by
    unfold kept
    cases t.pending <;> rfl
  rwa [hkept]

theorem isSome_advance (t : PlainTerminal) (source : Source) :
    (t.advance source).1.pending.isSome = t.pending.isSome := by
  unfold advance
  split
  next hp =>
    cases source.readLine? with
    | none => rfl
    | some read => rw [hp]; rfl
  · rfl

theorem isSome_startRead (t : PlainTerminal) (source : Source) :
    (t.startRead source).1.pending.isSome = true := by
  unfold startRead
  rw [isSome_advance]
  rfl

/-- The answer that a call gets is the one that was kept. -/
theorem takeAnswer?_eq_some (h : t.takeAnswer? = some (e, t')) :
    ∃ answer, t.kept = [answer] ∧ e = answer.map Event.ofLine? ∧
      t' = { t with pending := none } := by
  unfold takeAnswer? at h
  split at h
  next answer hp =>
    cases h
    exact ⟨answer, by rw [kept, hp], rfl, rfl⟩
  · cases h

/-- A read that was started waits only for its line. -/
theorem readLine?_of_waiting (hp : t.pending.isSome = true)
    (h : (t.advance source).1.takeAnswer? = none) : source.readLine? = none ∧ t.kept = [] := by
  match hpending : t.pending with
  | none =>
    rw [hpending] at hp
    cases hp
  | some (.answered answer) =>
    rw [advance, hpending, takeAnswer?, hpending] at h
    cases h
  | some .inFlight =>
    rw [advance, hpending] at h
    refine ⟨?_, by rw [kept, hpending]⟩
    cases hr : source.readLine? with
    | none => rfl
    | some read =>
      rw [hr] at h
      cases h

end PlainTerminal

namespace World

/-- What may happen around the calls, with what comes to the input. -/
inductive Stirs (w : World) : List Item → World → Prop
  /-- A read takes its line, waited for or not. -/
  | advance {t : PlainTerminal} (ht : w.terminal = .plain t) :
      Stirs w [] { w with
        terminal := .plain (t.advance w.input).1
        input := (t.advance w.input).2 }
  | receive (hopen : w.input.closed = false) (items : List Item) :
      Stirs w items { w with input := w.input.feed items }
  | close : Stirs w [] { w with input := w.input.close }
  /-- The next call comes through a clone, which may show prompts or not. -/
  | clone {t : PlainTerminal} (ht : w.terminal = .plain t) (showPrompt : Bool) :
      Stirs w [] { w with terminal := .plain { t with showPrompt := showPrompt } }
  /-- Something else happens. -/
  | elsewhere {w' : World} (ht : w'.terminal = w.terminal) (hi : w'.input = w.input) :
      Stirs w [] w'

/-- What may happen to a terminal on streams and its input, with what comes to the input and the
answers given to calls. Nobody else reads the input. -/
inductive Goes (w : World) : List Item → List (Except StreamFault Event) → World → Prop
  /-- A call shows its prompt and comes to its turn. -/
  | start (text : String) : Goes w [] [] (w.startRead text).2
  /-- A call looks whether its line has come. -/
  | poll (text : String) : Goes w [] (w.pollRead text).1.answer.toList (w.pollRead text).2
  | stir {items : List Item} {w' : World} (h : w.Stirs items w') : Goes w items [] w'

theorem Goes.elsewhere {w w' : World} (ht : w'.terminal = w.terminal) (hi : w'.input = w.input) :
    w.Goes [] [] w' :=
  .stir (.elsewhere ht hi)

/-- The answers given to calls are the first ones of all that has come to the input, and the next
one may be kept. -/
def Serves (total : List Item) (given : List (Except StreamFault Event)) (w : World) : Prop :=
  ∃ t answers, w.terminal = .plain t ∧ Gives total (answers ++ t.kept) w.input ∧
    given = answers.map (Except.map Event.ofLine?)

/-- A read was started and was not asked for its answer. -/
def Reads (w : World) : Prop :=
  ∃ t, w.terminal = .plain t ∧ t.pending.isSome = true

variable {total arrived : List Item} {given answers : List (Except StreamFault Event)}
  {e : Except StreamFault Event} {w w' : World} {t : PlainTerminal}

theorem Serves.plain (h : Serves total given w) : ∃ t, w.terminal = .plain t := by
  obtain ⟨t, answers, ht, -, -⟩ := h
  exact ⟨t, ht⟩

/-- A prompt that cannot be shown leaves the terminal as it is. -/
theorem startRead_plain (ht : w.terminal = .plain t) (text : String) :
    (∃ fault sink, w.startRead text = (.error fault, { w with first := sink })) ∨
      ∃ sink, w.startRead text = (.ok (), { w with
        first := sink
        terminal := .plain (t.startRead w.input).1
        input := (t.startRead w.input).2 }) := by
  unfold startRead
  rw [ht]
  simp only
  split
  next fault sink _ => exact .inl ⟨fault, sink, rfl⟩
  next sink _ => exact .inr ⟨sink, rfl⟩

theorem pollRead_none (ht : w.terminal = .plain t)
    (h : (t.advance w.input).1.takeAnswer? = none) (text : String) :
    w.pollRead text = (⟨none, false⟩, { w with
      terminal := .plain (t.advance w.input).1
      input := (t.advance w.input).2 }) := by
  unfold pollRead
  rw [ht]
  simp only
  rw [h]

theorem pollRead_some {t' : PlainTerminal} (ht : w.terminal = .plain t)
    (h : (t.advance w.input).1.takeAnswer? = some (e, t')) (text : String) :
    w.pollRead text = (⟨some e, false⟩, { w with
      terminal := .plain t'
      input := (t.advance w.input).2 }) := by
  unfold pollRead
  rw [ht]
  simp only
  rw [h]

theorem serves_start (ht : w.terminal = .plain t) (hp : t.pending = none) :
    Serves w.input.rest [] w := by
  refine ⟨t, [], ht, ?_, rfl⟩
  rw [PlainTerminal.kept, hp]
  exact gives_start w.input

theorem serves_startRead (h : Serves total given w) (text : String) :
    Serves total given (w.startRead text).2 := by
  obtain ⟨t, answers, ht, hgives, hgiven⟩ := h
  rcases startRead_plain ht text with ⟨fault, sink, he⟩ | ⟨sink, he⟩
  · rw [he]
    exact ⟨t, answers, ht, hgives, hgiven⟩
  · rw [he]
    exact ⟨_, answers, rfl, PlainTerminal.gives_startRead hgives, hgiven⟩

theorem serves_pollRead (h : Serves total given w) (text : String) :
    Serves total (given ++ (w.pollRead text).1.answer.toList) (w.pollRead text).2 := by
  obtain ⟨t, answers, ht, hgives, rfl⟩ := h
  have hnext := PlainTerminal.gives_advance hgives
  cases ha : (t.advance w.input).1.takeAnswer? with
  | none =>
    rw [pollRead_none ht ha]
    exact ⟨_, answers, rfl, hnext, List.append_nil _⟩
  | some taken =>
    obtain ⟨e, t'⟩ := taken
    rw [pollRead_some ht ha]
    obtain ⟨answer, hkept, rfl, rfl⟩ := PlainTerminal.takeAnswer?_eq_some ha
    rw [hkept] at hnext
    refine ⟨_, answers ++ [answer], rfl, ?_, ?_⟩
    · simpa [PlainTerminal.kept] using hnext
    · rw [List.map_append]
      rfl

theorem serves_of_stirs (h : Serves total given w) (hs : w.Stirs arrived w') :
    Serves (total ++ arrived) given w' := by
  obtain ⟨t, answers, ht, hgives, hgiven⟩ := h
  cases hs with
  | advance hplain =>
    cases ht.symm.trans hplain
    rw [List.append_nil]
    exact ⟨_, answers, rfl, PlainTerminal.gives_advance hgives, hgiven⟩
  | receive hopen items => exact ⟨t, answers, ht, gives_feed hgives hopen _, hgiven⟩
  | close =>
    rw [List.append_nil]
    exact ⟨t, answers, ht, gives_close hgives, hgiven⟩
  | clone hplain showPrompt =>
    cases ht.symm.trans hplain
    rw [List.append_nil]
    exact ⟨_, answers, rfl, hgives, hgiven⟩
  | elsewhere hterminal hinput =>
    rw [List.append_nil]
    exact ⟨t, answers, hterminal.trans ht, hinput ▸ hgives, hgiven⟩

/-- **One change** keeps the answers in the order of the input. -/
theorem serves_of_goes (h : Serves total given w) (hg : w.Goes arrived answers w') :
    Serves (total ++ arrived) (given ++ answers) w' := by
  cases hg with
  | start text =>
    rw [List.append_nil, List.append_nil]
    exact serves_startRead h text
  | poll text =>
    rw [List.append_nil]
    exact serves_pollRead h text
  | stir hs =>
    rw [List.append_nil]
    exact serves_of_stirs h hs

/-- Nothing but a call ends a read. -/
theorem reads_of_stirs (h : w.Reads) (hs : w.Stirs arrived w') : w'.Reads := by
  obtain ⟨t, hplain, hpending⟩ := h
  cases hs with
  | advance ht =>
    cases ht.symm.trans hplain
    exact ⟨_, rfl, (PlainTerminal.isSome_advance _ w.input).trans hpending⟩
  | receive => exact ⟨t, hplain, hpending⟩
  | close => exact ⟨t, hplain, hpending⟩
  | clone ht =>
    cases ht.symm.trans hplain
    exact ⟨_, rfl, hpending⟩
  | elsewhere ht => exact ⟨t, ht.trans hplain, hpending⟩

/-- The answer number `i` that a call got is answer number `i` of the input. -/
theorem answer_of_serves (h : Serves total given w) {i : Nat} (hi : given[i]? = some e) :
    e = (answerAt total i).map Event.ofLine? := by
  obtain ⟨t, answers, -, hgives, rfl⟩ := h
  rw [List.getElem?_map] at hi
  obtain ⟨answer, ha, rfl⟩ := Option.map_eq_some_iff.mp hi
  obtain ⟨hlt, -⟩ := List.getElem?_eq_some_iff.mp ha
  rw [answer_of_gives hgives ((List.getElem?_append_left hlt).trans ha)]

/-- The lines that calls got are the first lines of the input, in order. -/
theorem lines_of_serves (h : Serves total given w) : given.filterMap gotLine? <+: linesOf total := by
  obtain ⟨t, answers, -, hgives, rfl⟩ := h
  have hlines := lines_of_gives hgives
  rw [List.filterMap_append] at hlines
  rw [List.filterMap_map, show gotLine? ∘ Except.map Event.ofLine? = textOf? from
    funext gotLine?_map]
  exact (List.prefix_append _ _).trans hlines

end World

/-! ## Calls that take turns -/

/-- A terminal with the call whose turn it is. -/
structure Desk where
  world : World
  reader : Option Nat := none

namespace Desk

/-- What may happen at a terminal, with what comes to its input and the calls that finish. -/
inductive Step : Desk → List Item → List (Nat × Except StreamFault Event) → Desk → Prop
  /-- A call has shown its prompt, and comes to its turn. -/
  | begin {d : Desk} {w : World} {text : String} (hfree : d.reader = none)
      (h : d.world.startRead text = (.ok (), w)) (call : Nat) : Step d [] [] ⟨w, some call⟩
  /-- A call cannot show its prompt, and ends before its read is started. -/
  | refuse {d : Desk} {w : World} {text : String} {fault : StreamFault}
      (h : d.world.startRead text = (.error fault, w)) : Step d [] [] { d with world := w }
  /-- The call whose turn it is finishes. -/
  | finish {d : Desk} {call : Nat} {text : String} {e : Except StreamFault Event}
      (hturn : d.reader = some call) (h : (d.world.pollRead text).1.answer = some e) :
      Step d [] [(call, e)] ⟨(d.world.pollRead text).2, none⟩
  /-- It looks in vain whether its line has come. -/
  | wait {d : Desk} {call : Nat} {text : String} (hturn : d.reader = some call)
      (h : (d.world.pollRead text).1.answer = none) :
      Step d [] [] { d with world := (d.world.pollRead text).2 }
  /-- It is given up. -/
  | giveUp {d : Desk} {call : Nat} (hturn : d.reader = some call) :
      Step d [] [] { d with reader := none }
  | stir {d : Desk} {items : List Item} {w : World} (h : d.world.Stirs items w) :
      Step d items [] { d with world := w }

/-- What has become of a terminal in the end, with all that has come to its input and the calls that
have finished, in order. -/
inductive Calls (d₀ : Desk) : List Item → List (Nat × Except StreamFault Event) → Desk → Prop
  | refl : Calls d₀ [] [] d₀
  | tail {arrived items : List Item} {finished answers : List (Nat × Except StreamFault Event)}
      {d d' : Desk} (h : Calls d₀ arrived finished d) (hs : d.Step items answers d') :
      Calls d₀ (arrived ++ items) (finished ++ answers) d'

variable {d₀ d d' : Desk} {arrived items : List Item} {t : PlainTerminal}
  {finished answers : List (Nat × Except StreamFault Event)}

theorem goes_of_step (h : d.Step items answers d') :
    d.world.Goes items (answers.map Prod.snd) d'.world := by
  cases h with
  | @begin w text hfree h call =>
    have hstart := World.Goes.start (w := d.world) text
    rwa [h] at hstart
  | @refuse w text fault h =>
    have hstart := World.Goes.start (w := d.world) text
    rwa [h] at hstart
  | @finish call text e hturn h =>
    have hpoll := World.Goes.poll (w := d.world) text
    rwa [h] at hpoll
  | @wait call text hturn h =>
    have hpoll := World.Goes.poll (w := d.world) text
    rwa [h] at hpoll
  | giveUp => exact .elsewhere rfl rfl
  | stir hs => exact .stir hs

/-- The call whose turn it is waits for a read that was started. -/
def Waits (d : Desk) : Prop :=
  ∀ call, d.reader = some call → d.world.Reads

theorem waits_of_step (h : d.Waits) (hplain : d.world.terminal = .plain t)
    (hs : d.Step items answers d') : d'.Waits := by
  intro call hcall
  cases hs with
  | giveUp => cases hcall
  | finish => cases hcall
  | @begin w text hfree hstart =>
    rcases World.startRead_plain hplain text with ⟨fault, sink, he⟩ | ⟨sink, he⟩
    · rw [he] at hstart
      cases hstart
    · rw [he] at hstart
      cases hstart
      exact ⟨_, rfl, PlainTerminal.isSome_startRead t d.world.input⟩
  | @refuse w text fault hstart =>
    rcases World.startRead_plain hplain text with ⟨fault, sink, he⟩ | ⟨sink, he⟩
    · rw [he] at hstart
      cases hstart
      exact h call hcall
    · rw [he] at hstart
      cases hstart
  | @wait _ text hturn hnone =>
    obtain ⟨t, ht, hpending⟩ := h call hcall
    cases ha : (t.advance d.world.input).1.takeAnswer? with
    | none =>
      rw [World.pollRead_none ht ha]
      exact ⟨_, rfl, (PlainTerminal.isSome_advance t d.world.input).trans hpending⟩
    | some taken =>
      rw [World.pollRead_some ht ha] at hnone
      cases hnone
  | stir hs => exact World.reads_of_stirs (h call hcall) hs

theorem serves_of_calls (ht : d₀.world.terminal = .plain t) (hp : t.pending = none)
    (hfree : d₀.reader = none) (h : Calls d₀ arrived finished d) :
    d.world.Serves (d₀.world.input.rest ++ arrived) (finished.map Prod.snd) ∧ d.Waits := by
  induction h with
  | refl =>
    rw [List.append_nil]
    refine ⟨World.serves_start ht hp, ?_⟩
    intro call hcall
    rw [hfree] at hcall
    cases hcall
  | tail _ hs ih =>
    obtain ⟨hserves, hwaits⟩ := ih
    obtain ⟨t, hplain⟩ := hserves.plain
    refine ⟨?_, waits_of_step hwaits hplain hs⟩
    have hnext := World.serves_of_goes hserves (goes_of_step hs)
    rwa [List.append_assoc, ← List.map_append] at hnext

/-- **The calls that finish get the answers of the input**, in order, one each, whichever calls were
given up and whenever. And the call whose turn it is waits only while the input is open and all that
is left of it is an unfinished line. -/
theorem answers_of_calls (ht : d₀.world.terminal = .plain t) (hp : t.pending = none)
    (hfree : d₀.reader = none) (h : Calls d₀ arrived finished d) :
    (∀ i call e, finished[i]? = some (call, e) →
      e = (answerAt (d₀.world.input.rest ++ arrived) i).map Event.ofLine?) ∧
    (∀ call text, d.reader = some call → (d.world.pollRead text).1.answer = none →
      d.world.input.closed = false ∧ (∀ x ∈ d.world.input.rest, x.ends = false) ∧
        (answersOf (d₀.world.input.rest ++ arrived)).drop finished.length =
          answersOf d.world.input.rest) := by
  obtain ⟨hserves, hwaits⟩ := serves_of_calls ht hp hfree h
  constructor
  · intro i call e hi
    refine World.answer_of_serves hserves ?_
    rw [List.getElem?_map, hi]
    rfl
  · intro call text hcall hnone
    obtain ⟨t, answers, hplain, hgives, hgiven⟩ := hserves
    obtain ⟨t', hplain', hpending⟩ := hwaits call hcall
    cases hplain.symm.trans hplain'
    cases ha : (t.advance d.world.input).1.takeAnswer? with
    | some taken =>
      rw [World.pollRead_some hplain ha] at hnone
      cases hnone
    | none =>
      obtain ⟨hr, hkept⟩ := PlainTerminal.readLine?_of_waiting hpending ha
      rw [hkept, List.append_nil] at hgives
      obtain ⟨hopen, hall, hrest⟩ := unfinished_of_waiting hgives hr
      have hlength : finished.length = answers.length := by
        rw [← List.length_map (f := Prod.snd), hgiven, List.length_map]
      refine ⟨hopen, hrest, ?_⟩
      rw [hall, hlength, List.drop_left]

end Desk

end CommandConsole
