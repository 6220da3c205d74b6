import CommandConsole.Proofs.Session.Due
import CommandConsole.Proofs.Session.Rule

/-!
# The account of a shell

What a shell has heard and handed on is its `Account`. `ledger` is the rule that every request of a
shell agrees with its account: at a prompt all that is due was handed on, words are handed on when
they are the next that are due, and after the end of input nothing is left but to close. It reckons
with streams that do not fail and commands that set no exit value.

Main statement: `upheld_ledger`.
-/

namespace CommandConsole.Session

open CommandLine Terminal

/-- What a shell has heard and handed on. -/
structure Account where
  /-- The lines and interrupts heard. -/
  heard : List Event := []
  /-- The words handed on. -/
  handed : List (List String) := []
  /-- How much was asked since the end of input; none before it. -/
  parting : Option Nat := none

namespace Account

/-- The account after one more answer. -/
def learn (s : Account) : (r : Request) → Answer r → Account
  | .event _, .ok .endOfInput => { s with parting := some 0 }
  | .event _, .ok e => { s with heard := s.heard ++ [e] }
  | .event _, .error _ | .run _, _ => s
  | .resolve words, _ => { s with handed := s.handed ++ [words] }
  | _, _ => { s with parting := s.parting.map (· + 1) }

/-- All that is due was handed on, and there may be more to hear. -/
def Even (reader : Reader) (s : Account) : Prop :=
  s.parting = none ∧ s.handed = due reader s.heard

/-- What a shell may ask for. After the end of input that is the exit value and a flush. -/
def Asks (console : Console) (s : Account) : Request → Prop
  | .prompt text =>
    s.Even console.reader ∧ text = console.settings.promptFor (held console.reader s.heard)
  | .event _ => s.Even console.reader
  | .resolve words => s.parting = none ∧ s.handed ++ [words] = due console.reader s.heard
  | .exitValue => s.parting = none ∨ s.parting = some 0
  | .flush => s.parting = none ∨ s.parting = some 1
  | .write _ | .isCancelled | .renew | .run _ => s.parting = none

/-- How a part of a shell may end. -/
def Closes (console : Console) (s : Account) : Next → Prop
  | .again buffer => s.Even console.reader ∧ buffer = held console.reader s.heard
  | .ended result =>
    s.parting = some 2 ∧ s.handed = due console.reader s.heard ∧ result = .ok 0

end Account

/-- The answers of streams that do not fail, while no exit value is set. -/
def Fair : (r : Request) → Answer r → Prop
  | .write _, a | .flush, a | .prompt _, a => a = .ok ()
  | .event _, a => ∃ e, a = .ok e
  | .exitValue, a => a = none
  | .run _, a => Settled a
  | .isCancelled, _ | .renew, _ | .resolve _, _ => True

/-- The rule that every request of a shell agrees with the account so far. -/
def ledger (console : Console) : Rule Account where
  start := {}
  learn := Account.learn
  fair := Fair
  asks := Account.Asks console
  ends := Account.Closes console
  learn_run _ _ _ := rfl

/-- The requests that make nothing known before the end of input. -/
def Quiet : Request → Prop
  | .write _ | .flush | .isCancelled | .renew | .exitValue | .run _ => True
  | .prompt _ | .event _ | .resolve _ => False

variable {console : Console} {s : Account} {buffer : String}

/-! ## The parts of a shell keep the rule -/

theorem learn_other (hp : s.parting = none) :
    ({ s with parting := s.parting.map (· + 1) } : Account) = s := by
  rw [hp]
  cases s
  cases hp
  rfl

theorem keeps_quiet {r : Request} {next : Answer r → Plan Next} (hr : Quiet r)
    (hp : s.parting = none) (h : ∀ a, Fair r a → (ledger console).Keeps s (next a)) :
    (ledger console).Keeps s (.ask r next) := by
  refine ⟨?_, fun a ha => ?_⟩
  · cases r with
    | prompt | event | resolve => cases hr
    | exitValue | flush => exact .inl hp
    | write | isCancelled | renew | run => exact hp
  · have hlearn : s.learn r a = s := by
      cases r with
      | prompt | event | resolve => cases hr
      | run => rfl
      | write | isCancelled | renew | exitValue | flush => exact learn_other hp
    have hkeeps := h a ha
    rwa [← hlearn] at hkeeps

/-- A part ends with what is held as the buffer. -/
theorem keeps_again (h : s.Even console.reader) (hb : buffer = held console.reader s.heard) :
    (ledger console).Keeps s (.done (.again buffer)) :=
  ⟨h, hb⟩

/-- A shell that has met the end of its input closes with code 0. -/
theorem keeps_close (hp : s.parting = some 0) (he : s.handed = due console.reader s.heard) :
    (ledger console).Keeps s (close none) := by
  refine ⟨.inr hp, ?_⟩
  rintro _ rfl
  refine ⟨.inr (by simp [ledger, Account.learn, hp]), ?_⟩
  rintro _ rfl
  exact ⟨by simp [ledger, Account.learn, hp], he, rfl⟩

/-- After an interrupt the shell holds nothing, and nothing more is due. -/
theorem keeps_hearInterrupt (h : s.Even console.reader) :
    (ledger console).Keeps { s with heard := s.heard ++ [.interrupted] }
      (orClose hearInterrupt) := by
  refine keeps_quiet (r := .renew) trivial h.1 fun _ _ => ?_
  refine keeps_quiet (r := .write _) trivial h.1 ?_
  rintro _ rfl
  refine keeps_again ⟨h.1, ?_⟩ (held_interrupted console.reader s.heard []).symm
  rw [due_interrupted, h.2]
  exact (List.append_nil _).symm

/-- Words that are due are handed on once, whatever becomes of their command. -/
theorem keeps_dispatch {words : List String} (hp : s.parting = none)
    (hd : s.handed ++ [words] = due console.reader s.heard)
    (hb : buffer = held console.reader s.heard) :
    (ledger console).Keeps s (orClose do dispatch words; return some buffer) := by
  refine ⟨⟨hp, hd⟩, fun found _ => ?_⟩
  have heven : (s.learn (.resolve words) found).Even console.reader := ⟨hp, hd⟩
  cases found with
  | error e => exact keeps_quiet (r := .write _) trivial hp fun _ _ => keeps_again heven hb
  | ok b =>
    refine keeps_quiet (r := .run b) trivial hp fun result hresult => ?_
    rcases hresult with ⟨code, rfl⟩ | rfl
    · refine keeps_quiet (r := .isCancelled) trivial hp fun cancelled _ => ?_
      cases cancelled with
      | true => exact keeps_quiet (r := .renew) trivial hp fun _ _ => keeps_again heven hb
      | false => exact keeps_again heven hb
    · refine keeps_quiet (r := .flush) trivial hp ?_
      rintro _ rfl
      refine keeps_quiet (r := .write _) trivial hp ?_
      rintro _ rfl
      exact keeps_quiet (r := .renew) trivial hp fun _ _ => keeps_again heven hb

/-- A line does what the continuation protocol says. -/
theorem keeps_hearLine (h : s.Even console.reader) (line : String) :
    (ledger console).Keeps { s with heard := s.heard ++ [.line line] }
      (orClose (hearLine console (held console.reader s.heard) line)) := by
  have hheld := held_line console.reader s.heard line
  have hdue := due_line console.reader s.heard line
  rw [← h.2] at hdue
  unfold hearLine
  cases hc : continueWith console.reader (held console.reader s.heard) line with
  | mk answer kept =>
    rw [hc] at hheld hdue
    match answer with
    | .error report =>
      refine keeps_quiet (r := .write _) trivial h.1 ?_
      rintro _ rfl
      exact keeps_again ⟨h.1, by simpa [commandOf?] using hdue.symm⟩ hheld.symm
    | .ok .needsMore => exact keeps_again ⟨h.1, by simpa [commandOf?] using hdue.symm⟩ hheld.symm
    | .ok (.complete []) =>
      exact keeps_again ⟨h.1, by simpa [commandOf?] using hdue.symm⟩ hheld.symm
    | .ok (.complete (word :: words)) => exact keeps_dispatch h.1 hdue.symm hheld.symm

/-- One turn. -/
theorem keeps_turn (h : s.Even console.reader) :
    (ledger console).Keeps s (orClose (turn console (held console.reader s.heard))) := by
  refine keeps_quiet (r := .exitValue) trivial h.1 ?_
  rintro _ rfl
  refine ⟨⟨h, rfl⟩, ?_⟩
  rintro _ rfl
  have hlearn : s.learn (.prompt (console.settings.promptFor (held console.reader s.heard)))
      (.ok ()) = s := learn_other h.1
  simp only [ledger, hlearn]
  refine ⟨h, ?_⟩
  rintro _ ⟨e, rfl⟩
  cases e with
  | line line => exact keeps_hearLine h line
  | endOfInput => exact keeps_close rfl h.2
  | interrupted => exact keeps_hearInterrupt h

/-- Before the first turn. -/
theorem keeps_greet (settings : ShellSettings) :
    (ledger console).Keeps {} (orClose (greet settings)) := by
  have heven : ({} : Account).Even console.reader := ⟨rfl, (due_nil console.reader).symm⟩
  unfold greet
  cases settings.greeting? with
  | none => exact keeps_again heven (held_nil console.reader).symm
  | some greeting =>
    refine keeps_quiet (r := .write _) trivial rfl ?_
    rintro _ rfl
    exact keeps_again heven (held_nil console.reader).symm

/-- **Each part of a shell keeps the rule.** -/
theorem upheld_ledger (console : Console) : (ledger console).Upheld console where
  commands := ends_perform
  again s buffer h := by
    obtain ⟨heven, rfl⟩ := h
    exact keeps_turn heven

end CommandConsole.Session
