import CommandConsole.Proofs.Session.Law
import Mathlib.Data.List.Induction

/-!
# What a shell handles before it goes on

A command leaves something to be handled: it may have been cancelled, and then the shell renews
itself, unless it looked and the command was not cancelled. An interrupt at the prompt leaves the
same. `handling` is the law that a shell goes on to its next prompt or command when nothing is left,
and that it looks for a cancellation only behind a command.

Main statements: `upheld_handling`, `handled_of_view`.
-/

namespace CommandConsole.Session

/-- What is left to be handled. -/
inductive Concern where
  | nothing
  /-- An interrupt at the prompt. -/
  | prompt
  /-- A command, which runs or has ended. -/
  | command
  deriving DecidableEq, Repr

/-- Whether an entry leaves something to be handled: it is of a command, or an interrupt at the
prompt. -/
def Entry.pends : Entry → Bool
  | .began _ | .used .. | .ended _ => true
  | .asked (.event _) (.ok .interrupted) => true
  | _ => false

/-- Whether all is handled with an entry: the session has renewed itself, or looked and was not
cancelled. -/
def Entry.handles : Entry → Bool
  | .asked .renew _ => true
  | .asked .isCancelled false => true
  | _ => false

/-- What is left after an entry. -/
def Concern.see (s : Concern) : Entry → Concern
  | .began _ | .used .. | .ended _ => .command
  | .asked (.event _) (.ok .interrupted) => .prompt
  | .asked .renew _ => .nothing
  | .asked .isCancelled false => .nothing
  | _ => s

/-- What may be asked for with so much left. -/
def Concern.Asks (s : Concern) : Request → Prop
  | .prompt _ | .event _ | .run _ => s = .nothing
  | .isCancelled => s = .command
  | .write _ | .flush | .renew | .exitValue | .resolve _ => True

/-- How a part may end with so much left. -/
def Concern.Ends (s : Concern) : Next → Prop
  | .again _ => s = .nothing
  | .ended _ => True

/-- The law that all is handled before the next prompt or command. -/
def handling : Law Concern where
  start := .nothing
  see := Concern.see
  asks := Concern.Asks
  runs s := s = .command
  ends := Concern.Ends

variable {console : Console} {s : Concern} {buffer : String}

/-! ## The parts of a shell keep the law -/

theorem handling_close (failure : Option Failure) : handling.Keeps s (close failure) := by
  cases failure with
  | none =>
    refine Law.keeps_ask (r := .exitValue) nofun trivial fun _ => ?_
    exact Law.keeps_ask (r := .flush) nofun trivial fun _ => trivial
  | some e =>
    refine Law.keeps_ask (r := .write _) nofun trivial fun _ => ?_
    exact Law.keeps_ask (r := .flush) nofun trivial fun _ => trivial

/-- A line is written, and what follows may be another turn if nothing is left. -/
theorem handling_print {text buffer : String} (hs : s = .nothing) :
    handling.Keeps s (orClose do print text; return some buffer) := by
  refine Law.keeps_ask (r := .write _) nofun trivial fun a => ?_
  cases a with
  | ok => exact hs
  | error fault => exact handling_close _

theorem handling_hearInterrupt : handling.Keeps s (orClose hearInterrupt) := by
  refine Law.keeps_ask (r := .renew) nofun trivial fun _ => ?_
  exact handling_print rfl

/-- The shell renews itself after a command that was cancelled. -/
theorem handling_dispatch {words : List String} (hs : s = .nothing) :
    handling.Keeps s (orClose do dispatch words; return some buffer) := by
  subst hs
  refine Law.keeps_ask (r := .resolve words) nofun trivial fun found => ?_
  cases found with
  | error e => exact Law.keeps_ask (r := .write _) nofun trivial fun _ => rfl
  | ok b =>
    refine Law.keeps_run (b := b) rfl fun es result _ hperformed => ?_
    cases hperformed with
    | ended code =>
      refine Law.keeps_ask (r := .isCancelled) nofun rfl fun cancelled => ?_
      cases cancelled with
      | true => exact Law.keeps_ask (r := .renew) nofun trivial fun _ => rfl
      | false => exact rfl
    | interrupted =>
      refine Law.keeps_ask (r := .flush) nofun trivial fun a => ?_
      cases a with
      | error fault => exact handling_close _
      | ok =>
        refine Law.keeps_ask (r := .write _) nofun trivial fun a => ?_
        cases a with
        | error fault => exact handling_close _
        | ok => exact Law.keeps_ask (r := .renew) nofun trivial fun _ => rfl
    | unreported => exact handling_close _

theorem handling_hearLine (hs : s = .nothing) (line : String) :
    handling.Keeps s (orClose (hearLine console buffer line)) := by
  unfold hearLine
  cases CommandLine.continueWith console.reader buffer line with
  | mk answer kept =>
    match answer with
    | .error report => exact handling_print hs
    | .ok .needsMore => exact hs
    | .ok (.complete []) => exact hs
    | .ok (.complete (word :: words)) => exact handling_dispatch hs

theorem handling_turn (hs : s = .nothing) :
    handling.Keeps s (orClose (turn console buffer)) := by
  refine Law.keeps_ask (r := .exitValue) nofun trivial fun value => ?_
  cases value with
  | some value => exact handling_close none
  | none =>
    refine Law.keeps_ask (r := .prompt _) nofun hs fun shown => ?_
    cases shown with
    | error fault => exact handling_close _
    | ok =>
      refine Law.keeps_ask (r := .event _) nofun hs fun answer => ?_
      cases answer with
      | error fault => exact handling_close _
      | ok e =>
        cases e with
        | line line => exact handling_hearLine hs line
        | endOfInput => exact handling_close none
        | interrupted => exact handling_hearInterrupt

theorem handling_greet (settings : ShellSettings) :
    handling.Keeps .nothing (orClose (greet settings)) := by
  unfold greet
  cases settings.greeting? with
  | none => exact rfl
  | some greeting => exact handling_print rfl

/-- **Each part of a shell handles what is left** before it goes on. -/
theorem upheld_handling (console : Console) : handling.Upheld console where
  began _ _ _ := rfl
  used _ _ _ _ := rfl
  again _ _ h := handling_turn h

/-! ## What it says of the log -/

/-- Whatever a log has left to be handled was handled in it. -/
def Handled (log : List Entry) : Prop :=
  ∀ before x after, log = before ++ x :: after → x.pends = true → ∃ y ∈ after, y.handles = true

theorem pends_eq_false_of_handles {x : Entry} (h : x.handles = true) : x.pends = false := by
  unfold Entry.handles at h
  split at h
  · rfl
  · rfl
  · cases h

theorem handled_snoc {log : List Entry} {x : Entry} (h : Handled log) (hx : x.pends = false) :
    Handled (log ++ [x]) := by
  intro before y after he hy
  obtain ⟨-, rfl, -⟩ | ⟨rest, rfl, hpart⟩ := cut_snoc he
  · rw [hx] at hy
    cases hy
  · obtain ⟨u, hu, hhandles⟩ := h before y rest hpart hy
    exact ⟨u, List.mem_append_left _ hu, hhandles⟩

/-- An entry that handles all that came before it. -/
theorem handled_of_handles {log : List Entry} {x : Entry} (hx : x.handles = true) :
    Handled (log ++ [x]) := by
  intro before y after he hy
  obtain ⟨-, rfl, -⟩ | ⟨rest, rfl, -⟩ := cut_snoc he
  · rw [pends_eq_false_of_handles hx] at hy
    cases hy
  · exact ⟨x, by simp, hx⟩

/-- What handles nothing leaves nothing either, if all was handled. -/
theorem Handled.of_append {log later : List Entry} (h : Handled (log ++ later))
    (hlater : ∀ y ∈ later, y.handles = false) : Handled log ∧ ∀ y ∈ later, y.pends = false := by
  constructor
  · intro before x after he hx
    obtain ⟨y, hy, hhandles⟩ := h before x (after ++ later) (by rw [he]; simp) hx
    rcases List.mem_append.mp hy with hy | hy
    · exact ⟨y, hy, hhandles⟩
    · rw [hlater y hy] at hhandles
      cases hhandles
  · intro x hx
    obtain ⟨before, after, rfl⟩ := List.append_of_mem hx
    refine Bool.eq_false_iff.mpr fun hpends => ?_
    obtain ⟨y, hy, hhandles⟩ := h (log ++ before) x after (by simp) hpends
    rw [hlater y (by simp [hy])] at hhandles
    cases hhandles

/-- Nothing is left behind an entry that handles it, or that leaves nothing more than before. -/
theorem see_eq_nothing {x : Entry} (h : s.see x = .nothing) :
    x.handles = true ∨ x.pends = false ∧ s = .nothing := by
  cases x with
  | began | used | ended => cases h
  | asked r a =>
    cases r with
    | renew => exact .inl rfl
    | isCancelled =>
      cases a with
      | false => exact .inl rfl
      | true => exact .inr ⟨rfl, h⟩
    | event prompt =>
      match a with
      | .error fault => exact .inr ⟨rfl, h⟩
      | .ok .interrupted => cases h
      | .ok (.line text) => exact .inr ⟨rfl, h⟩
      | .ok .endOfInput => exact .inr ⟨rfl, h⟩
    | write | flush | exitValue | prompt | resolve | run => exact .inr ⟨rfl, h⟩

/-- **Where nothing is left, all of the log was handled.** -/
theorem handled_of_view {log : List Entry} (h : handling.view log = .nothing) : Handled log := by
  induction log using List.reverseRecOn with
  | nil => intro before x after he; simp at he
  | append_singleton log x ih =>
    rw [Law.view_append] at h
    rcases see_eq_nothing h with hx | ⟨hx, hs⟩
    · exact handled_of_handles hx
    · exact handled_snoc (ih hs) hx

end CommandConsole.Session
