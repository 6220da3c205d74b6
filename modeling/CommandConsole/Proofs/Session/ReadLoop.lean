import CommandConsole.Proofs.Session.Ledger
import Mathlib.Data.List.Induction

/-!
# The read loop of a shell

A shell on streams that do not fail, whose commands set no exit value, hands on exactly the commands
that are due after what it has heard: the loop is the continuation protocol, cut at interrupts. The
log of the shell agrees with its account (`Balanced`), and the account with what is due (`ledger`).

Results: `prompt_of_permitted`, `endOfInput_of_permitted`, `over_of_stands` (a shell at its prompts,
at the end of its input, and after it is over). Main statement: `readLoop_of_lives`.
-/

namespace CommandConsole.Session

open CommandLine Terminal

variable {console : Console} {s : Account}

/-! ## What the account says of the log -/

/-- The account of a log agrees with the log. -/
structure Balanced (console : Console) (log : List Entry) (s : Account) : Prop where
  handed : s.handed = dispatched log
  heard : events log = s.heard ++ if s.parting.isSome then [.endOfInput] else []
  endless : .endOfInput ∉ s.heard
  ahead : s.handed <+: due console.reader s.heard

variable {log : List Entry}

theorem events_snoc (log : List Entry) (x : Entry) :
    events (log ++ [x]) = events log ++ x.event?.toList := by
  rw [events_append]
  cases hx : x.event? <;> simp [events, hx]

theorem dispatched_snoc (log : List Entry) (x : Entry) :
    dispatched (log ++ [x]) = dispatched log ++ x.dispatched?.toList := by
  rw [dispatched_append]
  cases hx : x.dispatched? <;> simp [dispatched, hx]

/-- An entry that is neither an event nor words leaves the account as it is, apart from the count
after the end of input. -/
theorem Balanced.silent {x : Entry} {parting : Option Nat} (h : Balanced console log s)
    (he : x.event? = none) (hd : x.dispatched? = none) (hp : parting.isSome = s.parting.isSome) :
    Balanced console (log ++ [x]) { s with parting := parting } where
  handed := by rw [dispatched_snoc, hd, h.handed]; exact (List.append_nil _).symm
  heard := by rw [events_snoc, he, h.heard, hp]; exact List.append_nil _
  endless := h.endless
  ahead := h.ahead

theorem balanced_event {prompt : String} {e : Event} (h : Balanced console log s)
    (heven : s.Even console.reader) :
    Balanced console (log ++ [.asked (.event prompt) (.ok e)])
      (s.learn (.event prompt) (.ok e)) := by
  have hheard : events log = s.heard := by
    rw [h.heard, heven.1]
    exact List.append_nil _
  have hhanded : s.handed = dispatched (log ++ [.asked (.event prompt) (.ok e)]) := by
    rw [dispatched_snoc, h.handed]
    exact (List.append_nil _).symm
  have hevents : events (log ++ [.asked (.event prompt) (.ok e)]) = s.heard ++ [e] := by
    rw [events_snoc, hheard]
    rfl
  cases e with
  | endOfInput => exact ⟨hhanded, hevents, h.endless, h.ahead⟩
  | line text =>
    refine ⟨hhanded, ?_, by simpa [Account.learn] using h.endless, ?_⟩
    · simp [Account.learn, hevents, heven.1]
    · simp only [Account.learn, due_line]
      exact h.ahead.trans (List.prefix_append _ _)
  | interrupted =>
    refine ⟨hhanded, ?_, by simpa [Account.learn] using h.endless, ?_⟩
    · simp [Account.learn, hevents, heven.1]
    · simp only [Account.learn, due_interrupted]
      exact h.ahead.trans (List.prefix_append _ _)

theorem balanced_resolve {words : List String} {found : Except Failure Binding}
    (h : Balanced console log s) (hd : s.handed ++ [words] = due console.reader s.heard) :
    Balanced console (log ++ [.asked (.resolve words) found]) (s.learn (.resolve words) found) where
  handed := by rw [dispatched_snoc, ← h.handed]; rfl
  heard := by rw [events_snoc, h.heard]; exact List.append_nil _
  endless := h.endless
  ahead := by simp only [Account.learn, hd]; exact List.prefix_refl _

theorem balanced_snoc {x : Entry} (h : Balanced console log s)
    (hx : (ledger console).Permits s x) :
    Balanced console (log ++ [x]) ((ledger console).see s x) := by
  cases x with
  | asked r a =>
    cases r with
    | event prompt =>
      cases a with
      | ok e => exact balanced_event h hx
      | error fault => exact h.silent rfl rfl rfl
    | resolve words => exact balanced_resolve h hx.2
    | run b => exact h.silent rfl rfl rfl
    | write | flush | isCancelled | renew | exitValue | prompt =>
      exact h.silent rfl rfl (by cases s.parting <;> rfl)
  | began | used | ended => exact h.silent rfl rfl rfl

theorem balanced_of_permitted (h : (ledger console).Permitted log) :
    Balanced console log ((ledger console).view log) := by
  induction log using List.reverseRecOn with
  | nil => exact ⟨rfl, rfl, List.not_mem_nil, List.nil_prefix⟩
  | append_singleton log x ih =>
    rw [Rule.view_snoc]
    exact balanced_snoc (ih h.front) (h log x [] rfl)

/-- Where all that is due was handed on, the log shows it. -/
theorem Balanced.due_eq (h : Balanced console log s) (heven : s.Even console.reader) :
    s.heard = events log ∧ dispatched log = due console.reader (events log) := by
  have hheard : events log = s.heard := by
    rw [h.heard, heven.1]
    exact List.append_nil _
  rw [hheard, ← h.handed, heven.2]
  exact ⟨rfl, rfl⟩

/-- Words are never handed on before they are due. -/
theorem Balanced.prefix_due (h : Balanced console log s) :
    dispatched log <+: due console.reader (events log) := by
  rw [h.heard, ← h.handed]
  cases s.parting with
  | none => simpa using h.ahead
  | some n => simpa [due_endOfInput] using h.ahead

/-! ## After the end of input -/

theorem permits_of_parting {x : Entry} {n : Nat} (hx : (ledger console).Permits s x)
    (hp : s.parting = some n) :
    ((n = 0 ∧ ∃ a, x = .asked .exitValue a) ∨ (n = 1 ∧ ∃ a, x = .asked .flush a)) ∧
      ((ledger console).see s x).parting = some (n + 1) := by
  have hsome : s.parting ≠ none := by simp [hp]
  cases x with
  | asked r a =>
    cases r with
    | exitValue =>
      have hzero := hp.symm.trans (Or.resolve_left hx hsome)
      exact ⟨.inl ⟨by simpa using hzero, a, rfl⟩, by simp [Rule.see, ledger, Account.learn, hp]⟩
    | flush =>
      have hone := hp.symm.trans (Or.resolve_left hx hsome)
      exact ⟨.inr ⟨by simpa using hone, a, rfl⟩, by simp [Rule.see, ledger, Account.learn, hp]⟩
    | prompt => exact absurd hx.1.1 hsome
    | event => exact absurd hx.1 hsome
    | resolve => exact absurd hx.1 hsome
    | write | isCancelled | renew | run => exact absurd hx hsome
  | began b => exact absurd hx hsome
  | used | ended =>
    obtain ⟨b, hb⟩ := hx
    exact absurd hb hsome

/-- What a shell still asks for after the end of input. -/
def partings : List Entry :=
  [.asked .exitValue none, .asked .flush (.ok ())]

/-- Behind `n` of its partings a shell comes to no more than the others. -/
theorem prefix_partings {after : List Entry} {n : Nat}
    (h : (ledger console).Permitted (log ++ after))
    (hp : ((ledger console).view log).parting = some n)
    (hfair : (ledger console).FairIn after) : after <+: partings.drop n ∧
      ((ledger console).view (log ++ after)).parting = some (n + after.length) := by
  induction after generalizing log n with
  | nil =>
    rw [List.append_nil]
    exact ⟨List.nil_prefix, hp⟩
  | cons x rest ih =>
    obtain ⟨hx, hnext⟩ := permits_of_parting (h log x rest rfl) hp
    rw [← Rule.view_snoc] at hnext
    rw [List.append_cons] at h ⊢
    obtain ⟨hrest, hlast⟩ := ih h hnext fun r a hmem => hfair r a (List.mem_cons_of_mem _ hmem)
    rw [hlast, List.length_cons, Nat.add_right_comm, Nat.add_assoc]
    refine ⟨?_, rfl⟩
    rcases hx with ⟨rfl, a, rfl⟩ | ⟨rfl, a, rfl⟩
    · cases hfair _ _ List.mem_cons_self nofun
      exact List.cons_prefix_cons.mpr ⟨rfl, hrest⟩
    · cases hfair _ _ List.mem_cons_self nofun
      exact List.cons_prefix_cons.mpr ⟨rfl, hrest⟩

theorem dispatched_of_prefix_partings {after : List Entry} (h : after <+: partings) :
    dispatched after = [] := by
  obtain ⟨rest, hrest⟩ := h
  have hnone : dispatched (after ++ rest) = [] := by
    rw [hrest]
    rfl
  rw [dispatched_append] at hnone
  exact (List.append_eq_nil_iff.mp hnone).1

/-- After the end of input nothing holds a shell up until it is over. -/
theorem moves_of_parting {l : Level} {n : Nat} (h : (ledger console).Stands s l.phase)
    (hp : s.parting = some n) : (∃ result, l.phase = .over result) ∨
      ∀ w, ∃ l' w', l.step console w = .moved l' w' false := by
  have hsome : s.parting ≠ none := by simp [hp]
  match hl : l.phase with
  | .over result => exact .inl ⟨result, rfl⟩
  | .idle =>
    rw [hl] at h
    exact absurd (congrArg Account.parting h) hsome
  | .command .. | .nested .. =>
    rw [hl] at h
    obtain ⟨⟨b, hb⟩, -⟩ := h
    exact absurd hb hsome
  | .own plan =>
    rw [hl] at h
    refine .inr fun w => ?_
    unfold Level.step
    rw [hl]
    cases plan with
    | done x =>
      cases x with
      | again buffer => exact absurd h.1.1 hsome
      | ended result => exact ⟨_, _, rfl⟩
    | ask r next =>
      cases r with
      | exitValue | flush => exact ⟨_, _, rfl⟩
      | prompt => exact absurd h.1.1.1 hsome
      | event => exact absurd h.1.1 hsome
      | resolve => exact absurd h.1.1 hsome
      | write | isCancelled | renew | run => exact absurd h.1 hsome

/-! ## The read loop -/

/-- Streams that do not fail answer fairly. -/
theorem fairIn_of_streams (hstreams : ∀ x ∈ log, x.fault? = none)
    (hexit : ∀ a, .asked .exitValue a ∈ log → a = none) : (ledger console).FairIn log := by
  intro r a hmem hr
  have hfault := hstreams _ hmem
  cases r with
  | write | flush | prompt =>
    cases a with
    | ok => rfl
    | error fault => cases hfault
  | event =>
    cases a with
    | ok e => exact ⟨e, rfl⟩
    | error fault => cases hfault
  | exitValue => exact hexit a hmem
  | run b => exact absurd rfl (hr b)
  | isCancelled | renew | resolve => trivial

/-- At a prompt all that is due was handed on, and the prompt shows whether something is held. -/
theorem prompt_of_permitted {before after : List Entry} {text : String}
    {answer : Answer (.prompt text)} (h : (ledger console).Permitted log)
    (he : log = before ++ .asked (.prompt text) answer :: after) :
    .endOfInput ∉ events before ∧
      dispatched before = due console.reader (events before) ∧
      text = if held console.reader (events before) = "" then console.settings.prompt
        else console.settings.continuationPrompt := by
  obtain ⟨heven, htext⟩ : Account.Asks console ((ledger console).view before) (.prompt text) :=
    h before _ after he
  rw [he] at h
  have hbalanced := balanced_of_permitted h.front
  obtain ⟨hheard, hdue⟩ := hbalanced.due_eq heven
  have hendless := hbalanced.endless
  rw [hheard, ShellSettings.promptFor_eq] at htext
  rw [hheard] at hendless
  exact ⟨hendless, hdue, htext⟩

/-- At the end of input all that is due was handed on, and nothing is handed on after it. -/
theorem endOfInput_of_permitted {before after : List Entry} {prompt : String}
    (h : (ledger console).Permitted log) (hfair : (ledger console).FairIn log)
    (he : log = before ++ .asked (.event prompt) (.ok .endOfInput) :: after) :
    .endOfInput ∉ events before ∧
      dispatched log = due console.reader (events before) ∧
      after <+: partings ∧ ∃ n, ((ledger console).view log).parting = some n := by
  have heven : ((ledger console).view before).Even console.reader := h before _ after he
  rw [he, List.append_cons] at h hfair
  have hbalanced := balanced_of_permitted h.front.front
  obtain ⟨hheard, hdue⟩ := hbalanced.due_eq heven
  have hendless := hbalanced.endless
  rw [hheard] at hendless
  have hparting : ((ledger console).view
      (before ++ [.asked (.event prompt) (.ok .endOfInput)])).parting = some 0 := by
    rw [Rule.view_snoc]
    rfl
  obtain ⟨hafter, hlast⟩ := prefix_partings h hparting hfair.right
  have hnone := dispatched_of_prefix_partings hafter
  rw [he, List.append_cons]
  refine ⟨hendless, ?_, hafter, _, hlast⟩
  rw [dispatched_append, dispatched_append, hnone, List.append_nil, ← hdue]
  exact List.append_nil _

/-- A shell that is over has met the end of its input and handed on all that was due. -/
theorem over_of_stands {l : Level} {result : Except Failure ExitCode}
    (h : Balanced console log s) (hs : (ledger console).Stands s l.phase)
    (hp : l.phase = .over result) :
    result = .ok 0 ∧ ∃ es, .endOfInput ∉ es ∧ events log = es ++ [.endOfInput] ∧
      dispatched log = due console.reader es := by
  rw [hp] at hs
  obtain ⟨hparting, hdue, hresult⟩ := hs
  refine ⟨hresult, s.heard, h.endless, ?_, ?_⟩
  · rw [h.heard, hparting]
    rfl
  · rw [← h.handed, hdue]

/-- **The read loop is the continuation protocol, cut at interrupts.** On streams that do not fail
and with commands that set no exit value, whatever else becomes of the shell: at each prompt the
words handed on are those due after what was heard so far, and it is the continuation prompt exactly
if something is held; between two turns the buffer is what is held; no words are ever handed on before
they are due; the end of input ends the loop, and nothing is handed on after it; a shell that is over
has handed on what was due before its end of input. A malformed line leaves nothing held and adds
nothing that is due; an interrupt drops what is held, and what follows it is read as if it came
first. -/
theorem readLoop_of_lives {args : List String} {env : Environment} {l : Level}
    (hl : Level.Lives console (Level.shell console.settings args env) log l)
    (hstreams : ∀ x ∈ log, x.fault? = none)
    (hexit : ∀ x ∈ log, x.exitSet? = none) :
    (∀ before text answer after, log = before ++ .asked (.prompt text) answer :: after →
      .endOfInput ∉ events before ∧
      dispatched before = due console.reader (events before) ∧
      text = if held console.reader (events before) = "" then console.settings.prompt
        else console.settings.continuationPrompt) ∧
    (∀ buffer, l.phase = .own (.done (.again buffer)) →
      dispatched log = due console.reader (events log) ∧
      buffer = held console.reader (events log)) ∧
    (dispatched log <+: due console.reader (events log)) ∧
    (∀ before prompt after, log = before ++ .asked (.event prompt) (.ok .endOfInput) :: after →
      .endOfInput ∉ events before ∧
      dispatched log = due console.reader (events before) ∧
      after <+: [.asked .exitValue none, .asked .flush (.ok ())] ∧
      ((∃ result, l.phase = .over result) ∨
        ∀ w, ∃ l' w', l.step console w = .moved l' w' false)) ∧
    (∀ result, l.phase = .over result → result = .ok 0 ∧
      ∃ es, .endOfInput ∉ es ∧ events log = es ++ [.endOfInput] ∧
        dispatched log = due console.reader es) ∧
    (∀ es line report, console.reader (extendBuffer (held console.reader es) line) =
        .error report →
      due console.reader (es ++ [.line line]) = due console.reader es ∧
      held console.reader (es ++ [.line line]) = "") ∧
    (∀ es more, due console.reader (es ++ .interrupted :: more) =
        due console.reader es ++ due console.reader more ∧
      held console.reader (es ++ .interrupted :: more) = held console.reader more) := by
  obtain ⟨-, hnone⟩ := Level.exitValue_of_lives hl rfl hexit
  have hfair : (ledger console).FairIn log := fairIn_of_streams hstreams hnone
  have hk := Rule.kept_of_lives (upheld_ledger console) (keeps_greet console.settings) rfl hl hfair
    hstreams
  have hbalanced := balanced_of_permitted hk.permitted
  refine ⟨fun before text answer after he => prompt_of_permitted hk.permitted he,
    fun buffer hp => ?_, hbalanced.prefix_due, fun before prompt after he => ?_,
    fun result hp => over_of_stands hbalanced hk.stands hp, fun es line report hr => ?_,
    fun es more => ⟨due_interrupted _ es more, held_interrupted _ es more⟩⟩
  · have hstands := hk.stands
    rw [hp] at hstands
    obtain ⟨heven, hbuffer⟩ := hstands
    obtain ⟨hheard, hdue⟩ := hbalanced.due_eq heven
    rw [hheard] at hbuffer
    exact ⟨hdue, hbuffer⟩
  · obtain ⟨hendless, hdue, hafter, n, hparting⟩ :=
      endOfInput_of_permitted hk.permitted hfair he
    exact ⟨hendless, hdue, hafter, moves_of_parting hk.stands hparting⟩
  · rw [due_line, held_line, continueWith_error hr]
    exact ⟨List.append_nil _, rfl⟩

/-! ### A shell that is interrupted within a command -/

/-- A console that reads lines up to one that ends with a semicolon. -/
def semicolonConsole : Console where
  reader text := if text.endsWith ";" then .ok (.complete [text]) else .ok .needsMore
  settings := { greeting := "", prompt := "> ", continuationPrompt := ". " }

/-- Its shell as it begins. -/
def semicolonShell : Level :=
  { Level.shell semicolonConsole.settings [] {} with
    state := { executed := true, running := true }
    phase := .own (orClose (greet semicolonConsole.settings)) }

/-- A command of two lines, an interrupt after the first line of another, and one of one line. -/
def semicolonWorld : World where
  terminal := .scripted
    { cues := [.report (.ok (.line "a")), .report (.ok (.line "b;")), .report (.ok (.line "c")),
        .report (.ok .interrupted), .report (.ok (.line "d;"))] }

/-- The shell in that world. -/
def semicolonRun : List Entry × World × Level :=
  Level.follow semicolonConsole 40 semicolonWorld semicolonShell

theorem lives_semicolonRun : Level.Lives semicolonConsole
    (Level.shell semicolonConsole.settings [] {}) semicolonRun.1 semicolonRun.2.2 :=
  Level.lives_follow (l := semicolonShell) (.tail .refl (.execute rfl)) 40 semicolonWorld

/-- The prompt that an entry shows. -/
def Entry.prompt? : Entry → Option String
  | .asked (.prompt text) _ => some text
  | _ => none

/-- A log parts at each prompt it shows. -/
theorem exists_part_of_prompt (log : List Entry) (k : Nat)
    (h : (log[k]?.bind Entry.prompt?).isSome) :
    ∃ text answer, log = log.take k ++ .asked (.prompt text) answer :: log.drop (k + 1) := by
  cases hk : log[k]? with
  | none => simp [hk] at h
  | some x =>
    obtain ⟨hlt, hx⟩ := List.getElem?_eq_some_iff.mp hk
    have hlog : log = log.take k ++ x :: log.drop (k + 1) := by
      rw [← hx, ← List.drop_eq_getElem_cons hlt, List.take_append_drop]
    rw [hk, Option.bind_some] at h
    unfold Entry.prompt? at h
    split at h
    · exact ⟨_, _, hlog⟩
    · cases h

/-- The line that was interrupted is in neither of the two commands. Behind it stood the continuation
prompt, and after the interrupt the primary one. -/
theorem readLoop_semicolon :
    (∀ x ∈ semicolonRun.1, x.fault? = none) ∧ (∀ x ∈ semicolonRun.1, x.exitSet? = none) ∧
    semicolonRun.2.2.phase = .over (.ok 0) ∧
    dispatched semicolonRun.1 = [["a\nb;"], ["d;"]] ∧
    (∃ before answer after, semicolonRun.1 = before ++ .asked (.prompt ". ") answer :: after ∧
      events before = [.line "a", .line "b;", .line "c"]) ∧
    ∃ before answer after, semicolonRun.1 = before ++ .asked (.prompt "> ") answer :: after ∧
      events before = [.line "a", .line "b;", .line "c", .interrupted] := by
  have hstreams : ∀ x ∈ semicolonRun.1, x.fault? = none := by decide +kernel
  have hexit : ∀ x ∈ semicolonRun.1, x.exitSet? = none := by decide +kernel
  have hover : semicolonRun.2.2.phase = .over (.ok 0) :=
    Level.phase_eq_over semicolonConsole {} (by decide +kernel)
  have hevents : events semicolonRun.1 =
      [.line "a", .line "b;", .line "c", .interrupted, .line "d;"] ++ [.endOfInput] := by
    decide +kernel
  obtain ⟨hprompts, -, -, -, h, -, -⟩ := readLoop_of_lives lives_semicolonRun hstreams hexit
  obtain ⟨-, es, -, hes, hdue⟩ := h _ hover
  have heq := List.append_inj_left' (hevents.symm.trans hes) rfl
  rw [hdue, ← heq]
  refine ⟨hstreams, hexit, hover, by decide +kernel, ?_, ?_⟩
  · have hheard : events (semicolonRun.1.take 12) = [.line "a", .line "b;", .line "c"] := by
      decide +kernel
    obtain ⟨text, answer, hpart⟩ := exists_part_of_prompt semicolonRun.1 12 (by decide +kernel)
    obtain ⟨-, -, htext⟩ := hprompts _ _ _ _ hpart
    rw [hheard, if_neg (by decide +kernel)] at htext
    subst htext
    exact ⟨_, answer, _, hpart, hheard⟩
  · have hheard : events (semicolonRun.1.take 17) =
        [.line "a", .line "b;", .line "c", .interrupted] := by
      decide +kernel
    obtain ⟨text, answer, hpart⟩ := exists_part_of_prompt semicolonRun.1 17 (by decide +kernel)
    obtain ⟨-, -, htext⟩ := hprompts _ _ _ _ hpart
    rw [hheard, if_pos (by decide +kernel)] at htext
    subst htext
    exact ⟨_, answer, _, hpart, hheard⟩

end CommandConsole.Session
