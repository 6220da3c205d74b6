import CommandConsole.Proofs.Session.Scenes
import CommandConsole.Proofs.Session.Stack
import Mathlib.Data.List.Induction

/-!
# Shells nested in one another

A shell on a terminal that tells its lines reads them one by one, and so does every shell nested in
it, for they share the terminal. A `subshell` suspends its shell in the middle of a turn, so that a
run is no loop of any one shell. What is proved goes from scene to scene instead: the shells that
wait are a list, each of which goes on with its next turn once the session nested in it has ended
with a code (`Waits`), and an induction on the lines takes the innermost one through its turns.

That no stream fails and nobody interrupts is in `World.Calm` and in the steps that a run takes of
itself. The script is one of built-in commands (`OfBuiltins`); its lines may also be unfinished,
malformed or empty, or name no command.

Results: `leads_return` (the end of a nested shell), `resolve_of_lookup` (what a command does),
`leads_interpret` (any number of lines, at any depth). Main statement: `play_of_script`.
-/

namespace CommandConsole

open Session CommandLine

/-- The scene in which the outermost shell has ended. -/
def Session.Ending.scene (e : Ending) : Scene :=
  ⟨[], e.value, .over (.ok (e.value.getD 0)), false, e.unread⟩

/-- Every line that names a command names a built-in one, or none. -/
def OfBuiltins (console : Console) (buffer : String) (lines : List String) : Prop :=
  ∀ answer ∈ answersFrom console.reader buffer lines, ∀ name ∈ (wordsOf answer).head?,
    console.registry.lookup name = Builtin.command? name

namespace Run

variable {console : Console} {outer : List Level} {value : Option ExitCode} {asked : Bool}
  {lines : List String} {beats : List Beat} {t : Scene} {buffer line : String}

/-! ## The turns of a shell -/

theorem leads_greet
    (h : Leads console ⟨outer, none, .own (orClose (turn console "")), asked, lines⟩ beats t) :
    Leads console ⟨outer, none, .own (orClose (greet console.settings)), asked, lines⟩ beats t := by
  unfold greet
  cases console.settings.greeting? with
  | none => exact leads_again h
  | some greeting => exact leads_ask (.write _ _ _) rfl (leads_again h)

/-- A shell ends with its exit value, or with 0. -/
theorem leads_ending
    (h : Leads console ⟨outer, value, .over (.ok (value.getD 0)), asked, lines⟩ beats t) :
    Leads console ⟨outer, value, .own (close none), asked, lines⟩ beats t :=
  leads_ask (.exitValue _ _) rfl (leads_ask (.flush _ _) rfl (leads_finish h))

/-- A shell with an exit value reads no more lines. -/
theorem leads_turn_set {x : ExitCode}
    (h : Leads console ⟨outer, some x, .over (.ok x), asked, lines⟩ beats t) :
    Leads console ⟨outer, some x, .own (orClose (turn console buffer)), asked, lines⟩ beats t :=
  leads_ask (.exitValue _ _) rfl (leads_ending h)

/-- At the end of input a shell ends with 0. -/
theorem leads_turn_nil (h : Leads console ⟨outer, none, .over (.ok 0), false, []⟩ beats t) :
    Leads console ⟨outer, none, .own (orClose (turn console buffer)), false, []⟩ beats t :=
  leads_ask (.exitValue _ _) rfl (leads_ask (.prompt _ _ _) rfl
    (leads_ask (.event _ _) rfl (leads_ending h)))

/-- A shell hears the next line. -/
theorem leads_turn_cons
    (h : Leads console ⟨outer, none, .own (orClose (hearLine console buffer line)), false, lines⟩
      beats t) :
    Leads console ⟨outer, none, .own (orClose (turn console buffer)), false, line :: lines⟩
      (⟨outer.map Level.exitValue ++ [none], .line line⟩ :: beats) t :=
  leads_ask (.exitValue _ _) rfl (leads_ask (.prompt _ _ _) rfl (leads_line h))

/-! ## Lines -/

/-- A line without words for a command leaves its shell with what it keeps. -/
theorem leads_wordless {answer : Except Malformed Outcome} {kept : String}
    (hline : continueWith console.reader buffer line = (answer, kept))
    (hwords : wordsOf answer = [])
    (h : Leads console ⟨outer, none, .own (orClose (turn console kept)), false, lines⟩ beats t) :
    Leads console ⟨outer, none, .own (orClose (hearLine console buffer line)), false, lines⟩
      beats t := by
  unfold hearLine
  rw [hline]
  match answer with
  | .error report => exact leads_ask (.write _ _ _) rfl (leads_again h)
  | .ok .needsMore => exact leads_again h
  | .ok (.complete []) => exact leads_again h
  | .ok (.complete (_ :: _)) => cases hwords

/-- A line that names no command is answered by the shell itself. -/
theorem leads_unresolved {words : List String} {e : Failure} {kept : String}
    (hline : continueWith console.reader buffer line = (.ok (.complete words), kept))
    (hwords : words ≠ []) (hresolve : console.resolve (.words words) = .error e)
    (h : Leads console ⟨outer, none, .own (orClose (turn console kept)), false, lines⟩ beats t) :
    Leads console ⟨outer, none, .own (orClose (hearLine console buffer line)), false, lines⟩
      beats t := by
  have hanswer : Answers console none (.resolve words) (.error e) false lines false lines := by
    rw [← hresolve]
    exact .resolve words false lines
  unfold hearLine
  rw [hline]
  match words with
  | [] => exact absurd rfl hwords
  | name :: args => exact leads_ask hanswer rfl (leads_ask (.write _ _ _) rfl (leads_again h))

/-- Behind a command that has ended with a code, a shell goes on with its next turn. -/
def Resumes (console : Console) (kept : String) (next : Except Failure ExitCode → Plan Next) :
    Prop :=
  ∀ code outer value asked lines beats t,
    Leads console ⟨outer, value, .own (orClose (turn console kept)), asked, lines⟩ beats t →
    Leads console ⟨outer, value, .own (next (.ok code)), asked, lines⟩ beats t

/-- A line runs the command it names. -/
theorem leads_resolved {words : List String} {b : Binding} {kept : String}
    (hline : continueWith console.reader buffer line = (.ok (.complete words), kept))
    (hwords : words ≠ []) (hresolve : console.resolve (.words words) = .ok b)
    (h : ∀ (inv : Command.Invocation) (next : Except Failure ExitCode → Plan Next),
      inv.shell.isSome = true → inv.reference = console.reference → Resumes console kept next →
      Leads console ⟨outer, none, .command (b.perform inv).run next, false, lines⟩ beats t) :
    Leads console ⟨outer, none, .own (orClose (hearLine console buffer line)), false, lines⟩
      (⟨outer.map Level.exitValue ++ [none], .began b.name b.args⟩ :: beats) t := by
  have hanswer : Answers console none (.resolve words) (.ok b) false lines false lines := by
    rw [← hresolve]
    exact .resolve words false lines
  unfold hearLine
  rw [hline]
  match words with
  | [] => exact absurd rfl hwords
  | name :: args =>
    refine leads_ask hanswer rfl (leads_run fun inv hshell hreference => ?_)
    refine h inv _ hshell hreference fun code outer value asked lines beats t hmore => ?_
    exact leads_ask (.isCancelled _ _) rfl (leads_again hmore)

/-! ## Any number of lines -/

/-- A shell that waits for a nested one, opened by a command of it. -/
def Waits (console : Console) (o : Level) : Prop :=
  ∃ resume next, o.At none (.nested resume next) ∧
    (∀ code, resume (.ok code) = .done (.ok code)) ∧ Resumes console "" next

theorem exitValues_of_waits (h : ∀ o ∈ outer, Waits console o) :
    outer.map Level.exitValue = List.replicate outer.length none := by
  rw [List.eq_replicate_iff, List.length_map]
  refine ⟨rfl, fun value hvalue => ?_⟩
  obtain ⟨o, ho, rfl⟩ := List.mem_map.mp hvalue
  obtain ⟨_, _, hat, -⟩ := h o ho
  exact hat.value

/-- **A nested shell that has ended** gives its code to the command that opened it, and the shell of
that command reads the next line. -/
theorem leads_return {o : Level} (h : ∀ m ∈ outer ++ [o], Waits console m)
    (hmore : Leads console ⟨outer, none, .own (orClose (turn console "")), asked, lines⟩ beats t) :
    Leads console ⟨outer ++ [o], value, .over (.ok (value.getD 0)), asked, lines⟩
      (returning outer.length value ++ beats) t := by
  obtain ⟨houter, ho⟩ := List.forall_mem_append.mp h
  obtain ⟨resume, next, hat, hresume, hnext⟩ := ho o List.mem_cons_self
  have hended := leads_ended (hnext (value.getD 0) _ _ _ _ _ _ hmore)
  rw [← hresume, exitValues_of_waits houter] at hended
  rw [returning, Beat.under, ← List.length_singleton (a := o), ← List.length_append,
    ← exitValues_of_waits h]
  exact leads_close hat hended

/-- At the end of input all shells end. -/
theorem leads_closings (h : ∀ o ∈ outer, Waits console o) :
    Leads console ⟨outer, none, .over (.ok 0), false, []⟩ (closings outer.length)
      ⟨[], none, .over (.ok 0), false, []⟩ := by
  induction outer using List.reverseRecOn with
  | nil => exact Leads.refl _
  | append_singleton outer o ih =>
    obtain ⟨houter, -⟩ := List.forall_mem_append.mp h
    rw [List.length_append]
    exact leads_return h (leads_turn_nil (ih houter))

theorem kept_of_words {answer : Except Malformed Outcome} {kept : String}
    (hline : continueWith console.reader buffer line = (answer, kept))
    (hwords : wordsOf answer ≠ []) :
    answer = .ok (.complete (wordsOf answer)) ∧ kept = "" := by
  match answer with
  | .error _ | .ok .needsMore => exact absurd rfl hwords
  | .ok (.complete words) =>
    refine ⟨rfl, ?_⟩
    have hanswer := congrArg Prod.fst hline
    rw [continueWith_fst] at hanswer
    rw [continueWith_complete hanswer] at hline
    exact (Prod.mk.inj hline).2.symm

/-- **What a line of words does**: a built-in command is found and does its deed, or there is no
command of the name. -/
theorem resolve_of_lookup {name : String} {args : List String}
    {answer : Except Malformed Outcome} (hwords : wordsOf answer = name :: args)
    (hlookup : console.registry.lookup name = Builtin.command? name) :
    (∃ command deed, console.resolve (.words (name :: args)) = .ok ⟨command, name, args⟩ ∧
      bidden? console answer = some (name, args, deed) ∧
      ∀ inv : Command.Invocation, inv.shell.isSome = true → inv.reference = console.reference →
        deed.Does ((⟨command, name, args⟩ : Binding).perform inv).run) ∨
    ∃ e, console.resolve (.words (name :: args)) = .error e ∧ bidden? console answer = none := by
  have hresolve : console.resolve (.words (name :: args)) =
      Binding.ofWords console.registry (name :: args) := rfl
  rw [hresolve, Binding.ofWords, hlookup, bidden?, hwords]
  simp only [Option.map_eq_none_iff, Option.map_eq_some_iff]
  cases hcommand : Builtin.command? name with
  | none =>
    refine .inr ?_
    split
    · exact ⟨_, rfl, Builtin.deed?_of_none hcommand⟩
    · exact ⟨_, rfl, Builtin.deed?_of_none hcommand⟩
  | some command =>
    have hempty : ¬ console.registry.isEmpty = true := by
      intro he
      have hnone := Registry.isEmpty_iff.mp he name
      rw [hlookup, hcommand] at hnone
      cases hnone
    rw [if_neg hempty]
    obtain ⟨deed, hdeed, hdoes⟩ := Builtin.does_of_command?
      (fun topic => (console.reference.lookup topic).isSome) args hcommand
    refine .inl ⟨command, deed, rfl, ⟨deed, hdeed, rfl⟩, fun inv hshell hreference => ?_⟩
    exact hdoes inv hshell fun topic => by rw [hreference]

section Bidden

variable {script : Command.Script (Except Failure ExitCode)}
  {next : Except Failure ExitCode → Plan Next} {x : ExitCode}

/-- A line runs a built-in command, which does its deed. -/
theorem leads_bidden {command : Command} {name : String} {args : List String}
    {deed : Builtin.Deed} {kept : String}
    (hline : continueWith console.reader buffer line = (.ok (.complete (name :: args)), kept))
    (hresolve : console.resolve (.words (name :: args)) = .ok ⟨command, name, args⟩)
    (hdoes : ∀ inv : Command.Invocation, inv.shell.isSome = true →
      inv.reference = console.reference →
      deed.Does ((⟨command, name, args⟩ : Binding).perform inv).run)
    (h : ∀ script next, deed.Does script → Resumes console kept next →
      Leads console ⟨outer, none, .command script next, false, lines⟩ beats t) :
    Leads console ⟨outer, none, .own (orClose (turn console buffer)), false, line :: lines⟩
      (⟨outer.map Level.exitValue ++ [none], .line line⟩ ::
        ⟨outer.map Level.exitValue ++ [none], .began name args⟩ :: beats) t := by
  refine leads_turn_cons (leads_resolved hline (List.cons_ne_nil _ _) hresolve ?_)
  intro inv next hshell hreference hnext
  exact h _ next (hdoes inv hshell hreference) hnext

/-- A command that ends with a code of its own. -/
theorem leads_answers {code : ExitCode} {kept : String}
    (hscript : Builtin.Deed.Does script (.answers code)) (hnext : Resumes console kept next)
    (h : Leads console ⟨outer, none, .own (orClose (turn console kept)), asked, lines⟩ beats t) :
    Leads console ⟨outer, none, .command script next, asked, lines⟩
      (⟨outer.map Level.exitValue ++ [none], .ended (.ok code)⟩ :: beats) t :=
  leads_script (hscript none) (hnext _ _ _ _ _ _ _ h)

/-- A command that opens a nested shell. -/
theorem leads_opens (hscript : Builtin.Deed.Does script .opens) (hnext : Resumes console "" next)
    (h : ∀ o, Waits console o →
      Leads console ⟨outer ++ [o], none, .own (orClose (turn console "")), asked, lines⟩ beats t) :
    Leads console ⟨outer, none, .command script next, asked, lines⟩
      (⟨outer.map Level.exitValue ++ [none], .opened⟩ :: beats) t := by
  obtain ⟨args, more, rfl, hmore⟩ := hscript
  exact leads_open fun o ho => leads_greet (h o ⟨more, next, ho, hmore, hnext⟩)

/-- A command that has its shell end. -/
theorem leads_closes (hscript : Builtin.Deed.Does script (.closes x))
    (hnext : Resumes console "" next)
    (h : Leads console ⟨outer, some x, .over (.ok x), asked, lines⟩ beats t) :
    Leads console ⟨outer, none, .command script next, asked, lines⟩
      (⟨outer.map Level.exitValue ++ [some x], .ended (.ok x)⟩ :: beats) t :=
  leads_script (hscript none) (hnext _ _ _ _ _ _ _ (leads_turn_set h))

end Bidden

/-- **A stack of shells reads a script** as it is interpreted. -/
theorem leads_interpret (h : ∀ o ∈ outer, Waits console o)
    (hlines : OfBuiltins console buffer lines) :
    Leads console ⟨outer, none, .own (orClose (turn console buffer)), false, lines⟩
      (interpret console outer.length buffer lines).beats
      (interpret console outer.length buffer lines).scene := by
  induction lines generalizing outer buffer with
  | nil => exact leads_turn_nil (leads_closings h)
  | cons line lines ih =>
    obtain ⟨answer, kept, hline⟩ : ∃ answer kept,
      continueWith console.reader buffer line = (answer, kept) := ⟨_, _, rfl⟩
    rw [OfBuiltins, answersFrom_cons, hline] at hlines
    obtain ⟨hname, hrest⟩ := List.forall_mem_cons.mp hlines
    rw [interpret, hline]
    simp only [Beat.under, ← exitValues_of_waits h]
    cases hwords : wordsOf answer with
    | nil =>
      have hbidden : bidden? console answer = none := by rw [bidden?, hwords]
      rw [hbidden]
      exact leads_turn_cons (leads_wordless hline hwords (ih h hrest))
    | cons name args =>
      rw [hwords] at hname
      have hne : wordsOf answer ≠ [] := by simp [hwords]
      obtain ⟨hcomplete, rfl⟩ := kept_of_words hline hne
      rw [hcomplete, hwords] at hline
      rcases resolve_of_lookup hwords (hname name rfl) with
        ⟨command, deed, hresolve, hbidden, hdoes⟩ | ⟨e, hresolve, hbidden⟩
      · rw [hbidden]
        cases deed with
        | answers code =>
          refine leads_bidden hline hresolve hdoes fun script next hscript hnext => ?_
          exact leads_answers hscript hnext (ih h hrest)
        | opens =>
          refine leads_bidden hline hresolve hdoes fun script next hscript hnext => ?_
          refine leads_opens hscript hnext fun o ho => ?_
          have hwaits : ∀ m ∈ outer ++ [o], Waits console m :=
            List.forall_mem_append.mpr ⟨h, List.forall_mem_singleton.mpr ho⟩
          have hnested := ih hwaits hrest
          rw [List.length_append] at hnested
          exact hnested
        | closes x =>
          -- The outermost shell ends the run, any other returns to the one it is nested in.
          induction outer using List.reverseRecOn with
          | nil =>
            refine leads_bidden hline hresolve hdoes fun script next hscript hnext => ?_
            exact leads_closes hscript hnext (Leads.refl _)
          | append_singleton outer o _ =>
            obtain ⟨houter, -⟩ := List.forall_mem_append.mp h
            rw [List.length_append]
            refine leads_bidden hline hresolve hdoes fun script next hscript hnext => ?_
            exact leads_closes hscript hnext (leads_return h (ih houter hrest))
      · rw [hbidden]
        exact leads_turn_cons
          (leads_unresolved hline (List.cons_ne_nil _ _) hresolve (ih h hrest))

/-! ## Main statement -/

/-- **Nested shells are a stack.** A script of built-in commands, read by a shell from a terminal
that tells its lines and then the end of input, runs to an end, and what is seen of it is what a
stack of shells does with it, in order; the result of the outermost shell is its exit value, or 0.
However long the run is let go on, nothing else is seen, no nested shell is left, and whoever runs
it to its end learns that result. -/
theorem play_of_script {w : World} (hlines : OfBuiltins console "" lines)
    (hw : w.Calm false lines) (args : List String) (env : Environment) :
    ∃ r n r', (ofShell console w args env).execute = .ok r ∧
      (∀ m, n ≤ m → r.play m = ((interpret console 0 "" lines).beats, r')) ∧
      r'.result? = some (.ok ((interpret console 0 "" lines).value.getD 0)) ∧
      r'.exitValue = (interpret console 0 "" lines).value ∧
      r'.levels.length = 1 ∧ r'.world.Calm false (interpret console 0 "" lines).unread ∧
      (∀ m result last, r.complete m = (.ended result, last) →
        result = .ok ((interpret console 0 "" lines).value.getD 0)) ∧
      (interpret console 0 "" lines).Orderly 0 lines := by
  obtain ⟨m, hexecute, hm⟩ := execute_shell console args env
  have hr : (ofShell console w args env).execute = .ok ⟨console, w, [m]⟩ := by
    simp only [execute, ofShell, ofLevel, hexecute]
    rfl
  have hleads : Leads console ⟨[], none, .own (orClose (greet console.settings)), false, lines⟩
      (interpret console 0 "" lines).beats (interpret console 0 "" lines).scene :=
    leads_greet (leads_interpret (by simp) hlines)
  obtain ⟨r', hplays, hstands⟩ := hleads ⟨console, w, [m]⟩ ⟨rfl, ⟨m, rfl, hm⟩, by simp, hw⟩
  obtain ⟨hconsole, ⟨l, hlevels, hl⟩, -, hcalm⟩ := hstands
  have hlevels' : r'.levels = [l] := hlevels
  have hphase : l.phase = .over (.ok ((interpret console 0 "" lines).value.getD 0)) := hl.phase
  have hresult : r'.result? = some (.ok ((interpret console 0 "" lines).value.getD 0)) := by
    rw [result?, hlevels']
    simp only [hphase]
  have hstop : r'.step = .error none := by
    unfold step
    rw [hlevels', stepLevels, Level.step, hphase]
  have hvalue : r'.exitValue = (interpret console 0 "" lines).value := by
    rw [exitValue, hlevels']
    exact hl.value
  obtain ⟨n, hn⟩ := play_of_plays hplays hstop
  refine ⟨_, n, r', hr, hn, hresult, hvalue, congrArg List.length hlevels', hcalm, ?_,
    orderly_interpret console 0 "" lines⟩
  intro k result last hcomplete
  exact Option.some.inj ((result_of_complete hplays hstop hcomplete).symm.trans hresult)

/-- A console with the built-in commands. -/
def builtinConsole : Console where
  registry := ⟨[Builtin.bundle]⟩
  settings := { greeting := "" }

/-- Two nested shells, the inner one left with a value and the outer one without, and a line behind
the end of the outermost. -/
def nestedScript : List String :=
  ["subshell", "subshell", "exit 3", "quit", "echo outer", "exit 4", "echo late"]

/-- A terminal that tells the script. -/
def nestedWorld : World where
  terminal := .scripted { cues := nestedScript.map fun text => .report (.ok (.line text)) }

theorem calm_nestedWorld : nestedWorld.Calm false nestedScript := by
  refine ⟨fun name => ?_, .scripted rfl rfl rfl⟩
  cases name <;> exact ⟨fun _ => rfl, fun _ => rfl⟩

/-- The shells of the script: which of them hears each line, the outermost being the first. -/
theorem play_nestedScript : OfBuiltins builtinConsole "" nestedScript ∧
    nestedWorld.Calm false nestedScript ∧
    ∃ r n r', (ofShell builtinConsole nestedWorld [] {}).execute = .ok r ∧
      (r.play n).2 = r' ∧ r'.result? = some (.ok 4) ∧ r'.world.Calm false ["echo late"] ∧
      (r.play n).1.filterMap (fun b => b.line?.map fun line => (b.values.length, line)) =
        [(1, "subshell"), (2, "subshell"), (3, "exit 3"), (2, "quit"), (1, "echo outer"),
          (1, "exit 4")] := by
  have hlines : OfBuiltins builtinConsole "" nestedScript :=
    fun _ _ name _ => Builtin.lookup_bundle name
  obtain ⟨r, n, r', hr, hplay, hresult, -, -, hcalm, -⟩ :=
    play_of_script hlines calm_nestedWorld [] {}
  have hvalue : (interpret builtinConsole 0 "" nestedScript).value = some 4 := by decide +kernel
  have hunread : (interpret builtinConsole 0 "" nestedScript).unread = ["echo late"] := by
    decide +kernel
  have hheard : (interpret builtinConsole 0 "" nestedScript).beats.filterMap
        (fun b => b.line?.map fun line => (b.values.length, line)) =
      [(1, "subshell"), (2, "subshell"), (3, "exit 3"), (2, "quit"), (1, "echo outer"),
        (1, "exit 4")] := by decide +kernel
  rw [hvalue] at hresult
  rw [hunread] at hcalm
  refine ⟨hlines, calm_nestedWorld, r, n, r', hr, ?_, hresult, hcalm, ?_⟩
  · rw [hplay n (Nat.le_refl n)]
  · rw [hplay n (Nat.le_refl n)]
    exact hheard

end Run

end CommandConsole
