import CommandConsole.Proofs.Command.Deeds
import CommandConsole.Proofs.CommandLine.Protocol
import CommandConsole.Proofs.Session.Play
import Mathlib.Data.List.Chain

/-!
# A stack of shells

What a stack of shells does with a script, as it is seen, without levels and plans: the innermost of
them reads the next line, and all that matters of those it is nested in is how many there are, for
none of them has an exit value. `interpret` is that machine.

`Beat.Follows` says what may be seen next: a nested shell begins without an exit value, a command
sets the exit value of its own shell, a shell with an exit value ends, its code becomes that of the
command that opened it, and the shell of that command goes on.

Results: `interpret_cons` (one line). Main statement: `orderly_interpret` (any number of them).
-/

namespace CommandConsole.Session

open CommandLine

/-- An act of a shell nested in a number of others that have no exit value. -/
def Beat.under (depth : Nat) (value : Option ExitCode) (act : Act) : Beat :=
  ⟨List.replicate depth none ++ [value], act⟩

/-- What becomes of a script. -/
structure Ending where
  /-- What is seen of the shells. -/
  beats : List Beat
  /-- The exit value of the outermost shell. -/
  value : Option ExitCode
  /-- The lines that no shell heard. -/
  unread : List String

/-- What becomes of a script behind what was seen before. -/
def Ending.after (seen : List Beat) (e : Ending) : Ending :=
  { e with beats := seen ++ e.beats }

/-- What is seen when a nested shell has ended, and with it the command that opened it in a shell
nested in `depth` others. -/
def returning (depth : Nat) (value : Option ExitCode) : List Beat :=
  [.under (depth + 1) value (.closed (.ok (value.getD 0))),
    .under depth none (.ended (.ok (value.getD 0)))]

/-- What is seen of shells nested in one another at the end of input. -/
def closings : Nat → List Beat
  | 0 => []
  | depth + 1 => returning depth none ++ closings depth

/-- The built-in command that the answer to a line asks for: its name, its arguments and what it
does. -/
def bidden? (console : Console) (answer : Except Malformed Outcome) :
    Option (String × List String × Builtin.Deed) :=
  match wordsOf answer with
  | [] => none
  | name :: args =>
    (Builtin.deed? (fun topic => (console.reference.lookup topic).isSome) name args).map
      fun deed => (name, args, deed)

/-- **A script of lines read by a stack of shells**: the innermost of them, nested in `depth`
others, reads the next line. -/
def interpret (console : Console) (depth : Nat) (buffer : String) : List String → Ending
  | [] => ⟨closings depth, none, []⟩
  | line :: lines =>
    let (answer, kept) := continueWith console.reader buffer line
    let heard := .under depth none (.line line)
    match bidden? console answer with
    | none => (interpret console depth kept lines).after [heard]
    | some (name, args, deed) =>
      let began := .under depth none (.began name args)
      match deed with
      | .answers code => (interpret console depth kept lines).after
          [heard, began, .under depth none (.ended (.ok code))]
      | .opens => (interpret console (depth + 1) kept lines).after
          [heard, began, .under depth none .opened]
      | .closes x =>
        let ended := .under depth (some x) (.ended (.ok x))
        match depth with
        | 0 => ⟨[heard, began, ended], some x, lines⟩
        | depth + 1 => (interpret console depth kept lines).after
            (heard :: began :: ended :: returning depth (some x))

/-! ## What is seen of the stack -/

variable {console : Console} {depth : Nat} {buffer : String} {lines : List String}

/-- The line that is heard. -/
def Beat.line? (b : Beat) : Option String :=
  match b.act with
  | .line text => some text
  | _ => none

/-- The value that an `exit` or `quit` accepts while one shell is open. -/
def Beat.outermostExit? (b : Beat) : Option ExitCode :=
  match b.values, b.act with
  | [_], .began name args => Builtin.exitValue? name args
  | _, _ => none

/-- What may be seen next. -/
inductive Beat.Follows : Beat → Beat → Prop
  /-- The shell that has heard a line goes on. -/
  | line {values : List (Option ExitCode)} {text : String} {act : Act} :
      Follows ⟨values, .line text⟩ ⟨values, act⟩
  /-- A command sets the exit value of its own shell only. -/
  | began {outer : List (Option ExitCode)} {value : Option ExitCode} {name : String}
      {args : List String} {act : Act} :
      Follows ⟨outer ++ [none], .began name args⟩ ⟨outer ++ [value], act⟩
  /-- A nested shell begins without an exit value. -/
  | opened {values : List (Option ExitCode)} {act : Act} :
      Follows ⟨values, .opened⟩ ⟨values ++ [none], act⟩
  /-- A shell without an exit value goes on behind a command. -/
  | goesOn {outer : List (Option ExitCode)} {code : ExitCode} {act : Act} :
      Follows ⟨outer ++ [none], .ended (.ok code)⟩ ⟨outer ++ [none], act⟩
  /-- A shell with an exit value ends with it. -/
  | stops {outer : List (Option ExitCode)} {code : ExitCode} :
      Follows ⟨outer ++ [some code], .ended (.ok code)⟩ ⟨outer ++ [some code], .closed (.ok code)⟩
  /-- The code of a nested shell, which is its exit value or 0, is that of the command that opened
  it. -/
  | closed {outer : List (Option ExitCode)} {value : Option ExitCode} :
      Follows ⟨outer ++ [value], .closed (.ok (value.getD 0))⟩ ⟨outer, .ended (.ok (value.getD 0))⟩

/-- What is seen begins with a shell nested in a number of others, and goes on as it may. -/
structure Disciplined (depth : Nat) (beats : List Beat) : Prop where
  first : ∀ b ∈ beats.head?, ∃ act, b = .under depth none act
  chain : beats.IsChain Beat.Follows

/-- What is seen of a script is in order. -/
structure Ending.Orderly (e : Ending) (depth : Nat) (lines : List String) : Prop where
  /-- Every line is heard once, in order, up to the end of the outermost shell. -/
  heard : e.beats.filterMap Beat.line? ++ e.unread = lines
  /-- The first value accepted while one shell is open is that of the outermost shell. -/
  exit : e.beats.findSome? Beat.outermostExit? = e.value
  /-- Without such a value the whole script is heard. -/
  whole : e.value = none → e.unread = []
  /-- No enclosing shell ever has an exit value. -/
  enclosing : ∀ b ∈ e.beats, ∀ value ∈ b.values.dropLast, value = none
  /-- Shells begin and end like the entries of a stack. -/
  nested : Disciplined depth e.beats

/-- What is seen of one line, and the value with which it ends the outermost shell. -/
structure Shows (seen : List Beat) (line : String) (exit : Option ExitCode) : Prop where
  heard : seen.filterMap Beat.line? = [line]
  exit : seen.findSome? Beat.outermostExit? = exit
  enclosing : ∀ b ∈ seen, ∀ value ∈ b.values.dropLast, value = none

/-! ### Discipline -/

variable {act : Act} {beats : List Beat}

theorem disciplined_nil (depth : Nat) : Disciplined depth [] :=
  ⟨nofun, .nil⟩

/-- A shell without an exit value does something, and then this is seen. -/
theorem Disciplined.cons {depth' : Nat} (h : Disciplined depth' beats)
    (hfollows : ∀ act', (Beat.under depth none act).Follows (.under depth' none act')) :
    Disciplined depth (.under depth none act :: beats) := by
  refine ⟨fun b hb => ⟨act, (Option.some.inj hb).symm⟩, h.chain.cons fun b hb => ?_⟩
  obtain ⟨act', rfl⟩ := h.first b hb
  exact hfollows act'

theorem Disciplined.line {line : String} (h : Disciplined depth beats) :
    Disciplined depth (.under depth none (.line line) :: beats) :=
  h.cons fun _ => .line

theorem Disciplined.began {name : String} {args : List String} (h : Disciplined depth beats) :
    Disciplined depth (.under depth none (.began name args) :: beats) :=
  h.cons fun _ => .began

theorem Disciplined.ended {code : ExitCode} (h : Disciplined depth beats) :
    Disciplined depth (.under depth none (.ended (.ok code)) :: beats) :=
  h.cons fun _ => .goesOn

theorem Disciplined.opened (h : Disciplined (depth + 1) beats) :
    Disciplined depth (.under depth none .opened :: beats) := by
  refine h.cons fun act' => ?_
  rw [Beat.under, Beat.under, List.replicate_succ']
  exact .opened

theorem chain_returning {value : Option ExitCode} (h : Disciplined depth beats) :
    (returning depth value ++ beats).IsChain Beat.Follows := by
  have hclosed : (Beat.under (depth + 1) value (.closed (.ok (value.getD 0)))).Follows
      (.under depth none (.ended (.ok (value.getD 0)))) := by
    rw [Beat.under, Beat.under, ← List.replicate_succ']
    exact .closed
  exact (h.ended).chain.cons_cons hclosed

theorem disciplined_closings (depth : Nat) : Disciplined depth (closings depth) := by
  induction depth with
  | zero => exact disciplined_nil 0
  | succ depth ih => exact ⟨fun _ hb => ⟨_, (Option.some.inj hb).symm⟩, chain_returning ih⟩

/-- A command that has its nested shell end. -/
theorem Disciplined.closes {name : String} {args : List String} {x : ExitCode}
    (h : Disciplined depth beats) : Disciplined (depth + 1)
      (.under (depth + 1) none (.began name args) ::
        .under (depth + 1) (some x) (.ended (.ok x)) :: (returning depth (some x) ++ beats)) :=
  ⟨fun _ hb => ⟨_, (Option.some.inj hb).symm⟩,
    ((chain_returning h).cons_cons .stops).cons_cons .began⟩

/-! ### One line -/

theorem enclosing_under {value : Option ExitCode} {act : Act} :
    ∀ v ∈ (Beat.under depth value act).values.dropLast, v = none := by
  intro v hv
  rw [Beat.under, List.dropLast_concat] at hv
  exact List.eq_of_mem_replicate hv

theorem outermostExit?_began {name : String} {args : List String} :
    (Beat.under depth none (.began name args)).outermostExit? =
      if depth = 0 then Builtin.exitValue? name args else none := by
  match depth with
  | 0 => rfl
  | 1 => rfl
  | _ + 2 => rfl

/-- A beat that is neither a line nor the beginning of a command. -/
structure Beat.Quiet (b : Beat) : Prop where
  line : b.line? = none
  exit : b.outermostExit? = none
  enclosing : ∀ value ∈ b.values.dropLast, value = none

theorem quiet_under {value : Option ExitCode} {act : Act} (hline : ∀ text, act ≠ .line text)
    (hbegan : ∀ name args, act ≠ .began name args) : (Beat.under depth value act).Quiet where
  line := by
    unfold Beat.line?
    split
    next text hact => exact absurd hact (hline text)
    · rfl
  exit := by
    unfold Beat.outermostExit?
    split
    next name args _ hact => exact absurd hact (hbegan name args)
    · rfl
  enclosing := enclosing_under

theorem quiet_returning {value : Option ExitCode} : ∀ b ∈ returning depth value, b.Quiet :=
  List.forall_mem_cons.mpr ⟨quiet_under nofun nofun,
    List.forall_mem_singleton.mpr (quiet_under nofun nofun)⟩

theorem quiet_closings (depth : Nat) : ∀ b ∈ closings depth, b.Quiet := by
  induction depth with
  | zero => exact fun b hb => absurd hb List.not_mem_nil
  | succ depth ih => exact List.forall_mem_append.mpr ⟨quiet_returning, ih⟩

theorem lines_of_quiet {beats : List Beat} (h : ∀ b ∈ beats, b.Quiet) :
    beats.filterMap Beat.line? = [] :=
  List.filterMap_eq_nil_iff.mpr fun b hb => (h b hb).line

theorem exit_of_quiet {beats : List Beat} (h : ∀ b ∈ beats, b.Quiet) :
    beats.findSome? Beat.outermostExit? = none :=
  List.findSome?_eq_none_iff.mpr fun b hb => (h b hb).exit

theorem outermostExit?_line (depth : Nat) (line : String) :
    (Beat.under depth none (.line line)).outermostExit? = none := by
  unfold Beat.outermostExit?
  split
  next hact => cases hact
  · rfl

/-- A line that no command answers. -/
theorem shows_line (depth : Nat) (line : String) :
    Shows [.under depth none (.line line)] line none where
  heard := rfl
  exit := by rw [List.findSome?_singleton, outermostExit?_line]
  enclosing := List.forall_mem_singleton.mpr enclosing_under

/-- A line that a command answers. -/
theorem shows_command {line name : String} {args : List String} {seen : List Beat}
    {exit : Option ExitCode} (h : ∀ b ∈ seen, b.Quiet)
    (hexit : (if depth = 0 then Builtin.exitValue? name args else none) = exit) :
    Shows (.under depth none (.line line) :: .under depth none (.began name args) :: seen) line
      exit where
  heard := by
    rw [List.filterMap_cons, List.filterMap_cons, lines_of_quiet h]
    rfl
  exit := by
    rw [List.findSome?_cons, List.findSome?_cons, outermostExit?_line, outermostExit?_began,
      exit_of_quiet h, hexit]
    cases exit <;> rfl
  enclosing := List.forall_mem_cons.mpr ⟨enclosing_under, List.forall_mem_cons.mpr
    ⟨enclosing_under, fun b hb => (h b hb).enclosing⟩⟩

theorem value?_of_bidden? {answer : Except Malformed Outcome} {name : String} {args : List String}
    {deed : Builtin.Deed} (h : bidden? console answer = some (name, args, deed)) :
    deed.value? = Builtin.exitValue? name args := by
  unfold bidden? at h
  split at h
  · cases h
  · obtain ⟨deed', hdeed, he⟩ := Option.map_eq_some_iff.mp h
    cases he
    exact Builtin.value?_of_deed? hdeed

/-- **What one line does** to a stack of shells. -/
theorem interpret_cons (console : Console) (depth : Nat) (buffer line : String)
    (lines : List String) :
    (∃ seen depth' kept, Shows seen line none ∧
      (∀ beats, Disciplined depth' beats → Disciplined depth (seen ++ beats)) ∧
      interpret console depth buffer (line :: lines) =
        (interpret console depth' kept lines).after seen) ∨
    ∃ seen x, Shows seen line (some x) ∧ Disciplined depth seen ∧
      interpret console depth buffer (line :: lines) = ⟨seen, some x, lines⟩ := by
  obtain ⟨answer, kept, hline⟩ : ∃ answer kept,
    continueWith console.reader buffer line = (answer, kept) := ⟨_, _, rfl⟩
  rw [interpret, hline]
  simp only
  match hbidden : bidden? console answer with
  | none => exact .inl ⟨_, _, _, shows_line depth line, fun _ h => h.line, rfl⟩
  | some (name, args, deed) =>
    have hvalue := value?_of_bidden? hbidden
    match deed, depth with
    | .answers code, depth =>
      have hquiet : ∀ b ∈ [Beat.under depth none (.ended (.ok code))], b.Quiet :=
        List.forall_mem_singleton.mpr (quiet_under nofun nofun)
      have hexit : (if depth = 0 then Builtin.exitValue? name args else none) = none := by
        rw [← hvalue]
        exact ite_self _
      exact .inl ⟨_, _, _, shows_command hquiet hexit, fun _ h => h.ended.began.line, rfl⟩
    | .opens, depth =>
      have hquiet : ∀ b ∈ [Beat.under depth none .opened], b.Quiet :=
        List.forall_mem_singleton.mpr (quiet_under nofun nofun)
      have hexit : (if depth = 0 then Builtin.exitValue? name args else none) = none := by
        rw [← hvalue]
        exact ite_self _
      exact .inl ⟨_, _, _, shows_command hquiet hexit, fun _ h => h.opened.began.line, rfl⟩
    | .closes x, 0 =>
      have hquiet : ∀ b ∈ [Beat.under 0 (some x) (.ended (.ok x))], b.Quiet :=
        List.forall_mem_singleton.mpr (quiet_under nofun nofun)
      have hexit : (if 0 = 0 then Builtin.exitValue? name args else none) = some x := by
        rw [← hvalue]
        rfl
      have hbegan : Disciplined 0 [.under 0 none (.began name args),
          .under 0 (some x) (.ended (.ok x))] :=
        ⟨fun _ hb => ⟨_, (Option.some.inj hb).symm⟩, .cons_cons .began (.singleton _)⟩
      exact .inr ⟨_, x, shows_command hquiet hexit, hbegan.line, rfl⟩
    | .closes x, depth + 1 =>
      have hquiet : ∀ b ∈ Beat.under (depth + 1) (some x) (.ended (.ok x)) ::
          returning depth (some x), b.Quiet :=
        List.forall_mem_cons.mpr ⟨quiet_under nofun nofun, quiet_returning⟩
      exact .inl ⟨_, _, _, shows_command hquiet rfl, fun _ h => h.closes.line, rfl⟩

/-! ### Any number of lines -/

theorem orderly_closings (depth : Nat) : Ending.Orderly ⟨closings depth, none, []⟩ depth [] where
  heard := by
    rw [lines_of_quiet (quiet_closings depth)]
    rfl
  exit := exit_of_quiet (quiet_closings depth)
  whole _ := rfl
  enclosing b hb := (quiet_closings depth b hb).enclosing
  nested := disciplined_closings depth

/-- **A script is heard in order**, its shells begin and end like the entries of a stack, and its
outcome is the first value accepted while one shell is open. -/
theorem orderly_interpret (console : Console) (depth : Nat) (buffer : String)
    (lines : List String) : (interpret console depth buffer lines).Orderly depth lines := by
  induction lines generalizing depth buffer with
  | nil => exact orderly_closings depth
  | cons line lines ih =>
    rcases interpret_cons console depth buffer line lines with
      ⟨seen, depth', kept, hseen, hnested, he⟩ | ⟨seen, x, hseen, hnested, he⟩
    · rw [he]
      have hrest := ih depth' kept
      refine ⟨?_, ?_, hrest.whole, ?_, hnested _ hrest.nested⟩
      · rw [Ending.after, List.filterMap_append, hseen.heard, List.append_assoc, hrest.heard]
        rfl
      · rw [Ending.after, List.findSome?_append, hseen.exit, hrest.exit]
        rfl
      · exact List.forall_mem_append.mpr ⟨hseen.enclosing, hrest.enclosing⟩
    · rw [he]
      refine ⟨?_, hseen.exit, nofun, hseen.enclosing, hnested⟩
      rw [hseen.heard]
      rfl

end CommandConsole.Session
