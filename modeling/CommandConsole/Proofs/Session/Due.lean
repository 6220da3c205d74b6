import CommandConsole.Proofs.CommandLine.Protocol
import CommandConsole.Terminal.Event

/-!
# What is due after what was heard

What a shell should make of the lines and interrupts it has heard: the events are cut at the
interrupts, and each run of lines between two of them is read by the continuation protocol alone,
from an empty buffer. The commands found in all the runs are `due`, in order, and what the last run
has left in the buffer is `held`.

Results: `due_line` and `held_line` (one more line), `due_interrupted` and `held_interrupted` (an
interrupt leaves what was due before it and begins anew).
-/

namespace CommandConsole.Session

open CommandLine Terminal

/-- The text of a line. -/
def lineOf? : Event → Option String
  | .line text => some text
  | _ => none

/-- The runs of lines between interrupts. -/
def lineRuns (es : List Event) : List (List String) :=
  (es.splitOn .interrupted).map (·.filterMap lineOf?)

/-- The words of an answer that has some. -/
def commandOf? : Except Malformed Outcome → Option (List String)
  | .ok (.complete (word :: words)) => some (word :: words)
  | _ => none

/-- The commands that the continuation protocol finds on some lines alone. -/
def commandsOn (reader : Reader) (lines : List String) : List (List String) :=
  (answersFrom reader "" lines).filterMap commandOf?

/-- The commands found in all runs of lines. -/
def due (reader : Reader) (es : List Event) : List (List String) :=
  (lineRuns es).flatMap (commandsOn reader)

/-- The lines since the last interrupt. -/
def lastRun (es : List Event) : List String :=
  (lineRuns es).getLastD []

/-- What the lines since the last interrupt have left in the buffer. -/
def held (reader : Reader) (es : List Event) : String :=
  keptFrom reader "" (lastRun es)

/-! ## The runs of lines -/

/-- More elements without the separator go to the last part. -/
theorem splitOn_append_of_not_mem {α : Type} [BEq α] [LawfulBEq α] (a : α) (xs : List α) :
    ∃ parts last, ∀ ys, a ∉ ys → (xs ++ ys).splitOn a = parts ++ [last ++ ys] := by
  induction xs with
  | nil => exact ⟨[], [], fun ys h => List.splitOn_eq_singleton h⟩
  | cons x xs ih =>
    obtain ⟨parts, last, ih⟩ := ih
    by_cases hx : (x == a) = true
    · refine ⟨[] :: parts, last, fun ys h => ?_⟩
      rw [List.cons_append, List.splitOn_cons_eq_if_modifyHead, if_pos hx, ih ys h]
      rfl
    · cases parts with
      | nil =>
        refine ⟨[], x :: last, fun ys h => ?_⟩
        rw [List.cons_append, List.splitOn_cons_eq_if_modifyHead, if_neg hx, ih ys h]
        rfl
      | cons part parts =>
        refine ⟨(x :: part) :: parts, last, fun ys h => ?_⟩
        rw [List.cons_append, List.splitOn_cons_eq_if_modifyHead, if_neg hx, ih ys h]
        rfl

theorem lineRuns_ne_nil (es : List Event) : lineRuns es ≠ [] := by
  simp [lineRuns]

/-- More lines go to the last run. -/
theorem lineRuns_append (es : List Event) :
    ∃ runs, ∀ more, .interrupted ∉ more →
      lineRuns (es ++ more) = runs ++ [lastRun es ++ more.filterMap lineOf?] := by
  obtain ⟨parts, last, h⟩ := splitOn_append_of_not_mem Event.interrupted es
  have hlast : lastRun es = last.filterMap lineOf? := by
    have hes := h [] List.not_mem_nil
    rw [List.append_nil, List.append_nil] at hes
    simp [lastRun, lineRuns, hes]
  refine ⟨parts.map (·.filterMap lineOf?), fun more hmore => ?_⟩
  rw [lineRuns, h more hmore, hlast]
  simp

theorem lineRuns_interrupted (es more : List Event) :
    lineRuns (es ++ .interrupted :: more) = lineRuns es ++ lineRuns more := by
  rw [lineRuns, List.splitOn_append_cons_self, List.map_append]
  rfl

/-! ## One more event -/

variable (reader : Reader) (es : List Event)

theorem lastRun_line (text : String) :
    lastRun (es ++ [.line text]) = lastRun es ++ [text] := by
  obtain ⟨runs, h⟩ := lineRuns_append es
  rw [lastRun, h [.line text] (by simp)]
  simp [lineOf?]

theorem held_line (text : String) : held reader (es ++ [.line text]) =
    (continueWith reader (held reader es) text).2 := by
  rw [held, lastRun_line, keptFrom_append, keptFrom_cons, keptFrom_nil]
  rfl

theorem due_line (text : String) : due reader (es ++ [.line text]) =
    due reader es ++ (commandOf? (continueWith reader (held reader es) text).1).toList := by
  obtain ⟨runs, h⟩ := lineRuns_append es
  have hes := h [] List.not_mem_nil
  rw [List.append_nil] at hes
  have hcommands : commandsOn reader (lastRun es ++ [text]) = commandsOn reader (lastRun es) ++
      (commandOf? (continueWith reader (held reader es) text).1).toList := by
    rw [commandsOn, answersFrom_append, List.filterMap_append]
    rfl
  have hline : [Event.line text].filterMap lineOf? = [text] := rfl
  rw [due, h [.line text] (by simp), due, hes, hline, List.flatMap_append, List.flatMap_append,
    List.flatMap_singleton, List.flatMap_singleton, List.filterMap_nil, List.append_nil,
    hcommands, List.append_assoc]

theorem due_nil : due reader [] = [] := rfl

theorem held_nil : held reader [] = "" := rfl

/-- The end of input adds nothing. -/
theorem due_endOfInput : due reader (es ++ [.endOfInput]) = due reader es := by
  obtain ⟨runs, h⟩ := lineRuns_append es
  have hes := h [] List.not_mem_nil
  rw [List.append_nil] at hes
  rw [due, h [.endOfInput] (by simp), due, hes]
  rfl

theorem due_interrupted (more : List Event) : due reader (es ++ .interrupted :: more) =
    due reader es ++ due reader more := by
  rw [due, lineRuns_interrupted, List.flatMap_append]
  rfl

theorem held_interrupted (more : List Event) :
    held reader (es ++ .interrupted :: more) = held reader more := by
  have hlast : lastRun (es ++ .interrupted :: more) = lastRun more := by
    obtain ⟨run, runs, hruns⟩ := List.exists_cons_of_ne_nil (lineRuns_ne_nil more)
    rw [lastRun, lastRun, lineRuns_interrupted, hruns]
    simp [List.getLastD_eq_getLast?, List.getLast?_cons]
  rw [held, held, hlast]

end CommandConsole.Session
