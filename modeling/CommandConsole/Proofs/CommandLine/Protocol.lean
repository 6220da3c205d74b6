import CommandConsole.CommandLine.Continuation

/-!
# The steps of the continuation protocol

What one line does, by the answer for the extended buffer, and what several lines do in two parts.
The reader is any.
-/

namespace CommandConsole.CommandLine

variable {reader : Reader}

/-- The answers for several lines in turn, behind a buffer. -/
def answersFrom (reader : Reader) (buffer : String) (lines : List String) :
    List (Except Malformed Outcome) :=
  (continueAll reader buffer lines).1

/-- The buffer that is kept behind several lines. -/
def keptFrom (reader : Reader) (buffer : String) (lines : List String) : String :=
  (continueAll reader buffer lines).2

/-- The words of a complete answer; no other answer has any. -/
def wordsOf : Except Malformed Outcome → List String
  | .ok (.complete words) => words
  | _ => []

@[simp] theorem answersFrom_nil (buffer : String) : answersFrom reader buffer [] = [] := rfl

@[simp] theorem keptFrom_nil (buffer : String) : keptFrom reader buffer [] = buffer := rfl

theorem answersFrom_cons (buffer line : String) (lines : List String) :
    answersFrom reader buffer (line :: lines) =
      (continueWith reader buffer line).1 ::
        answersFrom reader (continueWith reader buffer line).2 lines := rfl

theorem keptFrom_cons (buffer line : String) (lines : List String) :
    keptFrom reader buffer (line :: lines) =
      keptFrom reader (continueWith reader buffer line).2 lines := rfl

theorem answersFrom_append (buffer : String) (front back : List String) :
    answersFrom reader buffer (front ++ back) =
      answersFrom reader buffer front ++ answersFrom reader (keptFrom reader buffer front) back := by
  induction front generalizing buffer with
  | nil => rfl
  | cons line front ih =>
    rw [List.cons_append, answersFrom_cons, answersFrom_cons, keptFrom_cons, ih, List.cons_append]

theorem keptFrom_append (buffer : String) (front back : List String) :
    keptFrom reader buffer (front ++ back) =
      keptFrom reader (keptFrom reader buffer front) back := by
  induction front generalizing buffer with
  | nil => rfl
  | cons line front ih => rw [List.cons_append, keptFrom_cons, keptFrom_cons, ih]

/-! ## One line -/

variable {buffer line : String}

@[simp] theorem extendBuffer_empty (line : String) : extendBuffer "" line = line := rfl

theorem extendBuffer_of_ne (h : buffer ≠ "") (line : String) :
    extendBuffer buffer line = buffer ++ "\n" ++ line := by
  simp [extendBuffer, h]

theorem continueWith_complete {words : List String}
    (h : reader (extendBuffer buffer line) = .ok (.complete words)) :
    continueWith reader buffer line = (.ok (.complete words), "") := by
  simp [continueWith, h]

theorem continueWith_needsMore (h : reader (extendBuffer buffer line) = .ok .needsMore) :
    continueWith reader buffer line = (.ok .needsMore, extendBuffer buffer line) := by
  simp [continueWith, h]

theorem continueWith_error {e : Malformed} (h : reader (extendBuffer buffer line) = .error e) :
    continueWith reader buffer line = (.error e, "") := by
  simp [continueWith, h]

/-- A line's answer is the reader's for the extended buffer. -/
theorem continueWith_fst : (continueWith reader buffer line).1 =
    reader (extendBuffer buffer line) := by
  cases h : reader (extendBuffer buffer line) with
  | error e => rw [continueWith_error h]
  | ok answer =>
    cases answer with
    | complete words => rw [continueWith_complete h]
    | needsMore => rw [continueWith_needsMore h]

end CommandConsole.CommandLine
