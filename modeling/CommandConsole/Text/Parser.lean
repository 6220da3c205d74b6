/-!
# Reading from the front of a text

A `Parser` takes a value off the front of a text and leaves the rest, or refuses the text. Of two
alternatives the second reads from where the first began. Repetition takes as many values as it can
and stops before the first one that is refused; it also stops at a value that takes nothing, so it
always ends.

Results: `repeated_append` (repetition loses nothing that its values do not lose).
-/

namespace CommandConsole.Text

/-- A way to read a value off the front of a text. -/
abbrev Parser := StateT (List Char) Option

namespace Parser

variable {α : Type}

/-- The value of a text that is read to its end. -/
def readAll? (p : Parser α) (cs : List Char) : Option α :=
  match p cs with
  | some (a, []) => some a
  | _ => none

/-- One character that has a value. -/
def charOf (value : Char → Option α) : Parser α
  | [] => none
  | c :: rest => (value c).map (·, rest)

/-- One character with a property. -/
def charWhere (ok : Char → Bool) : Parser Char :=
  charOf fun c => if ok c then some c else none

/-- The characters up to the first one without a property. -/
def span (ok : Char → Bool) : Parser (List Char) :=
  fun cs => some (cs.takeWhile ok, cs.dropWhile ok)

/-- A fixed text. -/
def exactly (expected : String) : Parser Unit :=
  fun cs => (expected.toList.isPrefixOf? cs).map ((), ·)

/-- The end of the text. -/
def atEnd : Parser Unit :=
  fun cs => if cs.isEmpty then some ((), cs) else none

/-- The characters that another parser takes, in place of its value. -/
def taken (p : Parser α) : Parser (List Char) :=
  fun cs => (p cs).map fun (_, rest) => (cs.take (cs.length - rest.length), rest)

/-- Values as many as there are, and what follows them. -/
def repeated (p : Parser α) (cs : List Char) : List α × List Char :=
  match p cs with
  | none => ([], cs)
  | some (a, rest) =>
    if rest.length < cs.length then
      (a :: (repeated p rest).1, (repeated p rest).2)
    else ([a], rest)
termination_by cs.length

/-- Values as many as there are. -/
def many (p : Parser α) : Parser (List α) :=
  fun cs => some (repeated p cs)

/-- Values as many as there are, but one at least. -/
def many1 (p : Parser α) : Parser (List α) := do
  let first ← p
  return first :: (← many p)

/-- A value or more, with a separator between each two of them. -/
def separated (p : Parser α) (separator : Parser Unit) : Parser (List α) := do
  let first ← p
  return first :: (← many (do separator; p))

/-- A number of values. -/
def times (p : Parser α) : Nat → Parser (List α)
  | 0 => pure []
  | n + 1 => do
    let first ← p
    return first :: (← times p n)

/-- A value that is accepted. -/
def accept (value : Option α) : Parser α :=
  fun cs => value.map (·, cs)

theorem repeated_append {p : Parser α} {written : α → List Char}
    (h : ∀ cs a rest, p cs = some (a, rest) → cs = written a ++ rest) (cs : List Char) :
    cs = (repeated p cs).1.flatMap written ++ (repeated p cs).2 := by
  fun_induction repeated p cs with
  | case1 cs hp => simp
  | case2 cs a rest hp hlt ih =>
    rw [List.flatMap_cons, List.append_assoc, ← ih]
    exact h cs a rest hp
  | case3 cs a rest hp hlt => simpa using h cs a rest hp

end Parser

end CommandConsole.Text
