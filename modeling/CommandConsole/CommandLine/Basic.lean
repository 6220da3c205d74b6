/-!
# Command lines

A command line is text that stands for a list of words. Reading one answers the words, or that the
text is the front of a command line and more of it is needed, or a `Malformed` report with the
character offset of the offending part. A `Reader` is any way to read command lines; the grammar of
the default one is in `CommandConsole.CommandLine.Scan`.
-/

namespace CommandConsole.CommandLine

/-- What a text stands for: a list of words, or the front of a command line. -/
inductive Outcome where
  | complete (words : List String)
  | needsMore
  deriving DecidableEq, Repr, Inhabited

/-- What is wrong with a text, and the offset in characters at which it is wrong. -/
structure Malformed where
  offset : Nat
  message : String
  deriving DecidableEq, Repr, Inhabited

/-- A way to read command lines. -/
abbrev Reader := String → Except Malformed Outcome

/-- A text cut at each character with the property, the separators left out; there is one part more
than there are separators. -/
def splitAtEach (separates : Char → Bool) : List Char → List (List Char)
  | [] => [[]]
  | c :: rest =>
    if separates c then [] :: splitAtEach separates rest
    else
      match splitAtEach separates rest with
      | [] => [[c]]
      | part :: parts => (c :: part) :: parts

end CommandConsole.CommandLine
