import CommandConsole.Toml.Value

/-!
# Building tables

What a line of a document does to the tables read so far. A header opens a table, by a path of keys;
a repeated header adds a table to a list of them; a key with dots reaches into tables below the open
one. No key is given twice, no table has two headers, dotted keys reach only into tables that dotted
keys or longer headers made, and a table between braces is complete as it is.

Results: `putNew_eq_some_iff` (a key is free or refused).
-/

namespace CommandConsole.Toml

/-- Adds an entry under a key that has none. -/
def putNew (es : Entries) (key : String) (value : Value) : Option Entries :=
  if (es.lookup key).isSome then none else some (es.set key value)

theorem putNew_eq_some_iff {es es' : Entries} {key : String} {value : Value} :
    putNew es key value = some es' ↔ es.lookup key = none ∧ es' = es.set key value := by
  unfold putNew
  cases es.lookup key <;> simp [eq_comm]

/-- Changes the table at the end of a path. Tables that are not there yet are made; those that are
may be passed through if `passes` allows it for the way they came to be. Of a list of tables the
path leads through the last one. -/
def alter (made : Origin) (passes : Origin → Bool) (change : Origin → Entries → Option Entries) :
    Origin → Entries → List String → Option Entries
  | origin, es, [] => change origin es
  | _, es, key :: path => do
    let inner ←
      match es.lookup key with
      | none => (alter made passes change made [] path).map (Value.table made)
      | some (.table origin inner) =>
        if passes origin then
          (alter made passes change origin inner path).map (Value.table origin)
        else none
      | some (.tables earlier last) =>
        (alter made passes change .header last path).map (Value.tables earlier)
      | some _ => none
    return es.set key inner

/-- Changes the table that a header's path leads to. -/
def alterAt (change : Entries → Option Entries) (es : Entries) (path : List String) :
    Option Entries :=
  alter .implied (· ≠ .braces) (fun _ => change) .header es path

/-- Sets the value of a key, dotted or not, in a table. A dotted key ends in a table that dotted
keys made. -/
def putDotted (es : Entries) (path : List String) (key : String) (value : Value) : Option Entries :=
  let change (origin : Origin) (inner : Entries) : Option Entries :=
    if path.isEmpty ∨ origin = .dotted then putNew inner key value else none
  alter .dotted (fun origin => origin = .implied ∨ origin = .dotted) change .header es path

/-- Opens the table of a header. -/
def openTable (es : Entries) (path : List String) (key : String) : Option Entries :=
  alterAt (fun inner =>
    match inner.lookup key with
    | none => some (inner.set key (.table .header []))
    | some (.table .implied below) => some (inner.set key (.table .header below))
    | some _ => none) es path

/-- Opens a further table of a repeated header. -/
def openNext (es : Entries) (path : List String) (key : String) : Option Entries :=
  alterAt (fun inner =>
    match inner.lookup key with
    | none => some (inner.set key (.tables [] []))
    | some (.tables earlier last) =>
      some (inner.set key (.tables (earlier ++ [.table .header last]) []))
    | some _ => none) es path

/-- A line of a document. -/
inductive Line where
  | blank
  | pair (path : List String) (key : String) (value : Value)
  | header (path : List String) (key : String)
  | repeatedHeader (path : List String) (key : String)

/-- A document so far: its entries, and the path of the open table. -/
structure Draft where
  entries : Entries := []
  opened : List String := []

/-- Adds a line to a document. -/
def Draft.add (d : Draft) : Line → Option Draft
  | .blank => some d
  | .pair path key value =>
    (alterAt (putDotted · path key value) d.entries d.opened).map ({ d with entries := · })
  | .header path key => (openTable d.entries path key).map (⟨·, path ++ [key]⟩)
  | .repeatedHeader path key => (openNext d.entries path key).map (⟨·, path ++ [key]⟩)

end CommandConsole.Toml
