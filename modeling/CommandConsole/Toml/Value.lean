/-!
# TOML values

The values that a settings file in the TOML format can hold. A table remembers how it came to be,
because that decides what later lines may add to it. Numbers with a fraction and moments are kept
as they are written.
-/

namespace CommandConsole.Toml

/-- How a table came to be. -/
inductive Origin where
  /-- Under a header of its own. -/
  | header
  /-- So far only named in the headers of tables within it. -/
  | implied
  /-- Named in dotted keys. -/
  | dotted
  /-- Written between braces. -/
  | braces
  deriving DecidableEq, Repr

/-- A value. -/
inductive Value where
  | text (s : String)
  | integer (n : Int)
  /-- A number with a fraction or a power of ten, or a word for an infinity or for no number. -/
  | float (written : String)
  | boolean (b : Bool)
  /-- A date, a time of day, or both. -/
  | moment (written : String)
  | list (items : List Value)
  | table (origin : Origin) (entries : List (String × Value))
  /-- Tables under a repeated header; lines add to the last one. -/
  | tables (earlier : List Value) (last : List (String × Value))

/-- What a table holds. -/
abbrev Entries := List (String × Value)

/-- The entries with the value of a key set. -/
def Entries.set (es : Entries) (key : String) (value : Value) : Entries :=
  es.filter (fun e => e.1 ≠ key) ++ [(key, value)]

theorem Entries.lookup_set (es : Entries) (key : String) (value : Value) :
    (es.set key value).lookup key = some value := by
  have h : (es.filter fun e => decide (e.1 ≠ key)).lookup key = none := by
    rw [List.lookup_eq_none_iff]
    intro e he
    have hne : e.1 ≠ key := of_decide_eq_true (List.mem_filter.1 he).2
    simpa using fun h => hne h.symm
  rw [Entries.set, List.lookup_append, h]
  simp

end CommandConsole.Toml
