/-!
# UTF-8

A decoder that reads bytes one at a time. It carries the scalar it is in the middle of
(`Unfinished`) and answers each scalar it completes, or `none` for each maximal ill-formed part: a
byte that no scalar starts with, or the front of a scalar up to the byte that cannot continue it.
`decode?` refuses ill-formed bytes; `decodeLossy` puts U+FFFD for each ill-formed part.
-/

namespace CommandConsole.Text.Utf8

/-- A scalar of which some bytes were read: the value so far, how many bytes are missing, and the
range that the next byte must lie in. -/
structure Unfinished where
  value : Nat
  missing : Nat
  low : Nat
  high : Nat

/-- What a byte does at the start of a scalar. -/
def begin (b : Nat) : List (Option Char) × Option Unfinished :=
  if b < 0x80 then ([some (Char.ofNat b)], none)
  else if 0xC2 ≤ b ∧ b ≤ 0xDF then ([], some ⟨b - 0xC0, 1, 0x80, 0xBF⟩)
  else if b = 0xE0 then ([], some ⟨0, 2, 0xA0, 0xBF⟩)
  else if b = 0xED then ([], some ⟨0xD, 2, 0x80, 0x9F⟩)
  else if 0xE1 ≤ b ∧ b ≤ 0xEF then ([], some ⟨b - 0xE0, 2, 0x80, 0xBF⟩)
  else if b = 0xF0 then ([], some ⟨0, 3, 0x90, 0xBF⟩)
  else if 0xF1 ≤ b ∧ b ≤ 0xF3 then ([], some ⟨b - 0xF0, 3, 0x80, 0xBF⟩)
  else if b = 0xF4 then ([], some ⟨4, 3, 0x80, 0x8F⟩)
  else ([none], none)

/-- What a byte does, in the middle of a scalar or at its start. A byte that cannot continue a
scalar ends an ill-formed part and is read again as a start. -/
def feed (u : Option Unfinished) (b : Nat) : List (Option Char) × Option Unfinished :=
  match u with
  | none => begin b
  | some u =>
    if u.low ≤ b ∧ b ≤ u.high then
      let value := u.value * 64 + (b - 0x80)
      if u.missing ≤ 1 then ([some (Char.ofNat value)], none)
      else ([], some ⟨value, u.missing - 1, 0x80, 0xBF⟩)
    else
      let (out, next) := begin b
      (none :: out, next)

/-- The scalars of the bytes in order, `none` for each ill-formed part. -/
def scalarsFrom (u : Option Unfinished) : List UInt8 → List (Option Char)
  | [] => if u.isSome then [none] else []
  | b :: rest =>
    let (out, next) := feed u b.toNat
    out ++ scalarsFrom next rest

/-- The scalars of the bytes in order, `none` for each ill-formed part. -/
def scalars (bytes : List UInt8) : List (Option Char) :=
  scalarsFrom none bytes

/-- The text the bytes encode; `none` if any part of them is ill-formed. -/
def decode? (bytes : List UInt8) : Option String :=
  let cs := scalars bytes
  if cs.all (·.isSome) then some (String.ofList (cs.filterMap id)) else none

/-- The text the bytes encode, with U+FFFD for each ill-formed part. -/
def decodeLossy (bytes : List UInt8) : String :=
  String.ofList ((scalars bytes).map (·.getD '\uFFFD'))

/-- The bytes of a text. -/
def encode (s : String) : List UInt8 :=
  s.toUTF8.data.toList

end CommandConsole.Text.Utf8
