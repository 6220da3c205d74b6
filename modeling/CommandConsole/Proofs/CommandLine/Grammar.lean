import CommandConsole.Proofs.CommandLine.Transitions
import Mathlib.Data.List.Chain

/-!
# The grammar of command lines

What a command line is, said without a scanner: separators and words one after the other, no two
words side by side. A word is made of pieces, one of them a quoted region, and a region is made of
items. Each judgement relates a text to what it decodes to.

An octal escape is taken greedily, so whether a text is an item depends on what follows it; every
other item is what it is anywhere.

Results: `scanFrom_item`, `scanFrom_region`, `scanFrom_pieces` (the scan of a derived text adds what
the text decodes to).
-/

namespace CommandConsole.CommandLine.Grammar

open CommandConsole.Text

/-- A blank, or a backslash before a newline. -/
inductive Separator : List Char → Prop
  | blank {c : Char} (h : isBlank c = true) : Separator [c]
  | continuation : Separator ['\\', '\n']

/-- The letter of a one-letter escape, and the character that it names. -/
inductive Names : Char → Char → Prop
  | backspace : Names 'b' '\x08'
  | tab : Names 't' '\t'
  | newline : Names 'n' '\n'
  | formFeed : Names 'f' '\x0c'
  | carriageReturn : Names 'r' '\r'
  | apostrophe : Names '\'' '\''
  | quote : Names '"' '"'
  | backslash : Names '\\' '\\'

/-- Digits in a radix and their values. -/
def Digits (radix : Nat) : List Char → List Nat → Prop :=
  List.Forall₂ fun c d => Digit.value? radix c = some d

/-- How many digits an octal escape has at most, by its first one: its value is below 400. -/
def octalLimit (first : Nat) : Nat :=
  if first ≤ 3 then 3 else 2

/-- What may follow an octal escape that has fewer digits than it could: a character that is neither
a digit nor a quote. -/
def EndsOctal (rest : List Char) : Prop :=
  ∃ c more, rest = c :: more ∧ c ≠ '"' ∧ Digit.value? 8 c = none

/-- A `u` or several and four hexadecimal digits spell a UTF-16 unit. -/
def Spells (text : List Char) (unit : Nat) : Prop :=
  ∃ more digits values, text = 'u' :: (List.replicate more 'u' ++ digits) ∧
    Digits 16 digits values ∧ values.length = 4 ∧ unit = Digit.number 16 values

/-- An item of a quoted region in front of `rest`, and the character it stands for. -/
inductive Item (rest : List Char) : List Char → Char → Prop
  | plain {c : Char} (hq : c ≠ '"') (hb : c ≠ '\\') : Item rest [c] c
  | named {c x : Char} (h : Names c x) : Item rest ['\\', c] x
  | octal {t : List Char} {d : Nat} {ds : List Nat} (h : Digits 8 t (d :: ds))
      (hlimit : (d :: ds).length ≤ octalLimit d)
      (hend : (d :: ds).length < octalLimit d → EndsOctal rest) :
      Item rest ('\\' :: t) (Char.ofNat (Digit.number 8 (d :: ds)))
  | unit {t : List Char} {u : Nat} (h : Spells t u) (hu : u < 0xD800 ∨ 0xE000 ≤ u) :
      Item rest ('\\' :: t) (Char.ofNat u)
  | pair {t t' : List Char} {high low : Nat} (h : Spells t high) (h' : Spells t' low)
      (hh : 0xD800 ≤ high ∧ high < 0xDC00) (hl : 0xDC00 ≤ low ∧ low < 0xE000) :
      Item rest ('\\' :: (t ++ '\\' :: t'))
        (Char.ofNat (0x10000 + (high - 0xD800) * 0x400 + (low - 0xDC00)))

/-- The items of a quoted region, and the quote that closes it. -/
inductive Region : List Char → List Char → Prop
  | close : Region ['"'] []
  | item {t rest ds : List Char} {x : Char} (h : Item rest t x) (hr : Region rest ds) :
      Region (t ++ rest) (x :: ds)

/-- A piece of a word. -/
inductive Piece : List Char → List Char → Prop
  | plain {c : Char} (hq : c ≠ '"') (hb : c ≠ '\\') (hs : isBlank c = false) : Piece [c] [c]
  | escaped {c : Char} (h : c ≠ '\n') : Piece ['\\', c] [c]
  | region {t ds : List Char} (h : Region t ds) : Piece ('"' :: t) ds

/-- Pieces one after the other. -/
inductive Pieces : List Char → List Char → Prop
  | nil : Pieces [] []
  | cons {t ds t' ds' : List Char} (h : Piece t ds) (hs : Pieces t' ds') :
      Pieces (t ++ t') (ds ++ ds')

/-- A word is one piece or more. -/
inductive Word : List Char → List Char → Prop
  | intro {t ds t' ds' : List Char} (h : Piece t ds) (hs : Pieces t' ds') :
      Word (t ++ t') (ds ++ ds')

/-- A part of a command line: a separator, or a word with what it decodes to. -/
inductive Part where
  | separator (text : List Char)
  | word (text decoded : List Char)

namespace Part

/-- The text of a part. -/
def text : Part → List Char
  | separator t => t
  | word t _ => t

/-- The word that a part stands for. -/
def word? : Part → Option String
  | separator _ => none
  | word _ ds => some (String.ofList ds)

/-- A part that the grammar allows. -/
def Valid : Part → Prop
  | separator t => Separator t
  | word t ds => Word t ds

end Part

/-- Two neighbours are not both words. -/
def Apart (p q : Part) : Prop :=
  p.word? = none ∨ q.word? = none

/-- **A command line.** `parts` cuts a text into separators and words, any two words with a separator
between them, and `words` is what the words decode to, in order. -/
structure Derives (text : List Char) (words : List String) (parts : List Part) : Prop where
  valid : ∀ p ∈ parts, p.Valid
  apart : parts.IsChain Apart
  text_eq : text = parts.flatMap Part.text
  words_eq : words = parts.filterMap Part.word?

namespace Derives

variable {text t ds : List Char} {words : List String} {parts : List Part}

theorem nil : Derives [] [] [] :=
  ⟨by simp, .nil, rfl, rfl⟩

theorem separator (h : Derives text words parts) (ht : Separator t) :
    Derives (t ++ text) words (.separator t :: parts) := by
  refine ⟨List.forall_mem_cons.mpr ⟨ht, h.valid⟩, ?_, ?_, h.words_eq⟩
  · cases parts with
    | nil => exact .singleton _
    | cons p parts => exact .cons_cons (.inl rfl) h.apart
  · rw [List.flatMap_cons, ← h.text_eq]
    rfl

/-- A word may stand in front of what does not begin with one. -/
theorem word (h : Derives text words parts) (ht : Word t ds)
    (hp : ∀ p ∈ parts.head?, p.word? = none) :
    Derives (t ++ text) (String.ofList ds :: words) (.word t ds :: parts) := by
  refine ⟨List.forall_mem_cons.mpr ⟨ht, h.valid⟩, ?_, ?_, ?_⟩
  · cases parts with
    | nil => exact .singleton _
    | cons p parts => exact .cons_cons (.inr (hp p rfl)) h.apart
  · rw [List.flatMap_cons, ← h.text_eq]
    rfl
  · rw [h.words_eq]
    rfl

end Derives

/-! ## Derived texts are scanned -/

theorem namedEscape_eq_some_iff {c x : Char} : Scan.namedEscape c = some x ↔ Names c x := by
  constructor
  · intro h
    unfold Scan.namedEscape at h
    split at h <;> cases h <;> constructor
  · intro h
    cases h <;> rfl

/-- No octal digit is the letter of a named escape. -/
theorem namedEscape_of_octal {c : Char} {d : Nat} (h : Digit.value? 8 c = some d) :
    Scan.namedEscape c = none := by
  cases hn : Scan.namedEscape c with
  | none => rfl
  | some x => cases namedEscape_eq_some_iff.mp hn <;> cases h

theorem ne_quote_of_value? {radix d : Nat} {c : Char} (h : Digit.value? radix c = some d) :
    c ≠ '"' :=
  Scan.ne_quote_of_ofHex? (Digit.value?_eq_some_iff.mp h).1

section Scanning

variable {ws : List String} {o : Option (List Char)} {w : List Char} {n start : Nat}
  {rest : List Char}

open Scan

theorem scanFrom_octal {t : List Char} {ds : List Nat} (h : Digits 8 t ds) {value room : Nat}
    (hpos : 1 ≤ room) (hle : ds.length ≤ room) (hend : ds.length < room → EndsOctal rest) :
    scanFrom ⟨ws, some w, .octal start value room, n⟩ (t ++ rest) =
      scanFrom ⟨ws, some (Char.ofNat (ds.foldl (fun v d => v * 8 + d) value) :: w), .quoted,
        n + t.length⟩ rest := by
  induction h generalizing value room n with
  | nil =>
    obtain ⟨c, more, rfl, hq, hd⟩ := hend hpos
    exact scanFrom_octal_end hq hd
  | @cons c d t ds hd ht ih =>
    have hq := ne_quote_of_value? hd
    simp only [List.length_cons] at hle hend
    by_cases hr : room ≤ 1
    · have hnil : ds = [] := List.length_eq_zero_iff.mp (by omega)
      subst hnil
      cases ht
      exact scanFrom_octal_last hq hd hr
    · rw [List.cons_append, scanFrom_octal_digit hq hd (by omega),
        ih (by omega) (by omega) (fun hlt => hend (by omega))]
      simp [Nat.add_assoc, Nat.add_comm 1]

theorem scanFrom_us {lead : Option Lead} {value : Nat} (k : Nat) :
    scanFrom ⟨ws, o, .unicode start lead value 0, n⟩ (List.replicate k 'u' ++ rest) =
      scanFrom ⟨ws, o, .unicode start lead value 0, n + k⟩ rest := by
  induction k generalizing n with
  | zero => rfl
  | succ k ih =>
    rw [List.replicate_succ, List.cons_append, scanFrom_unicode_u, ih]
    simp [Nat.add_assoc, Nat.add_comm 1]

/-- A spelled unit is scanned up to its last digit, which then decides. -/
theorem scanFrom_spelled {t : List Char} {u : Nat} (h : Spells t u) :
    ∃ front c value d, t = 'u' :: (front ++ [c]) ∧ Digit.ofHex? c = some d ∧ u = value * 16 + d ∧
      ∀ (ws : List String) (o : Option (List Char)) (start : Nat) (lead : Option Lead) (n : Nat)
        (rest : List Char),
        scanFrom ⟨ws, o, .unicode start lead 0 0, n⟩ (front ++ c :: rest) =
          scanFrom ⟨ws, o, .unicode start lead value 3, n + front.length⟩ (c :: rest) := by
  obtain ⟨more, digits, values, rfl, hd, hlen, rfl⟩ := h
  match values, hlen, hd with
  | [d1, d2, d3, d4], _, .cons (a := c1) h1 (.cons (a := c2) h2 (.cons (a := c3) h3
      (.cons (a := c4) h4 .nil))) =>
    have hex {c : Char} {d : Nat} (h : Digit.value? 16 c = some d) : Digit.ofHex? c = some d :=
      (Digit.value?_eq_some_iff.mp h).1
    refine ⟨List.replicate more 'u' ++ [c1, c2, c3], c4, ((0 * 16 + d1) * 16 + d2) * 16 + d3, d4,
      by simp, hex h4, rfl, ?_⟩
    intro ws o start lead n rest
    rw [List.append_assoc, scanFrom_us, List.cons_append, scanFrom_unicode_digit (hex h1) (by omega),
      List.cons_append, scanFrom_unicode_digit (hex h2) (by omega), List.cons_append,
      scanFrom_unicode_digit (hex h3) (by omega)]
    simp [Nat.add_assoc]

/-- **An item adds its character.** -/
theorem scanFrom_item {t : List Char} {x : Char} (h : Item rest t x) :
    scanFrom ⟨ws, some w, .quoted, n⟩ (t ++ rest) =
      scanFrom ⟨ws, some (x :: w), .quoted, n + t.length⟩ rest := by
  cases h with
  | plain hq hb => exact scanFrom_quoted_plain hq hb
  | named hn =>
    exact scanFrom_quoted_backslash.trans (scanFrom_escape_named (namedEscape_eq_some_iff.mpr hn))
  | @octal _ d _ hd hlimit hend =>
    cases hd with
    | cons hc ht =>
      have hroom : (if d ≤ 3 then 2 else 1) = octalLimit d - 1 := by
        unfold octalLimit
        split <;> rfl
      have hpos : 2 ≤ octalLimit d := by
        unfold octalLimit
        split <;> omega
      simp only [List.length_cons] at hlimit hend
      rw [List.cons_append, scanFrom_quoted_backslash, List.cons_append,
        scanFrom_escape_octal (namedEscape_of_octal hc) hc, hroom,
        scanFrom_octal ht (by omega) (by omega) (fun hlt => hend (by omega))]
      simp only [Digit.number, List.foldl_cons, Nat.zero_mul, Nat.zero_add, List.length_cons]
      congr 2
      omega
  | unit hs hu =>
    obtain ⟨hh, hl⟩ := Utf16.not_surrogate_iff.mpr hu
    obtain ⟨front, c, value, d, rfl, hc, rfl, hscan⟩ := scanFrom_spelled hs
    rw [List.cons_append, scanFrom_quoted_backslash, List.cons_append, scanFrom_escape_unicode,
      List.append_assoc, List.singleton_append, hscan, scanFrom_unit_plain hc hh hl]
    simp only [List.length_cons, List.length_append, List.length_nil]
    congr 2
    omega
  | pair hs hs' hh hl =>
    obtain ⟨front, c, value, d, rfl, hc, rfl, hscan⟩ := scanFrom_spelled hs
    obtain ⟨front', c', value', d', rfl, hc', rfl, hscan'⟩ := scanFrom_spelled hs'
    simp only [List.cons_append, List.append_assoc, List.nil_append]
    rw [scanFrom_quoted_backslash, scanFrom_escape_unicode, hscan,
      scanFrom_unit_high hc (Utf16.isHigh_iff.mpr hh), scanFrom_pairing_backslash,
      scanFrom_pairingEscape_u, hscan', scanFrom_pair_low hc' (Utf16.isLow_iff.mpr hl)]
    simp only [List.length_cons, List.length_append, List.length_nil]
    congr 2
    omega

/-- All that an item asks of what follows it is that an octal escape ends there. -/
theorem Item.mono {rest' t : List Char} {x : Char} (h : Item rest t x)
    (himp : EndsOctal rest → EndsOctal rest') : Item rest' t x := by
  cases h with
  | plain hq hb => exact .plain hq hb
  | named hn => exact .named hn
  | octal hd hlimit hend => exact .octal hd hlimit fun hlt => himp (hend hlt)
  | unit hs hu => exact .unit hs hu
  | pair hs hs' hh hl => exact .pair hs hs' hh hl

theorem EndsOctal.append (h : EndsOctal rest) (more : List Char) : EndsOctal (rest ++ more) := by
  obtain ⟨c, r, rfl, hq, hd⟩ := h
  exact ⟨c, r ++ more, rfl, hq, hd⟩

/-- **A region adds its characters and leaves the quotes.** -/
theorem scanFrom_region {t ds : List Char} (h : Region t ds) :
    scanFrom ⟨ws, some w, .quoted, n⟩ (t ++ rest) =
      scanFrom ⟨ws, some (ds.reverse ++ w), .bare, n + t.length⟩ rest := by
  induction h generalizing w n with
  | close => rfl
  | @item t r ds x hi hr ih =>
    rw [List.append_assoc, scanFrom_item (hi.mono fun he => he.append rest), ih]
    simp [Nat.add_assoc]

theorem scanFrom_piece {t ds : List Char} (h : Piece t ds) :
    scanFrom ⟨ws, o, .bare, n⟩ (t ++ rest) =
      scanFrom ⟨ws, some (ds.reverse ++ o.getD []), .bare, n + t.length⟩ rest := by
  cases h with
  | plain hq hb hs => exact scanFrom_bare_plain hq hb hs
  | escaped hc => exact scanFrom_bare_backslash.trans (scanFrom_bareEscape_other hc)
  | region hr =>
    rw [List.cons_append, scanFrom_bare_quote, scanFrom_region hr]
    simp [Nat.add_assoc, Nat.add_comm 1]

theorem scanFrom_pieces {t ds : List Char} (h : Pieces t ds) :
    scanFrom ⟨ws, some w, .bare, n⟩ (t ++ rest) =
      scanFrom ⟨ws, some (ds.reverse ++ w), .bare, n + t.length⟩ rest := by
  induction h generalizing w n with
  | nil => rfl
  | cons hp hs ih =>
    rw [List.append_assoc, scanFrom_piece hp, ih]
    simp [Nat.add_assoc]

theorem scanFrom_word {t ds : List Char} (h : Word t ds) :
    scanFrom ⟨ws, none, .bare, n⟩ (t ++ rest) =
      scanFrom ⟨ws, some ds.reverse, .bare, n + t.length⟩ rest := by
  cases h with
  | intro hp hs =>
    rw [List.append_assoc, scanFrom_piece hp, scanFrom_pieces hs]
    simp [Nat.add_assoc]

theorem scanFrom_separator {t : List Char} (h : Separator t) :
    scanFrom ⟨ws, o, .bare, n⟩ (t ++ rest) =
      scanFrom ⟨ended ws o, none, .bare, n + t.length⟩ rest := by
  cases h with
  | blank hc => exact scanFrom_bare_blank hc
  | continuation => exact scanFrom_bare_backslash.trans scanFrom_bareEscape_newline

/-- **A command line is scanned to its end.** A word that was open before is ended by the first
part, which then is no word. -/
theorem scanFrom_parts {parts : List Part} (hv : ∀ p ∈ parts, p.Valid)
    (ha : parts.IsChain Apart) (ho : o = none ∨ ∀ p ∈ parts.head?, p.word? = none) :
    ∃ f, scanFrom ⟨ws, o, .bare, n⟩ (parts.flatMap Part.text) = .ok f ∧ f.mode = .bare ∧
      ended f.words f.word = (parts.filterMap Part.word?).reverse ++ ended ws o := by
  induction parts generalizing ws o n with
  | nil => exact ⟨_, rfl, rfl, rfl⟩
  | cons p parts ih =>
    obtain ⟨hp, hvs⟩ := List.forall_mem_cons.mp hv
    cases p with
    | separator t =>
      obtain ⟨f, hf, hm, hw⟩ := ih hvs ha.tail (.inl rfl)
      exact ⟨f, (scanFrom_separator hp).trans hf, hm, hw⟩
    | word t ds =>
      obtain rfl : o = none := ho.resolve_right fun h => by simp [Part.word?] at h
      have hnext : ∀ q ∈ parts.head?, q.word? = none := by
        cases ha with
        | singleton => simp
        | cons_cons hq =>
          rintro q ⟨⟩
          exact hq.resolve_left (by simp [Part.word?])
      obtain ⟨f, hf, hm, hw⟩ := ih hvs ha.tail (.inr hnext)
      refine ⟨f, (scanFrom_word hp).trans hf, hm, ?_⟩
      rw [hw]
      simp [Part.word?]

end Scanning

end CommandConsole.CommandLine.Grammar
