import CommandConsole.Proofs.CommandLine.Grammar

/-!
# The default reader accepts exactly the grammar

The other direction of `Grammar`: a scan that ends outside quotes has a derivation behind it. What
such a scan still reads is taken apart from the front, mode by mode: the rest of an escape, the
items of a region, the pieces of the open word, and then part after part. Each step hands the rest
of the text to the same scan, so nothing has to be known about how the scan came where it stands.

Main statement: `read_eq_complete_iff`.
-/

namespace CommandConsole.CommandLine.Grammar

open CommandConsole.Text Scan

/-- A scan that reads a text and ends outside quotes. -/
def Ends (s : Scan) (text : List Char) (f : Scan) : Prop :=
  s.scanFrom text = .ok f ∧ f.mode = .bare

variable {ws : List String} {o : Option (List Char)} {w : List Char} {n start : Nat}
  {cs : List Char} {f : Scan}

theorem Ends.congr {s s' : Scan} {cs' : List Char} (h : Ends s cs f)
    (heq : s.scanFrom cs = s'.scanFrom cs') : Ends s' cs' f :=
  ⟨heq ▸ h.1, h.2⟩

theorem Ends.not_error {s : Scan} {e : Malformed} (h : Ends s cs f) :
    s.scanFrom cs ≠ .error e := by
  rw [h.1]
  simp

/-- A scan that stands inside quotes or an escape has something left to read. -/
theorem Ends.ne_nil {s : Scan} (h : Ends s cs f) (hm : s.mode ≠ .bare) : cs ≠ [] := by
  rintro rfl
  cases h.1
  exact hm h.2

/-! ## Escapes -/

theorem exists_octal {value room : Nat} (hpos : 1 ≤ room)
    (h : Ends ⟨ws, some w, .octal start value room, n⟩ cs f) :
    ∃ t ds rest m, cs = t ++ rest ∧ Digits 8 t ds ∧ ds.length ≤ room ∧
      (ds.length < room → EndsOctal rest) ∧
      Ends ⟨ws, some (Char.ofNat (ds.foldl (fun v d => v * 8 + d) value) :: w), .quoted, m⟩
        rest f := by
  induction cs generalizing value room n with
  | nil => exact absurd rfl (h.ne_nil (by simp))
  | cons c r ih =>
    have hq : c ≠ '"' := by
      rintro rfl
      exact h.not_error scanFrom_octal_quote
    cases hd : Digit.value? 8 c with
    | none =>
      exact ⟨[], [], c :: r, n, rfl, .nil, Nat.zero_le _, fun _ => ⟨c, r, rfl, hq, hd⟩,
        h.congr (scanFrom_octal_end hq hd)⟩
    | some d =>
      by_cases hr : room ≤ 1
      · exact ⟨[c], [d], r, n + 1, rfl, .cons hd .nil, hpos, fun hlt => absurd hlt (by simp; omega),
          h.congr (scanFrom_octal_last hq hd hr)⟩
      · obtain ⟨t, ds, rest, m, rfl, hds, hle, hend, hf⟩ :=
          ih (by omega) (h.congr (scanFrom_octal_digit hq hd (by omega)))
        refine ⟨c :: t, d :: ds, rest, m, rfl, .cons hd hds, ?_, fun hlt => hend ?_, hf⟩
        · simp only [List.length_cons]; omega
        · simp only [List.length_cons] at hlt; omega

theorem exists_hex {lead : Option Lead} {value digits : Nat}
    (h : Ends ⟨ws, o, .unicode start lead value digits, n⟩ cs f)
    (hu : ∀ r, cs = 'u' :: r → digits ≠ 0) : ∃ c d r, cs = c :: r ∧ Digit.ofHex? c = some d := by
  cases cs with
  | nil => exact absurd rfl (h.ne_nil (by simp))
  | cons c r =>
    have hq : c ≠ '"' := by
      rintro rfl
      exact h.not_error scanFrom_unicode_quote
    have hu' : ¬(digits = 0 ∧ c = 'u') := by
      rintro ⟨h0, rfl⟩
      exact hu r rfl h0
    cases hd : Digit.ofHex? c with
    | none => exact absurd (scanFrom_unicode_other hq hu' hd) h.not_error
    | some d => exact ⟨c, d, r, rfl, hd⟩

/-- After the `u`s comes the first digit. -/
theorem exists_us {lead : Option Lead} (h : Ends ⟨ws, o, .unicode start lead 0 0, n⟩ cs f) :
    ∃ k c d r m, cs = List.replicate k 'u' ++ c :: r ∧ Digit.ofHex? c = some d ∧
      Ends ⟨ws, o, .unicode start lead 0 0, m⟩ (c :: r) f := by
  induction cs generalizing n with
  | nil => exact absurd rfl (h.ne_nil (by simp))
  | cons c r ih =>
    by_cases hu : c = 'u'
    · subst hu
      obtain ⟨k, c, d, r, m, rfl, hd, hf⟩ := ih (h.congr scanFrom_unicode_u)
      exact ⟨k + 1, c, d, r, m, rfl, hd, hf⟩
    · obtain ⟨c', d, r', hc, hd⟩ := exists_hex h (fun _ he => absurd (List.cons.inj he).1 hu)
      cases hc
      exact ⟨0, c, d, r, n, rfl, hd, h⟩

theorem ofHex?_lt {c : Char} {d : Nat} (h : Digit.ofHex? c = some d) : d < 16 := by
  unfold Digit.ofHex? at h
  simp only [Char.le_def, UInt32.le_iff_toNat_le] at h
  split at h
  · next hc =>
    cases h
    have h9 : c.toNat ≤ '9'.toNat := hc.2
    have : '9'.toNat = 57 ∧ '0'.toNat = 48 := by decide
    omega
  · split at h
    · next hc =>
      cases h
      have hf : c.toNat ≤ 'f'.toNat := hc.2
      have : 'f'.toNat = 102 ∧ 'a'.toNat = 97 := by decide
      omega
    · split at h
      · next hc =>
        cases h
        have hf : c.toNat ≤ 'F'.toNat := hc.2
        have : 'F'.toNat = 70 ∧ 'A'.toNat = 65 := by decide
        omega
      · cases h

theorem value?_of_ofHex? {c : Char} {d : Nat} (h : Digit.ofHex? c = some d) :
    Digit.value? 16 c = some d :=
  Digit.value?_eq_some_iff.mpr ⟨h, ofHex?_lt h⟩

/-- A unit is spelled out before its last digit decides what it is. -/
theorem exists_spelled {lead : Option Lead} (h : Ends ⟨ws, o, .unicode start lead 0 0, n⟩ cs f) :
    ∃ t rest c d value m, cs = t ++ rest ∧ Spells ('u' :: t) (value * 16 + d) ∧
      Digit.ofHex? c = some d ∧ Ends ⟨ws, o, .unicode start lead value 3, m⟩ (c :: rest) f := by
  obtain ⟨k, c1, d1, r1, m, rfl, h1, hf⟩ := exists_us h
  replace hf := hf.congr (scanFrom_unicode_digit h1 (by omega))
  obtain ⟨c2, d2, r2, rfl, h2⟩ := exists_hex hf (fun _ _ => by omega)
  replace hf := hf.congr (scanFrom_unicode_digit h2 (by omega))
  obtain ⟨c3, d3, r3, rfl, h3⟩ := exists_hex hf (fun _ _ => by omega)
  replace hf := hf.congr (scanFrom_unicode_digit h3 (by omega))
  obtain ⟨c4, d4, r4, rfl, h4⟩ := exists_hex hf (fun _ _ => by omega)
  refine ⟨List.replicate k 'u' ++ [c1, c2, c3, c4], r4, c4, d4, _, _, by simp, ?_, h4, hf⟩
  exact ⟨k, [c1, c2, c3, c4], [d1, d2, d3, d4], rfl,
    .cons (value?_of_ofHex? h1) (.cons (value?_of_ofHex? h2) (.cons (value?_of_ofHex? h3)
      (.cons (value?_of_ofHex? h4) .nil))), rfl, rfl⟩

/-- The second unit of a pair. -/
theorem exists_partner {p : Lead} (h : Ends ⟨ws, some w, .pairing p, n⟩ cs f) :
    ∃ t rest low m, cs = '\\' :: t ++ rest ∧ Spells t low ∧ Utf16.isLow low = true ∧
      Ends ⟨ws, some (Utf16.pair p.unit low :: w), .quoted, m⟩ rest f := by
  cases cs with
  | nil => exact absurd rfl (h.ne_nil (by simp))
  | cons c r =>
    obtain rfl : c = '\\' := Decidable.byContradiction fun hc =>
      h.not_error (scanFrom_pairing_other hc)
    replace h := h.congr scanFrom_pairing_backslash
    cases r with
    | nil => exact absurd rfl (h.ne_nil (by simp))
    | cons c r =>
      obtain rfl : c = 'u' := Decidable.byContradiction fun hc =>
        h.not_error (scanFrom_pairingEscape_other hc)
      obtain ⟨t, rest, c, d, value, m, rfl, hs, hd, hf⟩ :=
        exists_spelled (h.congr scanFrom_pairingEscape_u)
      cases hl : Utf16.isLow (value * 16 + d) with
      | false => exact absurd (scanFrom_pair_other hd hl) hf.not_error
      | true =>
        exact ⟨'u' :: t, rest, _, m + 1, rfl, hs, hl, hf.congr (scanFrom_pair_low hd hl)⟩

/-- **An escape is an item.** -/
theorem exists_escape (h : Ends ⟨ws, some w, .quotedEscape start, n⟩ cs f) :
    ∃ t x rest m, cs = t ++ rest ∧ Item rest ('\\' :: t) x ∧
      Ends ⟨ws, some (x :: w), .quoted, m⟩ rest f := by
  cases cs with
  | nil => exact absurd rfl (h.ne_nil (by simp))
  | cons c r =>
    cases hn : namedEscape c with
    | some x =>
      exact ⟨[c], x, r, n + 1, rfl, .named (namedEscape_eq_some_iff.mp hn),
        h.congr (scanFrom_escape_named hn)⟩
    | none =>
      cases hd : Digit.value? 8 c with
      | some d =>
        have hroom : 1 ≤ (if d ≤ 3 then 2 else 1) ∧
            octalLimit d = (if d ≤ 3 then 2 else 1) + 1 := by
          unfold octalLimit
          split <;> simp
        obtain ⟨t, ds, rest, m, rfl, hds, hle, hend, hf⟩ :=
          exists_octal hroom.1 (h.congr (scanFrom_escape_octal hn hd))
        have hitem : Item rest ('\\' :: c :: t) (Char.ofNat (Digit.number 8 (d :: ds))) := by
          refine .octal (.cons hd hds) ?_ fun hlt => hend ?_
          · rw [List.length_cons, hroom.2]
            exact Nat.succ_le_succ hle
          · rw [List.length_cons, hroom.2] at hlt
            exact Nat.lt_of_succ_lt_succ hlt
        refine ⟨c :: t, _, rest, m, rfl, hitem, ?_⟩
        simpa [Digit.number] using hf
      | none =>
        obtain rfl : c = 'u' := Decidable.byContradiction fun hu =>
          h.not_error (scanFrom_escape_other hn hd hu)
        obtain ⟨t, rest, c, d, value, m, rfl, hs, hc, hf⟩ :=
          exists_spelled (h.congr scanFrom_escape_unicode)
        cases hh : Utf16.isHigh (value * 16 + d) with
        | true =>
          obtain ⟨t', rest', low, m', rfl, hs', hl, hf'⟩ :=
            exists_partner (hf.congr (scanFrom_unit_high hc hh))
          exact ⟨'u' :: t ++ '\\' :: t', _, rest', m', by simp,
            .pair hs hs' (Utf16.isHigh_iff.mp hh) (Utf16.isLow_iff.mp hl), hf'⟩
        | false =>
          cases hl : Utf16.isLow (value * 16 + d) with
          | true => exact absurd (scanFrom_unit_low hc hh hl) hf.not_error
          | false =>
            exact ⟨'u' :: t, _, rest, m + 1, rfl, .unit hs (Utf16.not_surrogate_iff.mp ⟨hh, hl⟩),
              hf.congr (scanFrom_unit_plain hc hh hl)⟩

/-! ## Regions, words and parts -/

theorem Region.ne_nil {t ds : List Char} (h : Region t ds) : t ≠ [] := by
  induction h with
  | close => simp
  | item hi hr ih => simp [ih]

theorem endsOctal_of_append {t more : List Char} (ht : t ≠ []) (h : EndsOctal (t ++ more)) :
    EndsOctal t := by
  obtain ⟨c, r, hc, hq, hd⟩ := h
  cases t with
  | nil => exact absurd rfl ht
  | cons c' t =>
    obtain rfl : c' = c := (List.cons.inj hc).1
    exact ⟨c', t, rfl, hq, hd⟩

/-- **What follows an opening quote is a region.** -/
theorem exists_region (h : Ends ⟨ws, some w, .quoted, n⟩ cs f) :
    ∃ t ds rest m, cs = t ++ rest ∧ Region t ds ∧
      Ends ⟨ws, some (ds.reverse ++ w), .bare, m⟩ rest f := by
  induction hk : cs.length using Nat.strongRecOn generalizing cs w n with
  | _ k ih =>
    subst hk
    cases cs with
    | nil => exact absurd rfl (h.ne_nil (by simp))
    | cons c r =>
      by_cases hq : c = '"'
      · subst hq
        exact ⟨['"'], [], r, n + 1, rfl, .close, h.congr scanFrom_quoted_quote⟩
      have hitem : ∃ t x rest m, c :: r = t ++ rest ∧ rest.length < (c :: r).length ∧
          Item rest t x ∧ Ends ⟨ws, some (x :: w), .quoted, m⟩ rest f := by
        by_cases hb : c = '\\'
        · subst hb
          obtain ⟨t, x, rest, m, rfl, hi, hf⟩ := exists_escape (h.congr scanFrom_quoted_backslash)
          refine ⟨'\\' :: t, x, rest, m, rfl, ?_, hi, hf⟩
          simp only [List.length_cons, List.length_append]
          omega
        · exact ⟨[c], c, r, n + 1, rfl, by simp, .plain hq hb,
            h.congr (scanFrom_quoted_plain hq hb)⟩
      obtain ⟨t, x, rest, m, hcs, hlt, hi, hf⟩ := hitem
      obtain ⟨t', ds, rest', m', rfl, hr, hf'⟩ := ih _ hlt hf rfl
      have hi' : Item t' t x := hi.mono (endsOctal_of_append hr.ne_nil)
      exact ⟨t ++ t', x :: ds, rest', m', by rw [hcs, List.append_assoc], .item hi' hr,
        by simpa using hf'⟩

/-- Outside quotes there is the end of the text, a separator, or a piece. -/
theorem bare_cases (h : Ends ⟨ws, o, .bare, n⟩ cs f) :
    (cs = [] ∧ f = ⟨ws, o, .bare, n⟩) ∨
      (∃ t rest m, cs = t ++ rest ∧ Separator t ∧ Ends ⟨ended ws o, none, .bare, m⟩ rest f) ∨
      ∃ t ds rest m, cs = t ++ rest ∧ Piece t ds ∧
        Ends ⟨ws, some (ds.reverse ++ o.getD []), .bare, m⟩ rest f := by
  cases cs with
  | nil =>
    cases h.1
    exact .inl ⟨rfl, rfl⟩
  | cons c r =>
    by_cases hq : c = '"'
    · subst hq
      obtain ⟨t, ds, rest, m, rfl, hr, hf⟩ := exists_region (h.congr scanFrom_bare_quote)
      exact .inr (.inr ⟨'"' :: t, ds, rest, m, rfl, .region hr, hf⟩)
    by_cases hb : c = '\\'
    · subst hb
      replace h := h.congr scanFrom_bare_backslash
      cases r with
      | nil => exact absurd rfl (h.ne_nil (by simp))
      | cons c r =>
        by_cases hc : c = '\n'
        · subst hc
          exact .inr (.inl ⟨['\\', '\n'], r, _, rfl, .continuation,
            h.congr scanFrom_bareEscape_newline⟩)
        · exact .inr (.inr ⟨['\\', c], [c], r, _, rfl, .escaped hc,
            h.congr (scanFrom_bareEscape_other hc)⟩)
    cases hs : isBlank c with
    | true => exact .inr (.inl ⟨[c], r, _, rfl, .blank hs, h.congr (scanFrom_bare_blank hs)⟩)
    | false =>
      exact .inr (.inr ⟨[c], [c], r, _, rfl, .plain hq hb hs,
        h.congr (scanFrom_bare_plain hq hb hs)⟩)

theorem Separator.ne_nil {t : List Char} (h : Separator t) : t ≠ [] := by
  cases h <;> simp

theorem Piece.ne_nil {t ds : List Char} (h : Piece t ds) : t ≠ [] := by
  cases h <;> simp

theorem length_lt_of_ne_nil {t : List Char} (ht : t ≠ []) (rest : List Char) :
    rest.length < (t ++ rest).length := by
  have := List.length_pos_iff.mpr ht
  simp only [List.length_append]
  omega

/-- The open word goes on with pieces up to the end of the text or a separator. -/
theorem exists_pieces (h : Ends ⟨ws, some w, .bare, n⟩ cs f) :
    ∃ t ds, Pieces t ds ∧ ((∃ m, cs = t ∧ f = ⟨ws, some (ds.reverse ++ w), .bare, m⟩) ∨
      ∃ t' rest m, cs = t ++ (t' ++ rest) ∧ Separator t' ∧
        Ends ⟨String.ofList (ds.reverse ++ w).reverse :: ws, none, .bare, m⟩ rest f) := by
  induction hk : cs.length using Nat.strongRecOn generalizing cs w n with
  | _ k ih =>
    subst hk
    obtain ⟨rfl, rfl⟩ | ⟨t, rest, m, rfl, ht, hf⟩ | ⟨t, ds, rest, m, rfl, ht, hf⟩ := bare_cases h
    · exact ⟨[], [], .nil, .inl ⟨n, rfl, rfl⟩⟩
    · exact ⟨[], [], .nil, .inr ⟨t, rest, m, rfl, ht, hf⟩⟩
    · obtain ⟨t', ds', hp, hend⟩ := ih _ (length_lt_of_ne_nil ht.ne_nil rest) hf rfl
      refine ⟨t ++ t', ds ++ ds', .cons ht hp, ?_⟩
      obtain ⟨m', rfl, rfl⟩ | ⟨t'', rest', m', rfl, hs, hf'⟩ := hend
      · exact .inl ⟨m', rfl, by simp⟩
      · exact .inr ⟨t'', rest', m', by simp, hs, by simpa using hf'⟩

/-- **A text that is scanned to its end is cut into parts.** -/
theorem exists_parts (h : Ends ⟨ws, none, .bare, n⟩ cs f) :
    ∃ parts words, Derives cs words parts ∧ ended f.words f.word = words.reverse ++ ws := by
  induction hk : cs.length using Nat.strongRecOn generalizing cs ws n with
  | _ k ih =>
    subst hk
    obtain ⟨rfl, rfl⟩ | ⟨t, rest, m, rfl, ht, hf⟩ | ⟨t, ds, rest, m, rfl, ht, hf⟩ := bare_cases h
    · exact ⟨[], [], .nil, rfl⟩
    · obtain ⟨parts, words, hd, hw⟩ := ih _ (length_lt_of_ne_nil ht.ne_nil rest) hf rfl
      exact ⟨.separator t :: parts, words, hd.separator ht, hw⟩
    · obtain ⟨t', ds', hp, hend⟩ := exists_pieces hf
      have hword : Word (t ++ t') (ds ++ ds') := .intro ht hp
      obtain ⟨m', rfl, rfl⟩ | ⟨t'', rest', m', rfl, hs, hf'⟩ := hend
      · have hd := Derives.nil.word hword (by simp)
        exact ⟨_, _, by simpa using hd, by simp⟩
      · have hlt : rest'.length < (t ++ (t' ++ (t'' ++ rest'))).length := by
          have := length_lt_of_ne_nil ht.ne_nil (t' ++ (t'' ++ rest'))
          simp only [List.length_append] at this ⊢
          omega
        obtain ⟨parts, words, hd, hw⟩ := ih _ hlt hf' rfl
        have hd' := (hd.separator hs).word hword (by simp [Part.word?])
        exact ⟨_, _, by simpa using hd', by simpa using hw⟩

/-- **The default reader accepts exactly its grammar.** A text is complete with some words iff it is
a sequence of separators and words, any two words with a separator between them, that decode to
those words in order. -/
theorem read_eq_complete_iff (s : String) (ws : List String) :
    read s = .ok (.complete ws) ↔ ∃ parts, Derives s.toList ws parts := by
  rw [read_eq_ok_iff]
  constructor
  · rintro ⟨f, hf, ho⟩
    obtain ⟨hm, rfl⟩ := outcome_eq_complete_iff.mp ho
    obtain ⟨parts, words, hd, hw⟩ := exists_parts ⟨hf, hm⟩
    exact ⟨parts, by simpa [hw] using hd⟩
  · rintro ⟨parts, hv, ha, ht, rfl⟩
    obtain ⟨f, hf, hm, hw⟩ := @scanFrom_parts [] none 0 parts hv ha (.inl rfl)
    exact ⟨f, by rw [ht]; exact hf, outcome_eq_complete_iff.mpr ⟨hm, by simp [hw]⟩⟩

end CommandConsole.CommandLine.Grammar
