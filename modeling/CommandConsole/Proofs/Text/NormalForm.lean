import CommandConsole.Proofs.Text.Newline

/-!
# The normal form of newlines

The translation puts a carriage return before each bare newline of a text and changes nothing else.
So its results are the texts without bare newlines: it leaves them as they are, and taking out the
carriage returns before newlines gives the same as before the translation.

Within a text the translation knows the character before each newline, and the first character of a
text has none before it. So two parts of a text are translated as the text is, unless it is cut
between a carriage return and its newline (`Seam`).

Results: `withReturns_eq_self_iff`, `withoutReturns_withReturns`, `withReturns_append_of_not_seam`,
`exists_of_seam`.
-/

namespace CommandConsole.Text

/-- The characters with a newline in place of each carriage return and newline. -/
def withoutReturnsFrom : List Char → List Char
  | '\r' :: '\n' :: rest => '\n' :: withoutReturnsFrom rest
  | c :: rest => c :: withoutReturnsFrom rest
  | [] => []

/-- The text with a newline in place of each carriage return and newline. -/
def withoutReturns (s : String) : String :=
  String.ofList (withoutReturnsFrom s.toList)

/-- A text is cut between a carriage return and its newline. -/
def Seam (a b : String) : Prop :=
  a.toList.getLast? = some '\r' ∧ b.toList.head? = some '\n'

variable {before c : Char} {cs : List Char} {s a b : String}

/-! ## Texts that stay as they are -/

theorem withReturnsAfter_eq_self
    (h : ∀ front back, cs = front ++ '\n' :: back → front.getLast?.getD before = '\r') :
    withReturnsAfter before cs = cs := by
  induction cs generalizing before with
  | nil => rfl
  | cons c rest ih =>
    have hkept : ¬ (c = '\n' ∧ before ≠ '\r') := by
      rintro ⟨rfl, hbefore⟩
      exact hbefore (h [] rest rfl)
    rw [withReturnsAfter, if_neg hkept, ih]
    intro front back hcut
    have hlast := h (c :: front) back (by rw [hcut, List.cons_append])
    rwa [List.getLast?_cons] at hlast

/-- **The translation leaves exactly the texts without bare newlines as they are.** -/
theorem withReturns_eq_self_iff : withReturns s = s ↔ Returned s := by
  constructor
  · intro h
    rw [← h]
    exact returned_withReturns s
  · intro h
    rw [withReturns, withReturnsAfter_eq_self, String.ofList_toList]
    intro front back hcut
    rw [h front back hcut]
    rfl

/-! ## Taking the carriage returns out again -/

theorem withoutReturnsFrom_cons (c : Char) (rest : List Char) :
    withoutReturnsFrom (c :: rest) =
      if c = '\r' ∧ rest.head? = some '\n' then withoutReturnsFrom rest
      else c :: withoutReturnsFrom rest := by
  split
  next h =>
    obtain ⟨rfl, hhead⟩ := h
    obtain ⟨more, rfl⟩ := List.head?_eq_some_iff.mp hhead
    rw [withoutReturnsFrom, withoutReturnsFrom]
    simp
  next h =>
    rw [withoutReturnsFrom]
    rintro more rfl rfl
    exact h ⟨rfl, rfl⟩

/-- Behind a carriage return, a newline comes first where it came first. -/
theorem head?_withReturnsAfter (cs : List Char) :
    (withReturnsAfter '\r' cs).head? = cs.head? := by
  cases cs with
  | nil => rfl
  | cons c rest =>
    rw [withReturnsAfter, if_neg fun h => h.2 rfl]
    rfl

theorem withoutReturnsFrom_withReturnsAfter (before : Char) (cs : List Char) :
    withoutReturnsFrom (withReturnsAfter before cs) = withoutReturnsFrom cs := by
  induction cs generalizing before with
  | nil => rfl
  | cons c rest ih =>
    rw [withReturnsAfter]
    split
    next hbare =>
      obtain ⟨rfl, -⟩ := hbare
      have hnewline : withoutReturnsFrom ('\n' :: rest) = '\n' :: withoutReturnsFrom rest := by
        rw [withoutReturnsFrom_cons, if_neg fun h => absurd h.1 (by decide)]
      rw [withoutReturnsFrom, ih, hnewline]
    next =>
      rw [withoutReturnsFrom_cons, withoutReturnsFrom_cons, ih]
      by_cases hc : c = '\r'
      · rw [hc, head?_withReturnsAfter]
      · rw [if_neg fun h => hc h.1, if_neg fun h => hc h.1]

/-- **The translation adds nothing but carriage returns before newlines.** -/
theorem withoutReturns_withReturns (s : String) :
    withoutReturns (withReturns s) = withoutReturns s := by
  rw [withoutReturns, withReturns, String.toList_ofList, withoutReturnsFrom_withReturnsAfter,
    withoutReturns]

/-! ## Texts in parts -/

theorem withReturnsAfter_append (before : Char) (cs more : List Char) :
    withReturnsAfter before (cs ++ more) =
      withReturnsAfter before cs ++ withReturnsAfter (cs.getLast?.getD before) more := by
  induction cs generalizing before with
  | nil => rfl
  | cons c rest ih =>
    rw [List.cons_append, withReturnsAfter, withReturnsAfter, ih, List.getLast?_cons,
      Option.getD_some]
    split <;> rfl

/-- What a text becomes in front of another one, and what that one becomes behind it. -/
theorem withReturns_append (a b : String) : withReturns (a ++ b) =
    withReturns a ++ String.ofList (withReturnsAfter (a.toList.getLast?.getD '\x00') b.toList) := by
  rw [withReturns, withReturns, String.toList_append, withReturnsAfter_append, String.ofList_append]

/-- The character before a text matters only if the text begins with a newline and it is a carriage
return. -/
theorem withReturnsAfter_congr {other : Char}
    (h : cs.head? = some '\n' → (before = '\r' ↔ other = '\r')) :
    withReturnsAfter before cs = withReturnsAfter other cs := by
  cases cs with
  | nil => rfl
  | cons c rest =>
    rw [withReturnsAfter, withReturnsAfter]
    by_cases hc : c = '\n'
    · subst hc
      simp only [ne_eq, h rfl]
    · rw [if_neg fun hbare => hc hbare.1, if_neg fun hbare => hc hbare.1]

theorem withReturns_append_of_not_seam (h : ¬ Seam a b) :
    withReturns a ++ withReturns b = withReturns (a ++ b) := by
  rw [withReturns_append, withReturns.eq_1 b]
  congr 2
  refine withReturnsAfter_congr fun hhead => ?_
  have hlast : a.toList.getLast? ≠ some '\r' := fun hlast => h ⟨hlast, hhead⟩
  cases hl : a.toList.getLast? with
  | none => rfl
  | some c =>
    rw [hl] at hlast
    simpa using hlast

/-- **A text that is cut between a carriage return and its newline** gets one carriage return more
there. -/
theorem exists_of_seam (h : Seam a b) : ∃ tail, withReturns (a ++ b) = withReturns a ++ tail ∧
    withReturns a ++ withReturns b = withReturns a ++ "\r" ++ tail := by
  obtain ⟨hlast, hhead⟩ := h
  obtain ⟨rest, hb⟩ := List.head?_eq_some_iff.mp hhead
  refine ⟨String.ofList ('\n' :: withReturnsAfter '\n' rest), ?_, ?_⟩
  · rw [withReturns_append, hlast, hb]
    rfl
  · have hbare : withReturnsAfter '\x00' ('\n' :: rest) =
        ['\r'] ++ '\n' :: withReturnsAfter '\n' rest := rfl
    rw [String.append_assoc, withReturns.eq_1 b, hb, hbare, String.ofList_append]

end CommandConsole.Text
