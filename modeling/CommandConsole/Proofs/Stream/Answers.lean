import CommandConsole.Stream.Source

/-!
# The answers of a source

A source answers once for each of its lines, also for those that cannot be read, and then with its
end for ever. While it is open more may come, which adds to its last line if that is unfinished but
changes no answer that was given. `Gives` says which answers a source has given of all that came to
it.

Results: `gives_readLine?`, `gives_feed`, `gives_close` (what a read and what arrives does to it),
`answer_of_gives` and `lines_of_gives` (the answers given are the first ones, in order),
`unfinished_of_waiting` (a read waits only when all whole lines were given).
-/

namespace CommandConsole.Source

open Text

/-- The answers for the lines that some items make, in order. -/
def answersOf (items : List Item) : List (Except StreamFault (Option String)) :=
  (pieces Item.ends items).map fun piece => (lineOf piece).map some

/-- The answers of an input in order: one for each line, and then its end for ever. -/
def answerAt (items : List Item) (i : Nat) : Except StreamFault (Option String) :=
  (answersOf items)[i]?.getD (.ok none)

/-- The text of a line that could be read. -/
def textOf? : Except StreamFault (Option String) → Option String
  | .ok line => line
  | .error _ => none

/-- The lines of an input that can be read, in order. -/
def linesOf (items : List Item) : List String :=
  (answersOf items).filterMap textOf?

/-- A source has given some answers of all that has come to it so far. -/
inductive Gives (total : List Item) (given : List (Except StreamFault (Option String)))
    (s : Source) : Prop
  /-- The other answers are those for what the source still holds, whatever is still to come. -/
  | within (h : ∀ more, s.closed = false ∨ more = [] →
      answersOf (total ++ more) = given ++ answersOf (s.rest ++ more))
  /-- All answers were given, and then the end of the source. -/
  | beyond (hclosed : s.closed = true) (hrest : s.rest = []) (n : Nat)
      (h : given = answersOf total ++ List.replicate n (.ok none))

variable {total items : List Item} {given : List (Except StreamFault (Option String))}
  {answer : Except StreamFault (Option String)} {s s' : Source}

theorem gives_start (s : Source) : Gives s.rest [] s :=
  .within fun _ _ => rfl

theorem answersOf_eq_cons (h : items ≠ []) : answersOf items =
    (lineOf (spanThrough Item.ends items).1).map some ::
      answersOf (spanThrough Item.ends items).2 := by
  rw [answersOf, pieces_eq_spanThrough _ h]
  rfl

theorem readLine?_eq_some (h : s.readLine? = some (answer, s')) :
    (isEnded Item.ends (spanThrough Item.ends s.rest).1 = true ∨ s.closed = true) ∧
      s' = { s with rest := (spanThrough Item.ends s.rest).2 } ∧
      answer = if s.rest = [] then .ok none
        else (lineOf (spanThrough Item.ends s.rest).1).map some := by
  unfold readLine? at h
  simp only at h
  split at h
  next hready =>
    obtain ⟨rfl, rfl⟩ := Prod.mk.inj (Option.some.inj h)
    refine ⟨hready, rfl, ?_⟩
    by_cases hrest : s.rest = []
    · rw [if_pos hrest, hrest]
      rfl
    · have hne : (spanThrough Item.ends s.rest).1 ≠ [] := spanThrough_fst_ne_nil hrest
      rw [if_neg hrest, if_neg (by simpa using hne)]
  · cases h

/-- A read of what comes to a source later begins with the same line. -/
theorem answersOf_append_of_ready {more : List Item} (hrest : s.rest ≠ [])
    (hready : isEnded Item.ends (spanThrough Item.ends s.rest).1 = true ∨ s.closed = true)
    (hmore : s.closed = false ∨ more = []) : answersOf (s.rest ++ more) =
      (lineOf (spanThrough Item.ends s.rest).1).map some ::
        answersOf ((spanThrough Item.ends s.rest).2 ++ more) := by
  rcases hmore with hopen | rfl
  · have hended := hready.resolve_right (by simp [hopen])
    have hspan := spanThrough_append_of_ends hended more
    rw [answersOf_eq_cons (by simp [hrest]), hspan]
  · rw [List.append_nil, List.append_nil]
    exact answersOf_eq_cons hrest

/-- **A read** gives the next answer. -/
theorem gives_readLine? (h : Gives total given s) (hr : s.readLine? = some (answer, s')) :
    Gives total (given ++ [answer]) s' := by
  obtain ⟨hready, rfl, hanswer⟩ := readLine?_eq_some hr
  by_cases hrest : s.rest = []
  · -- The source is at its end, which it gives once more.
    rw [if_pos hrest] at hanswer
    have hclosed : s.closed = true := by
      rw [hrest] at hready
      exact hready.resolve_left nofun
    have hempty : (spanThrough Item.ends s.rest).2 = [] := by rw [hrest]; rfl
    cases h with
    | within h =>
      have hall := h [] (.inr rfl)
      rw [hrest, List.append_nil, List.append_nil] at hall
      have hgiven : answersOf total = given := hall.trans (List.append_nil given)
      exact .beyond hclosed hempty 1 (by rw [hgiven, hanswer]; rfl)
    | beyond _ _ n h =>
      refine .beyond hclosed hempty (n + 1) ?_
      rw [h, hanswer, List.append_assoc, List.replicate_succ']
  · rw [if_neg hrest] at hanswer
    cases h with
    | beyond _ hnil n h => exact absurd hnil hrest
    | within h =>
      refine .within fun more hmore => ?_
      rw [h more hmore, answersOf_append_of_ready hrest hready hmore, hanswer, List.append_assoc]
      rfl

/-- **What comes to an open source** changes no answer that was given. -/
theorem gives_feed (h : Gives total given s) (hopen : s.closed = false) (items : List Item) :
    Gives (total ++ items) given (s.feed items) := by
  cases h with
  | beyond hclosed => exact absurd (hopen.symm.trans hclosed) nofun
  | within h =>
    refine .within fun more _ => ?_
    rw [List.append_assoc, h (items ++ more) (.inl hopen), feed, List.append_assoc]

theorem gives_close (h : Gives total given s) : Gives total given s.close := by
  cases h with
  | beyond _ hrest n h => exact .beyond rfl hrest n h
  | within h =>
    refine .within fun more hmore => h more ?_
    exact .inr (hmore.resolve_left nofun)

/-- The answers given are the first ones, and the end of the source behind them. -/
theorem prefix_of_gives (h : Gives total given s) :
    ∃ n, given <+: answersOf total ++ List.replicate n (.ok none) := by
  cases h with
  | within h =>
    have hall := h [] (.inr rfl)
    rw [List.append_nil, List.append_nil] at hall
    exact ⟨0, by rw [hall, List.replicate_zero, List.append_nil]; exact List.prefix_append _ _⟩
  | beyond _ _ n h => exact ⟨n, [], by rw [List.append_nil, h]⟩

/-- **The answers that a source has given** are its answers in order. -/
theorem answer_of_gives (h : Gives total given s) {i : Nat} (hi : given[i]? = some answer) :
    answer = answerAt total i := by
  obtain ⟨n, rest, hn⟩ := prefix_of_gives h
  obtain ⟨hlt, -⟩ := List.getElem?_eq_some_iff.mp hi
  have hall : (answersOf total ++ List.replicate n (.ok none))[i]? = some answer := by
    rw [← hn, List.getElem?_append_left hlt, hi]
  by_cases hline : i < (answersOf total).length
  · rw [List.getElem?_append_left hline] at hall
    rw [answerAt, hall]
    rfl
  · have hle : (answersOf total).length ≤ i := Nat.le_of_not_lt hline
    rw [List.getElem?_append_right hle] at hall
    rw [answerAt, List.getElem?_eq_none hle, List.eq_of_mem_replicate (List.mem_of_getElem? hall)]
    rfl

/-- The lines among the answers given are the first lines, in order. -/
theorem lines_of_gives (h : Gives total given s) : given.filterMap textOf? <+: linesOf total := by
  obtain ⟨n, hn⟩ := prefix_of_gives h
  have hlines := hn.filterMap textOf?
  have hend : (List.replicate n (Except.ok none)).filterMap textOf? = [] := by
    rw [List.filterMap_eq_nil_iff]
    intro answer hmem
    rw [List.eq_of_mem_replicate hmem]
    rfl
  rwa [List.filterMap_append, hend, List.append_nil] at hlines

/-- **A read waits** only when the source is open and all that it was not asked for is an unfinished
line. -/
theorem unfinished_of_waiting (h : Gives total given s) (hr : s.readLine? = none) :
    s.closed = false ∧ answersOf total = given ++ answersOf s.rest ∧
      ∀ x ∈ s.rest, x.ends = false := by
  unfold readLine? at hr
  simp only at hr
  split at hr
  · cases hr
  next hready =>
    obtain ⟨hended, hclosed⟩ := not_or.mp hready
    have hopen : s.closed = false := Bool.eq_false_iff.mpr hclosed
    refine ⟨hopen, ?_, not_ends_of_spanThrough (Bool.eq_false_iff.mpr hended)⟩
    cases h with
    | beyond hc => exact absurd hc hclosed
    | within h =>
      have hall := h [] (.inr rfl)
      rwa [List.append_nil, List.append_nil] at hall

end CommandConsole.Source
