/-!
# Lines

A line ends with a newline, and one carriage return directly before that newline belongs to the
ending. `spanThrough` cuts the first piece off a list, its terminator included, and `pieces` cuts
all of them; `chomp` takes the ending off one piece; `lines` does both. A last piece without a
newline is a line with no ending, so nothing is taken off it, not even a carriage return.

Results: `spanThrough_append`, `pieces_flatten` (cutting loses nothing), `pieces_eq_spanThrough`,
`spanThrough_append_of_ends` (what follows a whole piece does not change it).
-/

namespace CommandConsole.Text

variable {α : Type}

/-- The list up to and with the first element that ends a piece, and what follows it. -/
def spanThrough (ends : α → Bool) : List α → List α × List α
  | [] => ([], [])
  | a :: rest =>
    if ends a then ([a], rest)
    else ((a :: (spanThrough ends rest).1), (spanThrough ends rest).2)

/-- The list cut after each element that ends a piece. -/
def pieces (ends : α → Bool) : List α → List (List α)
  | [] => []
  | a :: rest =>
    if ends a then [a] :: pieces ends rest
    else
      match pieces ends rest with
      | [] => [[a]]
      | p :: ps => (a :: p) :: ps

@[simp] theorem spanThrough_append (ends : α → Bool) (l : List α) :
    (spanThrough ends l).1 ++ (spanThrough ends l).2 = l := by
  induction l with
  | nil => rfl
  | cons a rest ih =>
    unfold spanThrough
    split
    · rfl
    · simp [ih]

theorem pieces_flatten (ends : α → Bool) (l : List α) : (pieces ends l).flatten = l := by
  induction l with
  | nil => rfl
  | cons a rest ih =>
    unfold pieces
    split
    · simp [ih]
    · split
      next h => rw [h] at ih; simp at ih; simp [← ih]
      next h => rw [h] at ih; simp at ih; simp [← ih]

/-- The first piece is what `spanThrough` cuts off. -/
theorem pieces_eq_spanThrough (ends : α → Bool) {l : List α} (h : l ≠ []) :
    pieces ends l = (spanThrough ends l).1 :: pieces ends (spanThrough ends l).2 := by
  induction l with
  | nil => exact absurd rfl h
  | cons a rest ih =>
    by_cases ha : ends a
    · simp [pieces, spanThrough, ha]
    · cases rest with
      | nil => simp [pieces, spanThrough, ha]
      | cons b rest => rw [pieces, ih (by simp)]; simp [spanThrough, ha]

theorem spanThrough_fst_ne_nil {ends : α → Bool} {l : List α} (h : l ≠ []) :
    (spanThrough ends l).1 ≠ [] := by
  cases l with
  | nil => exact absurd rfl h
  | cons a rest =>
    unfold spanThrough
    split <;> exact List.cons_ne_nil _ _

/-- Whether a piece has its terminator. -/
def isEnded (ends : α → Bool) (piece : List α) : Bool :=
  piece.getLast?.any ends

theorem isEnded_cons {ends : α → Bool} {a : α} {piece : List α} (h : piece ≠ []) :
    isEnded ends (a :: piece) = isEnded ends piece := by
  rw [isEnded, isEnded, List.getLast?_cons_of_ne_nil h]

/-- A piece that has its terminator is cut off whatever follows. -/
theorem spanThrough_append_of_ends {ends : α → Bool} {l : List α}
    (h : isEnded ends (spanThrough ends l).1 = true) (more : List α) :
    spanThrough ends (l ++ more) = ((spanThrough ends l).1, (spanThrough ends l).2 ++ more) := by
  induction l with
  | nil => cases h
  | cons a rest ih =>
    rw [List.cons_append]
    unfold spanThrough at h ⊢
    by_cases ha : ends a = true
    · rw [if_pos ha, if_pos ha]
    · rw [if_neg ha] at h
      rw [if_neg ha, if_neg ha]
      have hne : (spanThrough ends rest).1 ≠ [] := by
        intro hnil
        simp [isEnded, hnil, ha] at h
      rw [isEnded_cons hne] at h
      rw [ih h]

/-- Where no terminator is cut off, there is none. -/
theorem not_ends_of_spanThrough {ends : α → Bool} {l : List α}
    (h : isEnded ends (spanThrough ends l).1 = false) : ∀ a ∈ l, ends a = false := by
  induction l with
  | nil => simp
  | cons a rest ih =>
    unfold spanThrough at h
    by_cases ha : ends a = true
    · rw [if_pos ha] at h
      simp [isEnded, ha] at h
    · rw [if_neg ha] at h
      have hrest : ∀ b ∈ rest, ends b = false := by
        cases rest with
        | nil => simp
        | cons b rest =>
          have hne : (spanThrough ends (b :: rest)).1 ≠ [] :=
            spanThrough_fst_ne_nil (List.cons_ne_nil b rest)
          exact ih (isEnded_cons hne ▸ h)
      exact List.forall_mem_cons.mpr ⟨Bool.eq_false_iff.mpr ha, hrest⟩

/-- A piece without its line ending. -/
def chomp (cs : List Char) : List Char :=
  match cs.reverse with
  | '\n' :: '\r' :: front => front.reverse
  | '\n' :: front => front.reverse
  | _ => cs

/-- The lines of a text, without their endings. -/
def lines (cs : List Char) : List (List Char) :=
  (pieces (· == '\n') cs).map chomp

/-- A text with the newline that ends it as a line. -/
def asLine (text : String) : String :=
  text ++ "\n"

end CommandConsole.Text
