import CommandConsole.Proofs.Text.NormalForm

/-!
# Pieces and lines

A list is cut after each element that ends a piece. `Cuts` says which pieces that gives: each but
the last has one such element, at its end, and a last one without it is not empty. A line is a piece
of a text without its ending, that is its newline and one carriage return directly before that.

Results: `cuts_iff` (the pieces of a list), `not_mem_of_mem_lines`, `intercalate_lines` (the lines of
a text, joined by newlines, are the text with a newline for each carriage return and newline).
-/

namespace CommandConsole.Text

section Pieces

variable {α β : Type} {ends : α → Bool} {l front rest : List α} {ps : List (List α)} {a : α}

/-- Some pieces are what a list is cut into. -/
inductive Cuts (ends : α → Bool) : List α → List (List α) → Prop
  | nil : Cuts ends [] []
  /-- A last piece without an end. -/
  | last {l : List α} (hne : l ≠ []) (h : ∀ a ∈ l, ends a = false) : Cuts ends l [l]
  | ended {front rest : List α} {a : α} {ps : List (List α)} (h : ∀ b ∈ front, ends b = false)
      (ha : ends a = true) (hrest : Cuts ends rest ps) :
      Cuts ends (front ++ a :: rest) ((front ++ [a]) :: ps)

theorem spanThrough_ended (h : ∀ b ∈ front, ends b = false) (ha : ends a = true) :
    spanThrough ends (front ++ a :: rest) = (front ++ [a], rest) := by
  induction front with
  | nil => simp [spanThrough, ha]
  | cons b front ih =>
    obtain ⟨hb, hfront⟩ := List.forall_mem_cons.mp h
    rw [List.cons_append, spanThrough, if_neg (by simp [hb]), ih hfront]
    rfl

theorem pieces_ended (h : ∀ b ∈ front, ends b = false) (ha : ends a = true) :
    pieces ends (front ++ a :: rest) = (front ++ [a]) :: pieces ends rest := by
  rw [pieces_eq_spanThrough ends (by simp), spanThrough_ended h ha]

theorem spanThrough_last (h : ∀ b ∈ l, ends b = false) : spanThrough ends l = (l, []) := by
  induction l with
  | nil => rfl
  | cons b l ih =>
    obtain ⟨hb, hl⟩ := List.forall_mem_cons.mp h
    rw [spanThrough, if_neg (by simp [hb]), ih hl]

theorem pieces_last (hne : l ≠ []) (h : ∀ b ∈ l, ends b = false) : pieces ends l = [l] := by
  rw [pieces_eq_spanThrough ends hne, spanThrough_last h]
  rfl

/-- An element in front of some pieces belongs to the first of them, or is a piece of its own. -/
theorem Cuts.cons (h : Cuts ends l ps) (a : α) : ∃ qs, Cuts ends (a :: l) qs := by
  by_cases ha : ends a = true
  · have hfront : ∀ b ∈ ([] : List α), ends b = false := by simp
    exact ⟨_, .ended hfront ha h⟩
  · have ha : ends a = false := Bool.eq_false_iff.mpr ha
    cases h with
    | nil => exact ⟨_, .last (by simp) (by simp [ha])⟩
    | last hne h => exact ⟨_, .last (by simp) (List.forall_mem_cons.mpr ⟨ha, h⟩)⟩
    | @ended front rest b ps hfront hb hrest =>
      have hfront : ∀ b ∈ a :: front, ends b = false := List.forall_mem_cons.mpr ⟨ha, hfront⟩
      exact ⟨_, .ended hfront hb hrest⟩

theorem Cuts.eq_pieces (h : Cuts ends l ps) : ps = pieces ends l := by
  induction h with
  | nil => rfl
  | last hne h => exact (pieces_last hne h).symm
  | ended h ha _ ih => rw [pieces_ended h ha, ih]

/-- **The pieces of a list** are what it is cut into, and there is one way to cut it. -/
theorem cuts_iff : Cuts ends l ps ↔ ps = pieces ends l := by
  constructor
  · exact Cuts.eq_pieces
  · rintro rfl
    induction l with
    | nil => exact .nil
    | cons a l ih =>
      obtain ⟨qs, hqs⟩ := ih.cons a
      rwa [← hqs.eq_pieces]

theorem pieces_map (f : β → α) (l : List β) :
    pieces ends (l.map f) = (pieces (ends ∘ f) l).map (List.map f) := by
  have h : ∀ ps, Cuts (ends ∘ f) l ps → Cuts ends (l.map f) (ps.map (List.map f)) := by
    intro ps hcuts
    induction hcuts with
    | nil => exact .nil
    | last hne h => exact .last (by simpa using hne) (by simpa using h)
    | ended h ha _ ih =>
      rw [List.map_append, List.map_cons, List.map_cons, List.map_append]
      exact .ended (by simpa using h) ha ih
  exact (cuts_iff.mp (h _ (cuts_iff.mpr rfl))).symm

end Pieces

/-! ## Lines -/

variable {cs front rest : List Char} {line : List Char}

/-- The characters without one carriage return at their end. -/
def dropReturn (cs : List Char) : List Char :=
  if cs.getLast? = some '\r' then cs.dropLast else cs

theorem chomp_ended (front : List Char) : chomp (front ++ ['\n']) = dropReturn front := by
  unfold chomp dropReturn
  rw [List.reverse_append, List.reverse_singleton, List.singleton_append]
  rcases List.eq_nil_or_concat front with rfl | ⟨front, c, rfl⟩
  · rfl
  · rw [List.concat_eq_append, List.reverse_append, List.reverse_singleton, List.singleton_append,
      List.getLast?_concat, List.dropLast_concat]
    by_cases hc : c = '\r'
    · subst hc
      simp
    · simp [hc]

theorem chomp_of_not_mem (h : '\n' ∉ cs) : chomp cs = cs := by
  unfold chomp
  split
  next he => exact absurd (List.mem_reverse.mp (he ▸ List.mem_cons_self)) h
  next he => exact absurd (List.mem_reverse.mp (he ▸ List.mem_cons_self)) h
  · rfl

theorem dropReturn_cons {c : Char} (h : ¬ (c = '\r' ∧ front = [])) :
    dropReturn (c :: front) = c :: dropReturn front := by
  cases front with
  | nil =>
    have hc : c ≠ '\r' := fun hc => h ⟨hc, rfl⟩
    simp [dropReturn, hc]
  | cons d front =>
    rw [dropReturn, dropReturn, List.getLast?_cons_cons, List.dropLast_cons_cons]
    split <;> rfl

theorem mem_of_mem_dropReturn {c : Char} (h : c ∈ dropReturn cs) : c ∈ cs := by
  unfold dropReturn at h
  split at h
  · exact (List.dropLast_sublist cs).subset h
  · exact h

theorem forall_not_newline : (∀ c ∈ cs, (c == '\n') = false) ↔ '\n' ∉ cs := by
  constructor
  · intro h hmem
    simpa using h '\n' hmem
  · intro h c hc
    have hne : c ≠ '\n' := fun he => h (he ▸ hc)
    simpa using hne

theorem lines_ended (h : '\n' ∉ front) :
    lines (front ++ '\n' :: rest) = dropReturn front :: lines rest := by
  rw [lines, pieces_ended (forall_not_newline.mpr h) rfl, List.map_cons, chomp_ended]
  rfl

theorem lines_last (hne : cs ≠ []) (h : '\n' ∉ cs) : lines cs = [cs] := by
  rw [lines, pieces_last hne (forall_not_newline.mpr h), List.map_singleton, chomp_of_not_mem h]

/-- No line has a newline. -/
theorem not_mem_of_mem_lines (h : line ∈ lines cs) : '\n' ∉ line := by
  obtain ⟨ps, hps⟩ : ∃ ps, Cuts (· == '\n') cs ps := ⟨_, cuts_iff.mpr rfl⟩
  induction hps with
  | nil => cases h
  | last hne hcs =>
    have hcs := forall_not_newline.mp hcs
    rw [lines_last hne hcs, List.mem_singleton] at h
    rwa [h]
  | @ended front rest a ps hfront ha _ ih =>
    obtain rfl : a = '\n' := by simpa using ha
    have hfront := forall_not_newline.mp hfront
    rw [lines_ended hfront] at h
    rcases List.mem_cons.mp h with rfl | h
    · exact fun hmem => hfront (mem_of_mem_dropReturn hmem)
    · exact ih h

theorem lines_eq_nil_iff : lines cs = [] ↔ cs = [] := by
  constructor
  · intro h
    have hpieces : pieces (· == '\n') cs = [] := List.map_eq_nil_iff.mp h
    rw [← pieces_flatten (· == '\n') cs, hpieces]
    rfl
  · rintro rfl
    rfl

/-! ## Lines joined again -/

theorem withoutReturnsFrom_of_not_mem (h : '\n' ∉ cs) : withoutReturnsFrom cs = cs := by
  induction cs with
  | nil => rfl
  | cons c rest ih =>
    obtain ⟨-, hrest⟩ := not_or.mp (mt List.mem_cons.mpr h)
    have hhead : rest.head? ≠ some '\n' := fun hh => hrest (List.mem_of_head? hh)
    rw [withoutReturnsFrom_cons, if_neg fun hc => hhead hc.2, ih hrest]

theorem withoutReturnsFrom_ended (h : '\n' ∉ front) : withoutReturnsFrom (front ++ '\n' :: rest) =
    dropReturn front ++ '\n' :: withoutReturnsFrom rest := by
  induction front with
  | nil => rw [List.nil_append, withoutReturnsFrom_cons, if_neg fun hc => absurd hc.1 (by decide)]; rfl
  | cons c front ih =>
    obtain ⟨-, hfront⟩ := not_or.mp (mt List.mem_cons.mpr h)
    rw [List.cons_append, withoutReturnsFrom_cons, ih hfront]
    by_cases hreturn : c = '\r' ∧ front = []
    · obtain ⟨rfl, rfl⟩ := hreturn
      rfl
    · rw [dropReturn_cons hreturn, if_neg]
      · rfl
      · rintro ⟨hc, hhead⟩
        cases front with
        | nil => exact hreturn ⟨hc, rfl⟩
        | cons d front =>
          obtain rfl : d = '\n' := Option.some.inj hhead
          exact hfront List.mem_cons_self

/-- **The lines of a text that ends with no newline**, joined by newlines, are the text with a
newline for each carriage return and newline. -/
theorem intercalate_lines (h : cs.getLast? ≠ some '\n') :
    ['\n'].intercalate (lines cs) = withoutReturnsFrom cs := by
  obtain ⟨ps, hps⟩ : ∃ ps, Cuts (· == '\n') cs ps := ⟨_, cuts_iff.mpr rfl⟩
  induction hps with
  | nil => rfl
  | last hne hcs =>
    have hcs := forall_not_newline.mp hcs
    rw [lines_last hne hcs, List.intercalate_singleton, withoutReturnsFrom_of_not_mem hcs]
  | @ended front rest a ps hfront ha _ ih =>
    obtain rfl : a = '\n' := by simpa using ha
    have hfront := forall_not_newline.mp hfront
    have hne : rest ≠ [] := by
      rintro rfl
      simp at h
    have hrest : rest.getLast? ≠ some '\n' := by
      rwa [List.getLast?_append, List.getLast?_cons_of_ne_nil hne,
        Option.or_of_isSome (by simpa using hne)] at h
    have hlines : lines rest ≠ [] := mt lines_eq_nil_iff.mp hne
    rw [lines_ended hfront, List.intercalate_cons_of_ne_nil hlines, ih hrest,
      withoutReturnsFrom_ended hfront, List.append_assoc, List.singleton_append]

end CommandConsole.Text
