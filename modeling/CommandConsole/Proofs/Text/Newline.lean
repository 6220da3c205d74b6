import CommandConsole.Stream.Sink
import CommandConsole.Text.Line

/-!
# Texts without bare newlines

A text is `Returned` if every newline in it has a carriage return directly before it. Texts written
one after the other keep this, because a newline at the start of a text counts as bare.

Results: `returned_withReturns` (what the translation makes of any text), `Returned.append`,
`returned_join`, `withReturns_eq_empty_iff` (a text that is translated stays empty or not empty, so
it makes the same call on a sink).
-/

namespace CommandConsole

namespace Text

/-- Every newline has a carriage return directly before it. -/
def Returned (s : String) : Prop :=
  ∀ front back, s.toList = front ++ '\n' :: back → front.getLast? = some '\r'

variable {s t : String}

theorem withReturnsAfter_spec {before : Char} {cs front back : List Char}
    (h : withReturnsAfter before cs = front ++ '\n' :: back) :
    front.getLast?.getD before = '\r' := by
  induction cs generalizing before front with
  | nil => simp [withReturnsAfter] at h
  | cons c rest ih =>
    rw [withReturnsAfter] at h
    split at h
    next hbare =>
      obtain ⟨rfl, -⟩ := hbare
      rcases front with _ | ⟨x, _ | ⟨y, front⟩⟩
      · cases h
      · obtain ⟨rfl, -⟩ := List.cons.inj h
        rfl
      · obtain ⟨rfl, htail⟩ := List.cons.inj (List.cons.inj h).2
        rw [List.getLast?_cons_cons, List.getLast?_cons]
        exact ih htail
    next hkept =>
      rcases front with _ | ⟨x, front⟩
      · obtain ⟨rfl, -⟩ := List.cons.inj h
        simpa using hkept
      · obtain ⟨rfl, htail⟩ := List.cons.inj h
        rw [List.getLast?_cons]
        exact ih htail

/-- **What the translation makes of a text** has no bare newline. -/
theorem returned_withReturns (s : String) : Returned (withReturns s) := by
  intro front back h
  rw [withReturns, String.toList_ofList] at h
  have hlast := withReturnsAfter_spec h
  cases hfront : front.getLast? with
  | none =>
    rw [hfront] at hlast
    cases hlast
  | some c =>
    rw [hfront] at hlast
    exact congrArg some hlast

theorem returned_of_not_mem (h : '\n' ∉ s.toList) : Returned s := by
  intro front back hcut
  exact absurd (by rw [hcut]; exact List.mem_append_right _ List.mem_cons_self) h

theorem Returned.append (hs : Returned s) (ht : Returned t) : Returned (s ++ t) := by
  intro front back h
  rw [String.toList_append, List.append_eq_append_iff] at h
  rcases h with ⟨middle, rfl, hback⟩ | ⟨middle, hfront, hback⟩
  · -- The newline is in the second text, and not its first character.
    have hlast := ht middle back hback
    rw [List.getLast?_append, hlast]
    rfl
  · rcases middle with _ | ⟨c, middle⟩
    · cases ht [] back hback.symm
    · obtain ⟨rfl, -⟩ := List.cons.inj hback
      exact hs front middle hfront

theorem returned_empty : Returned "" :=
  returned_of_not_mem (by decide)

theorem returned_join {texts : List String} (h : ∀ text ∈ texts, Returned text) :
    Returned (String.join texts) := by
  induction texts with
  | nil => exact returned_empty
  | cons text rest ih =>
    obtain ⟨htext, hrest⟩ := List.forall_mem_cons.mp h
    rw [String.join_cons]
    exact htext.append (ih hrest)

theorem withReturns_eq_empty_iff : withReturns s = "" ↔ s = "" := by
  rw [← String.toList_eq_nil_iff, ← String.toList_eq_nil_iff, withReturns, String.toList_ofList]
  cases s.toList with
  | nil => simp [withReturnsAfter]
  | cons c rest =>
    rw [withReturnsAfter]
    split <;> simp

theorem asLine_ne (text : String) : asLine text ≠ "" := by
  intro h
  exact absurd (String.append_eq_empty_iff.mp h).2 (by decide)

end Text

namespace Output

theorem translate_eq_empty_iff {o : Output} {text : String} : o.translate text = "" ↔ text = "" := by
  rw [translate]
  split
  · exact Text.withReturns_eq_empty_iff
  · rfl

end Output

end CommandConsole
