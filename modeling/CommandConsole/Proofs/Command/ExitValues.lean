import CommandConsole.Proofs.Command.Deeds
import CommandConsole.Proofs.Session.Boundary
import Mathlib.Algebra.Group.Int.Defs
import Mathlib.Data.List.Induction

/-!
# Exit values

A numeral is a sign or none and then digits, as many zeros in front as one likes; `Digits` and
`Numeral` say what number it stands for. `exit` and `quit` accept no argument, which is 0, or one
that is the numeral of a number of 32 bits with its sign (`Accepts`).

What they do is said by their scripts: one that has its arguments accepted asks for one thing, that
its shell end with the value; any other writes one line.

Results: `ofText?_eq_some_iff` (what is read as an exit code), `accepted?_eq_some_iff`,
`comes_of_accepts`, `comes_of_refuses` (what the commands come to).
-/

namespace CommandConsole

/-! ## Numerals -/

namespace DecimalText

/-- Digits, the most significant one first, stand for a number. -/
inductive Digits : List Char → Nat → Prop
  | one (c : Char) (h : '0' ≤ c ∧ c ≤ '9') : Digits [c] (c.toNat - '0'.toNat)
  | snoc {cs : List Char} {n : Nat} (hcs : Digits cs n) (c : Char) (h : '0' ≤ c ∧ c ≤ '9') :
      Digits (cs ++ [c]) (n * 10 + (c.toNat - '0'.toNat))

/-- A sign or none, and digits, stand for a number. -/
inductive Numeral : List Char → Int → Prop
  | bare {cs : List Char} {n : Nat} (h : Digits cs n) : Numeral cs n
  | plus {cs : List Char} {n : Nat} (h : Digits cs n) : Numeral ('+' :: cs) n
  | minus {cs : List Char} {n : Nat} (h : Digits cs n) : Numeral ('-' :: cs) (-n)

variable {cs : List Char} {n : Nat}

theorem isDigit_iff {c : Char} : isDigit c = true ↔ '0' ≤ c ∧ c ≤ '9' := by
  rw [isDigit, Bool.and_eq_true, decide_eq_true_eq, decide_eq_true_eq]

theorem valueOf_concat (cs : List Char) (c : Char) :
    valueOf (cs ++ [c]) = valueOf cs * 10 + (c.toNat - '0'.toNat) := by
  rw [valueOf, List.foldl_append]
  rfl

theorem digits_iff : Digits cs n ↔ cs ≠ [] ∧ cs.all isDigit = true ∧ n = valueOf cs := by
  constructor
  · intro h
    induction h with
    | one c hc => exact ⟨nofun, by simpa using isDigit_iff.mpr hc, (Nat.zero_add _).symm⟩
    | snoc _ c hc ih =>
      obtain ⟨-, hall, rfl⟩ := ih
      refine ⟨by simp, ?_, (valueOf_concat _ c).symm⟩
      rw [List.all_append, hall]
      simpa using isDigit_iff.mpr hc
  · rintro ⟨hne, hall, rfl⟩
    induction cs using List.reverseRecOn with
    | nil => exact absurd rfl hne
    | append_singleton front c ih =>
      rw [List.all_append, Bool.and_eq_true, List.all_cons, List.all_nil, Bool.and_true] at hall
      obtain ⟨hfront, hc⟩ := hall
      rw [valueOf_concat]
      by_cases hnil : front = []
      · subst hnil
        rw [valueOf, List.foldl_nil, Nat.zero_mul, Nat.zero_add]
        exact .one c (isDigit_iff.mp hc)
      · exact .snoc (ih hnil hfront) c (isDigit_iff.mp hc)

/-- No digit is taken for a sign. -/
theorem splitSign_of_digits (h : Digits cs n) : splitSign cs = (false, cs) := by
  obtain ⟨-, hall, -⟩ := digits_iff.mp h
  unfold splitSign
  split
  · cases (List.all_cons.symm.trans hall : (isDigit '-' && _) = true)
  · cases (List.all_cons.symm.trans hall : (isDigit '+' && _) = true)
  · rfl

/-- **What a numeral stands for.** -/
theorem numeral_iff {z : Int} : Numeral cs z ↔ ∃ n, Digits (splitSign cs).2 n ∧
    z = if (splitSign cs).1 then -(n : Int) else n := by
  constructor
  · intro h
    cases h with
    | @bare _ n h =>
      rw [splitSign_of_digits h]
      exact ⟨n, h, rfl⟩
    | @plus _ n h | @minus _ n h => exact ⟨n, h, rfl⟩
  · rintro ⟨n, h, rfl⟩
    unfold splitSign at h ⊢
    split at h
    · exact .minus h
    · exact .plus h
    · exact .bare h

end DecimalText

open DecimalText

/-! ## Exit codes -/

namespace ExitCode

/-- Whether a number has 32 bits with its sign. -/
def InRange (z : Int) : Prop :=
  -2 ^ 31 ≤ z ∧ z ≤ 2 ^ 31 - 1

theorem inRange_iff {z : Int} :
    InRange z ↔ Int32.minValue.toInt ≤ z ∧ z ≤ Int32.maxValue.toInt :=
  Iff.rfl

theorem inRange_toInt (v : ExitCode) : InRange v.toInt :=
  ⟨v.minValue_le_toInt, v.toInt_le⟩

theorem InRange.exists {z : Int} (h : InRange z) : ∃ v : ExitCode, v.toInt = z := by
  obtain ⟨hmin, hmax⟩ := h
  exact ⟨Int32.ofInt z, Int32.toInt_ofInt_of_le hmin (by omega)⟩

theorem ofInt?_eq_some_iff {z : Int} {v : ExitCode} : ofInt? z = some v ↔ v.toInt = z := by
  unfold ofInt?
  constructor
  · intro h
    split at h
    next hz =>
      obtain ⟨v', rfl⟩ := (inRange_iff.mpr hz).exists
      rw [Int32.ofInt_toInt] at h
      rw [Option.some.inj h]
    · cases h
  · rintro rfl
    rw [if_pos (inRange_iff.mp (inRange_toInt v)), Int32.ofInt_toInt]

/-- **What is read as an exit code.** -/
theorem ofText?_eq_some_iff {text : String} {v : ExitCode} :
    ofText? text = some v ↔ Numeral text.toList v.toInt := by
  rw [numeral_iff]
  unfold ofText?
  cases hsplit : splitSign text.toList with
  | mk negative ds =>
    simp only
    constructor
    · intro h
      split at h
      · cases h
      next hds =>
        rw [not_or, not_not, List.isEmpty_iff] at hds
        exact ⟨valueOf ds, digits_iff.mpr ⟨hds.1, hds.2, rfl⟩, ofInt?_eq_some_iff.mp h⟩
    · rintro ⟨n, hdigits, hn⟩
      obtain ⟨hne, hall, rfl⟩ := digits_iff.mp hdigits
      have hds : ¬ (ds.isEmpty = true ∨ ¬ ds.all isDigit = true) := by
        rw [not_or, not_not, List.isEmpty_iff]
        exact ⟨hne, hall⟩
      rw [if_neg hds]
      exact ofInt?_eq_some_iff.mpr hn

end ExitCode

/-! ## The commands -/

namespace Builtin

open Command ExitCode Session

/-- The arguments that `exit` and `quit` accept, with the number they stand for. -/
inductive Accepts : List String → Int → Prop
  | default : Accepts [] 0
  | numeral {text : String} {z : Int} (h : Numeral text.toList z) (hz : InRange z) :
      Accepts [text] z

/-- What `exit` and `quit` print when they accept their arguments not. -/
def complaint (name : String) : List String → String
  | [text] => "Error: invalid exit value \"" ++ text ++ "\""
  | _ => "Usage: " ++ name ++ " [value]"

variable {name : String} {args : List String} {inv : Invocation} {es : List Entry}
  {result : Except Failure ExitCode}

theorem accepted?_eq_some_iff {v : ExitCode} : accepted? args = some v ↔ Accepts args v.toInt := by
  unfold accepted?
  constructor
  · intro h
    split at h
    · cases h
      exact .default
    · exact .numeral (ofText?_eq_some_iff.mp h) (inRange_toInt v)
    · cases h
  · intro h
    generalize hz : v.toInt = z at h
    cases h with
    | default => exact congrArg some (Int32.toInt_inj.mp hz.symm)
    | numeral h => exact ofText?_eq_some_iff.mpr (hz ▸ h)

theorem Accepts.exists {z : Int} (h : Accepts args z) :
    ∃ v : ExitCode, v.toInt = z ∧ accepted? args = some v := by
  have hz : InRange z := by
    cases h with
    | default => exact inRange_toInt 0
    | numeral _ hz => exact hz
  obtain ⟨v, rfl⟩ := hz.exists
  exact ⟨v, rfl, accepted?_eq_some_iff.mpr h⟩

theorem accepted?_eq_none (h : ∀ z, ¬ Accepts args z) : accepted? args = none := by
  rw [Option.eq_none_iff_forall_ne_some]
  intro v hv
  exact h v.toInt (accepted?_eq_some_iff.mp hv)

/-- The script of `exit` and `quit` where they accept their arguments. -/
theorem scriptOf_exit_of_accepts {v : ExitCode} (h : accepted? args = some v) :
    scriptOf inv name args exit = .ask (.setExitValue v) fun _ => .done (.ok v) := by
  unfold accepted? at h
  split at h
  · cases h
    rfl
  · simp only [scriptOf, Binding.perform, exit, h]
    rfl
  · cases h

/-- What follows a line that was written, or not. -/
def afterComplaint : Except StreamFault Unit → Script (Except Failure ExitCode)
  | .ok () => .done (.ok ExitCode.failed)
  | .error fault => (Binding.reportFailure (.stream fault)).run

theorem complaint_singleton (name text : String) :
    complaint name [text] = "Error: " ++ ("invalid exit value " ++ quoted text) := by
  have hfront : "Error: invalid exit value \"" = "Error: " ++ ("invalid exit value " ++ "\"") := rfl
  calc complaint name [text]
      = "Error: invalid exit value \"" ++ text ++ "\"" := rfl
    _ = "Error: " ++ ("invalid exit value " ++ quoted text) := by
        simp only [hfront, quoted, String.append_assoc]

theorem complaint_cons_cons (name first second : String) (rest : List String) :
    complaint name (first :: second :: rest) = Help.usageLine name exitHelp.usage := by
  have hne : "[value]" ≠ "" := by decide
  have hback : " [value]" = " " ++ "[value]" := rfl
  calc complaint name (first :: second :: rest)
      = "Usage: " ++ name ++ " [value]" := rfl
    _ = "Usage: " ++ (name ++ " " ++ "[value]") := by simp only [hback, String.append_assoc]
    _ = Help.usageLine name exitHelp.usage :=
        congrArg ("Usage: " ++ ·) (Help.synopsis_some hne name).symm

/-- The script of `exit` and `quit` where they do not. -/
theorem scriptOf_exit_of_refuses (h : accepted? args = none) :
    scriptOf inv name args exit =
      .ask (.write .err (Text.asLine (complaint name args))) afterComplaint := by
  match args with
  | [] => cases h
  | [text] =>
    have hread : ofText? text = none := h
    rw [complaint_singleton]
    simp only [scriptOf, Binding.perform, exit, hread]
    refine congrArg (Program.ask _) (funext fun a => ?_)
    cases a <;> rfl
  | first :: second :: rest =>
    rw [complaint_cons_cons]
    refine congrArg (Program.ask _) (funext fun a => ?_)
    cases a <;> rfl

/-- **Accepted arguments** make the command end with the value, which it has set. -/
theorem comes_of_accepts {v : ExitCode} (h : accepted? args = some v) :
    Comes (scriptOf inv name args exit) es result ↔
      es = [.used (.setExitValue v) ()] ∧ result = .ok v := by
  rw [scriptOf_exit_of_accepts h]
  constructor
  · intro hcomes
    cases hcomes with
    | used a hcomes =>
      cases hcomes
      exact ⟨rfl, rfl⟩
    | nested hr => cases hr
  · rintro ⟨rfl, rfl⟩
    exact .used _ (.done _)

/-- **Other arguments** are complained about in one line, and make the command end with 1. -/
theorem comes_of_refuses (h : accepted? args = none) :
    (Comes (scriptOf inv name args exit) es result ∧ ∀ x ∈ es, x.fault? = none) ↔
      es = [.used (.write .err (Text.asLine (complaint name args))) (.ok ())] ∧
        result = .ok 1 := by
  rw [scriptOf_exit_of_refuses h]
  constructor
  · rintro ⟨hcomes, hfaults⟩
    cases hcomes with
    | used a hcomes =>
      cases a with
      | error fault => cases hfaults _ List.mem_cons_self
      | ok =>
        cases hcomes
        exact ⟨rfl, rfl⟩
    | nested hr => cases hr
  · rintro ⟨rfl, rfl⟩
    refine ⟨.used _ (.done _), ?_⟩
    intro x hx
    rw [List.mem_singleton.mp hx]
    rfl

end Builtin

end CommandConsole
