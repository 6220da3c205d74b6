import CommandConsole.Proofs.Session.Chain

/-!
# What a step does to the world

`Level.Does` tells the steps of a session apart by what becomes of the session. `Level.Touches` tells
them apart by what becomes of the world: a session writes to its own two outlets, shows the prompts
that its plan asks for, reads, and does nothing else to what it shares with others.

Results: `touches_of_step` (a step of a session), `touches_of_stepped` (a step of a chain is one of
one of its sessions).
-/

namespace CommandConsole

open Session

namespace Level

/-- An outlet of a session. -/
def Writes (l : Level) (outlet : Outlet) : Prop :=
  outlet = l.out ∨ outlet = l.err

/-- What a session does to its world. -/
inductive Touches (w : World) (l : Level) : World → Prop
  | nothing : Touches w l w
  | write {outlet : Outlet} (ho : l.Writes outlet) (text : String) :
      Touches w l (w.write outlet text).2
  | flush {outlet : Outlet} (ho : l.Writes outlet) : Touches w l (w.flush outlet).2
  | readLine : Touches w l w.readLine.2
  | startRead {text : String} {next : Answer (.prompt text) → Plan Next}
      (hp : l.phase = .own (.ask (.prompt text) next)) : Touches w l (w.startRead text).2
  | pollRead (text : String) : Touches w l (w.pollRead text).2

variable {console : Console} {w w' : World} {l l' : Level} {interrupts : Bool}

theorem writes_outlet (l : Level) (channel : Channel) : l.Writes (l.outlet channel) := by
  cases channel with
  | out => exact .inl rfl
  | err => exact .inr rfl

theorem touches_of_planStep {plan : Plan Next} (hp : l.phase = .own plan)
    (h : l.planStep console w plan = .moved l' w' interrupts) : Touches w l w' := by
  cases plan with
  | done x => cases x <;> cases h <;> exact .nothing
  | ask r next =>
    cases r with
    | write text =>
      cases h
      exact .write (.inl rfl) text
    | flush =>
      cases h
      exact .flush (.inl rfl)
    | isCancelled | renew | exitValue | resolve | run =>
      cases h
      exact .nothing
    | prompt text =>
      simp only [planStep] at h
      split at h <;> cases h
      · exact .nothing
      · exact .startRead hp
    | event prompt =>
      simp only [planStep] at h
      split at h
      · cases h
        exact .nothing
      · split at h
        · cases h
          exact .pollRead prompt
        · split at h <;> cases h
          exact .pollRead prompt

theorem touches_of_scriptStep {script : Command.Script (Except Failure ExitCode)}
    {next : Except Failure ExitCode → Plan Next}
    (h : l.scriptStep console w next script = .moved l' w' interrupts) : Touches w l w' := by
  cases script with
  | done result =>
    cases h
    exact .nothing
  | ask r more =>
    cases r with
    | write channel text =>
      cases h
      exact .write (l.writes_outlet channel) text
    | flush channel =>
      cases h
      exact .flush (l.writes_outlet channel)
    | readLine =>
      cases h
      exact .readLine
    | isCancelled | clock | yield | calendar | setExitValue =>
      cases h
      exact .nothing
    | wait deadline =>
      simp only [scriptStep] at h
      split at h
      · cases h
        exact .nothing
      · split at h <;> cases h
        exact .nothing
    | interrupt =>
      simp only [scriptStep] at h
      split at h <;> cases h <;> exact .nothing
    | nestShell args => cases h
    | nestOnce words | invoke words =>
      simp only [scriptStep] at h
      cases hb : console.resolve (.words words) with
      | error e =>
        rw [hb] at h
        cases h
        exact .write (.inr rfl) _
      | ok b =>
        rw [hb] at h
        cases h <;> exact .nothing

/-- **A step of a session** touches the world in one of these ways. -/
theorem touches_of_step (h : l.step console w = .moved l' w' interrupts) : Touches w l w' := by
  unfold step at h
  cases hp : l.phase with
  | own plan =>
    rw [hp] at h
    exact touches_of_planStep hp h
  | command script next =>
    rw [hp] at h
    exact touches_of_scriptStep h
  | _ =>
    rw [hp] at h
    cases h

end Level

namespace Run

variable {console : Console} {w w' : World} {levels levels' : List Level} {interrupts : Bool}

/-- **A step of a chain** touches the world as one of its sessions does. -/
theorem touches_of_stepped (hs : Stepped console w levels levels' w' interrupts) :
    ∃ l ∈ levels, l.Touches w w' := by
  induction hs with
  | last hstep => exact ⟨_, List.mem_cons_self, Level.touches_of_step hstep⟩
  | nest hstep =>
    obtain ⟨-, rfl, -⟩ := Level.spawns_of_nests hstep
    exact ⟨_, List.mem_cons_self, .nothing⟩
  | leave | execute | refuse => exact ⟨_, List.mem_cons_self, .nothing⟩
  | inner _ _ ih =>
    obtain ⟨l, hl, htouches⟩ := ih
    exact ⟨l, List.mem_cons_of_mem _ hl, htouches⟩

end Run

end CommandConsole
