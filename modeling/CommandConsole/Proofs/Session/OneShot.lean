import CommandConsole.Proofs.Session.Boundary
import CommandConsole.Proofs.Session.Hosting
import CommandConsole.Proofs.Session.Play
import CommandConsole.Proofs.Session.Returns

/-!
# How a one-shot session ends

A one-shot session runs its command, flushes its output and ends. `OneShot` is what it has come to,
by its log; nothing that happens to it on the way leads anywhere else. What its command came to is
the result if the flush is taken. If the flush fails its fault is the result, also where the command
was interrupted.

As an activity, the session is called by the activity alone (`Entrusted`). The recorded exit value
is then the one that stands for the result: 130 for an interrupted session, but 1 for one whose
flush failed.

Results: `isOneShot_of_past` (what a session has come to), `headed_step` (the first session of a run
has a past), `tended_of_entrusted` (what is recorded). Main statement: `flushed_of_once`.
-/

namespace CommandConsole

open Session

namespace Session

/-- What a one-shot session ends with, by what its command came to and the answer to the flush. -/
def flushed (result : Except Failure ExitCode) : Except StreamFault Unit → Except Failure ExitCode
  | .ok () => result
  | .error fault => .error (.stream fault)

/-- A one-shot session after its flush. -/
def closing (result : Except Failure ExitCode) (a : Answer .flush) : Plan Next :=
  .done (.ended (flushed result a))

/-- A one-shot session after its command. -/
def flushing (result : Except Failure ExitCode) : Plan Next :=
  .ask .flush (closing result)

theorem once_eq (b : Binding) : once b = .ask (.run b) flushing := by
  refine congrArg (Program.ask _) (funext fun result => ?_)
  refine congrArg (Program.ask _) (funext fun a => ?_)
  cases a <;> rfl

/-- What a one-shot session has come to, by its log. -/
inductive OneShot (b : Binding) : List Entry → Phase → Prop
  | idle : OneShot b [] .idle
  | opened : OneShot b [] (.own (.ask (.run b) flushing))
  | command {during : List Entry} (hu : ∀ x ∈ during, x.IsUsed)
      (script : Command.Script (Except Failure ExitCode)) :
      OneShot b (.began b :: during) (.command script flushing)
  | nested {during : List Entry} (hu : ∀ x ∈ during, x.IsUsed)
      (resume : Except Failure ExitCode → Command.Script (Except Failure ExitCode)) :
      OneShot b (.began b :: during) (.nested resume flushing)
  | ended {during : List Entry} (hu : ∀ x ∈ during, x.IsUsed) (result : Except Failure ExitCode) :
      OneShot b (.began b :: (during ++ [.ended result])) (.own (.ask .flush (closing result)))
  | flushed {during : List Entry} (hu : ∀ x ∈ during, x.IsUsed) (result : Except Failure ExitCode)
      (a : Answer .flush) : OneShot b (.began b :: (during ++ [.ended result, .asked .flush a]))
        (.own (.done (.ended (flushed result a))))
  | finished {during : List Entry} (hu : ∀ x ∈ during, x.IsUsed)
      (result : Except Failure ExitCode) (a : Answer .flush) :
      OneShot b (.began b :: (during ++ [.ended result, .asked .flush a]))
        (.over (Session.flushed result a))

variable {b : Binding} {log : List Entry} {phase : Phase}

theorem OneShot.of_over {result : Except Failure ExitCode} (h : OneShot b log (.over result)) :
    ∃ during r a, log = .began b :: (during ++ [.ended r, .asked .flush a]) ∧
      (∀ x ∈ during, x.IsUsed) ∧ result = Session.flushed r a := by
  cases h with
  | finished hu r a => exact ⟨_, r, a, rfl, hu, rfl⟩

theorem not_isUsed_ended {during during' back : List Entry} {r : Except Failure ExitCode}
    (hu : ∀ x ∈ during', x.IsUsed) (h : during ++ .ended r :: back = during') : False := by
  obtain ⟨q, a, he⟩ := hu (.ended r) (h ▸ List.mem_append_right during List.mem_cons_self)
  cases he

/-- Its command has just ended. -/
theorem OneShot.of_ended {during : List Entry} {r : Except Failure ExitCode}
    (h : OneShot b (.began b :: (during ++ [.ended r])) phase) :
    phase = .own (.ask .flush (closing r)) := by
  generalize hlog : Entry.began b :: (during ++ [.ended r]) = log at h
  cases h with
  | idle | opened => cases hlog
  | command hu | nested hu => exact (not_isUsed_ended hu (List.cons.inj hlog).2).elim
  | ended =>
    obtain ⟨-, hr⟩ := List.append_inj' (List.cons.inj hlog).2 rfl
    cases hr
    rfl
  | flushed | finished =>
    have hlast := congrArg List.getLast? (List.cons.inj hlog).2
    simp at hlast

/-- Its output has just been flushed, or it has ended. -/
theorem OneShot.of_flushed {during : List Entry} {r : Except Failure ExitCode} {a : Answer .flush}
    (h : OneShot b (.began b :: (during ++ [.ended r, .asked .flush a])) phase) :
    phase = .own (.done (.ended (Session.flushed r a))) ∨ phase = .over (Session.flushed r a) := by
  generalize hlog : Entry.began b :: (during ++ [.ended r, .asked .flush a]) = log at h
  cases h with
  | idle | opened => cases hlog
  | command hu | nested hu => exact (not_isUsed_ended hu (List.cons.inj hlog).2).elim
  | ended =>
    have hlast := congrArg List.getLast? (List.cons.inj hlog).2
    simp at hlast
  | flushed =>
    obtain ⟨-, htail⟩ := List.append_inj' (List.cons.inj hlog).2 rfl
    cases htail
    exact .inl rfl
  | finished =>
    obtain ⟨-, htail⟩ := List.append_inj' (List.cons.inj hlog).2 rfl
    cases htail
    exact .inr rfl

end Session

namespace Level

variable {console : Console} {w w' : World} {b : Binding} {l l' l₀ : Level}
  {log entries : List Entry} {past marks : List Mark} {out : Outlet}

/-- What holds of a one-shot session with its log. -/
structure IsOneShot (b : Binding) (out : Outlet) (log : List Entry) (l : Level) : Prop where
  stands : OneShot b log l.phase
  out : l.out = out
  role : l.role = .once b
  sound : l.Sound

theorem oneShot_of_does (h : OneShot b log l.phase) (hd : Does console w l entries l') :
    OneShot b (log ++ entries) l'.phase := by
  cases hd with
  | again hp =>
    rw [hp] at h
    cases h
  | ended hp =>
    rw [hp] at h
    rw [List.append_nil]
    cases h with
    | flushed hu result a => exact .finished hu result a
  | asked hp hr ha =>
    rw [hp] at h
    cases h with
    | opened => exact absurd rfl (hr b)
    | ended hu result =>
      rw [List.cons_append, List.append_assoc]
      exact .flushed hu result _
  | waited =>
    rw [List.append_nil]
    exact h
  | began hp =>
    rw [hp] at h
    cases h
    exact .command (by simp) _
  | returned hp =>
    rw [hp] at h
    cases h with
    | command hu => exact .ended hu _
  | used hp =>
    rw [hp] at h
    cases h with
    | command hu =>
      exact .command (List.forall_mem_append.mpr ⟨hu, by simp [Entry.IsUsed]⟩) _
  | invoked hp =>
    rw [hp] at h
    rw [List.append_nil]
    cases h with
    | command hu => exact .command hu _
  | nested hp =>
    rw [hp] at h
    rw [List.append_nil]
    cases h with
    | command hu => exact .nested hu _

theorem role_of_does (h : l.role = .once b) (hd : Does console w l entries l') :
    l'.role = .once b := by
  cases hd with
  | used => exact (congrArg (Entry.onRole · _) h).trans (onRole_once b _)
  | _ => exact h

theorem isOneShot_of_does (h : IsOneShot b out log l) (hd : Does console w l entries l') :
    IsOneShot b out (log ++ entries) l' :=
  ⟨oneShot_of_does h.stands hd, (outlets_of_does hd).1.trans h.out, role_of_does h.role hd,
    sound_of_does h.sound hd⟩

theorem isOneShot_of_undergoes (h : IsOneShot b out log l) (hu : Undergoes console l marks l') :
    IsOneShot b out (log ++ logOf marks) l' := by
  have hstands := h.stands
  cases hu with
  | step hs =>
    rw [logOf_marks]
    exact isOneShot_of_does h (does_of_step hs)
  | nest hs =>
    rw [logOf_marks]
    exact isOneShot_of_does h (does_of_nests hs).2
  | leave result =>
    rw [logOf_nil, List.append_nil]
    refine ⟨phase_leave (fun resume next hstands => ?_) hstands, ?_, (role_leave _ _).trans h.role,
      sound_leave h.sound result⟩
    · cases hstands with
      | nested hu => exact .command hu _
    · refine Eq.trans ?_ h.out
      unfold leave
      split <;> rfl
  | execute hx =>
    have hsound := sound_execute h.sound hx
    obtain ⟨hfresh, rfl⟩ := execute_eq_ok_iff.mp hx
    rw [h.sound.fresh hfresh] at hstands
    rw [logOf_nil, List.append_nil]
    have hopening : l.opening console = .ask (.run b) flushing := by
      rw [opening, h.role]
      exact once_eq b
    cases hstands
    refine ⟨?_, h.out, h.role, hsound⟩
    rw [hopening]
    exact .opened
  | call behind =>
    rw [logOf_called, logOf_nil, List.append_nil]
    have hsound := sound_called h.sound behind
    rcases called_snd l behind with he | ⟨-, he⟩
    · rwa [he]
    · rw [he] at hsound ⊢
      exact ⟨hstands, h.out, h.role, hsound⟩
  | prompted hp | heard hp =>
    rw [hp] at hstands
    cases hstands

theorem isOneShot_of_past {err : Outlet} {env : Environment}
    (h : Past console (once b out err env) past l) : IsOneShot b out (logOf past) l := by
  induction h with
  | refl => exact ⟨.idle, rfl, rfl, sound_of_new (New.once b out err env : New console _)⟩
  | tail _ hu ih =>
    rw [logOf_append]
    exact isOneShot_of_undergoes ih hu

theorem comes_of_completed {during back : List Entry} {r : Except Failure ExitCode}
    (h : Completed console l₀ (.began b :: (during ++ .ended r :: back)))
    (hu : ∀ x ∈ during, x.IsUsed) : Comes (l₀.scriptOf console b) during r := by
  obtain ⟨before, b', during', hfront, hcomes⟩ := h (.began b :: during) r back rfl
  rcases before with _ | ⟨y, before⟩
  · cases hfront
    exact hcomes
  · -- A command that began later would stand among what the first one did.
    have hbegan : Entry.began b' ∈ during := by
      rw [(List.cons.inj hfront).2]
      exact List.mem_append_right before List.mem_cons_self
    obtain ⟨q, a, he⟩ := hu _ hbegan
    cases he

/-! ## The end of a one-shot session -/

variable {during : List Entry} {r : Except Failure ExitCode}

/-- After its command a session flushes its output, in any world. -/
theorem step_of_ended (h : IsOneShot b out (.began b :: (during ++ [.ended r])) l) (w : World) :
    l.step console w = .moved (l.goto (.own (.done (.ended (flushed r (w.flush out).1)))))
      (w.flush out).2 false := by
  rw [step, h.stands.of_ended, ← h.out]
  rfl

/-- After that it ends. -/
theorem step_of_flushed {a : Answer .flush}
    (h : IsOneShot b out (.began b :: (during ++ [.ended r, .asked .flush a])) l) :
    l.phase = .over (flushed r a) ∨
      ∀ w, l.step console w = .moved (l.finish (flushed r a)) w false := by
  rcases h.stands.of_flushed with hp | hp
  · refine .inr fun w => ?_
    rw [step, hp]
    rfl
  · exact .inl hp

end Level

/-! ## The first session of a run -/

namespace Run

variable {console : Console} {w w' : World} {l l' l₀ : Level} {rest levels : List Level}
  {interrupts : Bool} {r r' : Run}

/-- The first session of a run has a past. -/
structure Headed (console : Console) (l₀ : Level) (r : Run) : Prop where
  console_eq : r.console = console
  past : ∃ l past, r.levels.head? = some l ∧ Level.Past console l₀ past l

theorem head_of_stepped (h : Stepped console w (l :: rest) levels w' interrupts) :
    ∃ l', levels.head? = some l' ∧ (l' = l ∨ ∃ marks, Level.Undergoes console l marks l') := by
  cases h with
  | last hs => exact ⟨_, rfl, .inr ⟨_, .step hs⟩⟩
  | nest hs => exact ⟨_, rfl, .inr ⟨_, .nest hs⟩⟩
  | leave | refuse => exact ⟨_, rfl, .inr ⟨_, .leave l _⟩⟩
  | execute | inner => exact ⟨_, rfl, .inl rfl⟩

theorem headed_interrupt (h : Headed console l₀ r) : Headed console l₀ r.interrupt.2 := by
  obtain ⟨hconsole, l, past, hhead, hpast⟩ := h
  obtain ⟨rest, hlevels⟩ := List.head?_eq_some_iff.mp hhead
  refine ⟨hconsole, _, _, ?_, hpast.tail (.call l (rest.map (·.state)))⟩
  rw [interrupt, hlevels, interruptLevels_cons]
  rfl

theorem headed_step (h : Headed console l₀ r) (hs : r.step = .ok r') : Headed console l₀ r' := by
  obtain ⟨rfl, l, past, hhead, hpast⟩ := h
  obtain ⟨levels, w, interrupts, hstepped, rfl⟩ := stepped_of_step hs
  obtain ⟨rest, hlevels⟩ := List.head?_eq_some_iff.mp hhead
  rw [hlevels] at hstepped
  obtain ⟨l', hhead', hl'⟩ := head_of_stepped hstepped
  have hheaded : Headed r.console l₀ { r with levels := levels, world := w } := by
    rcases hl' with rfl | ⟨marks, hu⟩
    · exact ⟨rfl, l', past, hhead', hpast⟩
    · exact ⟨rfl, l', _, hhead', hpast.tail hu⟩
  split
  · exact headed_interrupt hheaded
  · exact hheaded

theorem headed_world (h : Headed console l₀ r) (w : World) :
    Headed console l₀ { r with world := w } :=
  ⟨h.console_eq, h.past⟩

theorem headed_execute (h : Headed console l₀ r) (hx : r.execute = .ok r') :
    Headed console l₀ r' := by
  obtain ⟨rfl, l, past, hhead, hpast⟩ := h
  obtain ⟨l₁, l', rest, hlevels, hx', rfl⟩ := execute_eq_ok hx
  rw [hlevels] at hhead
  cases hhead
  exact ⟨rfl, l', _, rfl, hpast.tail (.execute hx')⟩

end Run

namespace HostedSession

open Activity

/-! ## A one-shot session as an activity -/

/-- What may happen to a hosted session that nobody executes but its activity. -/
inductive Entrusted : HostedSession → HostedSession → Prop
  | start {h h' : HostedSession} (hs : h.start = .ok h') : Entrusted h h'
  | interrupt (h : HostedSession) : Entrusted h h.interrupt.2
  | cancel (h : HostedSession) : Entrusted h h.cancel.2
  | close (h : HostedSession) : Entrusted h h.close
  | onWorld (h : HostedSession) (f : World → World) : Entrusted h (h.onWorld f)
  | step (h : HostedSession) : Entrusted h h.step.2

/-- What holds of such a session. -/
structure Tended (console : Console) (l₀ : Level) (h : HostedSession) : Prop where
  headed : Run.Headed console l₀ h.run
  /-- Before its activity executes it, nobody has. -/
  fresh : h.task = .absent ∨ h.task = .scheduled →
    ∀ l, h.run.levels.head? = some l → l.state.executed = false
  value : ∀ v, h.exitValue = some v → h.task = .over ∧
    ∃ result, h.run.result? = some result ∧ v = valueOf result
  initial : h.activity.stage = .initial → h.task = .absent

variable {console : Console} {l₀ : Level} {h h' h₁ h₂ : HostedSession}

theorem stage_close (a : Activity) : a.close.2.stage = .closed := by
  rcases close_eq a with ⟨hs, he⟩ | ⟨-, he⟩
  · rw [he]
    exact hs
  · rw [he]

theorem result?_interrupt {r : Run} {result : Except Failure ExitCode}
    (h : r.result? = some result) : r.interrupt.2.result? = some result := by
  rw [Run.result?_eq_some_iff] at h ⊢
  rwa [Run.interrupt, Run.phases_interruptLevels]

theorem fresh_interrupt {r : Run} (h : ∀ l, r.levels.head? = some l → l.state.executed = false) :
    ∀ l, r.interrupt.2.levels.head? = some l → l.state.executed = false := by
  rcases hlevels : r.levels with _ | ⟨l, rest⟩
  · simp [Run.interrupt, hlevels, Run.interruptLevels]
  · rw [Run.interrupt, hlevels, Run.interruptLevels_cons]
    rintro _ ⟨⟩
    have hl : l.state.executed = false := h l (by rw [hlevels]; rfl)
    rcases Level.called_snd l (rest.map (·.state)) with he | ⟨-, he⟩ <;> rw [he] <;> exact hl

theorem Tended.exitValue_eq_none (ht : Tended console l₀ h) (hover : h.task ≠ .over) :
    h.exitValue = none := by
  cases hv : h.exitValue with
  | none => rfl
  | some v => exact absurd (ht.value v hv).1 hover

/-- The task comes to another place, and there is no value yet. -/
theorem Tended.goOn (hrun : Run.Headed console l₀ h.run) (hvalue : h.exitValue = none)
    (htask : h.task ≠ .absent ∧ h.task ≠ .scheduled) (hstage : h.activity.stage ≠ .initial) :
    Tended console l₀ h where
  headed := hrun
  fresh hf := absurd hf (by simp [htask])
  value v hv := by
    rw [hvalue] at hv
    cases hv
  initial hi := absurd hi hstage

/-- The session has ended. -/
theorem Tended.finish (ht : Tended console l₀ h) {result : Except Failure ExitCode}
    (hr : h.run.result? = some result) : Tended console l₀ (h.finish result) where
  headed := ht.headed
  fresh hf := by rcases hf with hf | hf <;> cases hf
  value v hv := ⟨rfl, result, hr, (Option.some.inj hv).symm⟩
  initial hi := by
    rw [HostedSession.finish, stage_close] at hi
    cases hi

/-- The activity executes the session, which cannot refuse. -/
theorem exists_execute (ht : Tended console l₀ h) (htask : h.task = .scheduled) :
    ∃ run, h.run.execute = .ok run := by
  obtain ⟨l, past, hhead, -⟩ := ht.headed.past
  obtain ⟨rest, hlevels⟩ := List.head?_eq_some_iff.mp hhead
  have hfresh := ht.fresh (.inr htask) l hhead
  simp only [Run.execute, hlevels, Level.execute, ExecutionState.begin, hfresh]
  exact ⟨_, rfl⟩

theorem stage_of_enter {entry : Activity.Entry} {a b : Activity} (he : a.enter = (entry, b))
    (hs : a.stage ≠ .initial) : b.stage ≠ .initial := by
  rcases enter_eq a with ⟨-, ha⟩ | ⟨-, -, ha⟩ | ⟨-, -, ha⟩ <;> cases he.symm.trans ha
  · exact hs
  · nofun
  · exact hs

/-- **A step of the task.** -/
theorem Tended.step (ht : Tended console l₀ h) : Tended console l₀ h.step.2 := by
  unfold HostedSession.step
  match htask : h.task with
  | .absent | .over => exact ht
  | .scheduled =>
    have hstage : h.activity.stage ≠ .initial := by
      intro hi
      cases htask.symm.trans (ht.initial hi)
    have hvalue := ht.exitValue_eq_none (by rw [htask]; nofun)
    rcases he : h.activity.enter with ⟨entry, a⟩
    have ha := stage_of_enter he hstage
    cases entry with
    | skip => exact .goOn ht.headed hvalue ⟨nofun, nofun⟩ ha
    | perform =>
      obtain ⟨run, hx⟩ := exists_execute ht htask
      simp only [hx]
      exact .goOn (Run.headed_execute ht.headed hx) hvalue ⟨nofun, nofun⟩ ha
  | .executing forwarded =>
    have hstage : h.activity.stage ≠ .initial := by
      intro hi
      cases htask.symm.trans (ht.initial hi)
    have hvalue := ht.exitValue_eq_none (by rw [htask]; nofun)
    cases hr : h.run.result? with
    | some result => exact ht.finish hr
    | none =>
      simp only
      cases hs : h.run.step with
      | ok run => exact .goOn (Run.headed_step ht.headed hs) hvalue ⟨by simp, by simp⟩ hstage
      | error deadline =>
        simp only
        split
        · exact .goOn (Run.headed_interrupt ht.headed) hvalue ⟨nofun, nofun⟩ hstage
        · exact ht

theorem tended_of_entrusted (ht : Tended console l₀ h) (he : Entrusted h h') :
    Tended console l₀ h' := by
  cases he with
  | start hs =>
    unfold start at hs
    cases ha : h.activity.start with
    | error e =>
      rw [ha] at hs
      cases hs
    | ok a =>
      rw [ha] at hs
      cases hs
      obtain ⟨hinitial, -, rfl⟩ := start_eq_ok_iff.mp ha
      have habsent := ht.initial hinitial
      have hvalue := ht.exitValue_eq_none (by rw [habsent]; nofun)
      refine ⟨ht.headed, fun _ => ht.fresh (.inl habsent), fun v hv => ?_, nofun⟩
      cases hvalue.symm.trans hv
  | interrupt =>
    refine ⟨Run.headed_interrupt ht.headed, fun hf => fresh_interrupt (ht.fresh hf), ?_, ht.initial⟩
    intro v hv
    obtain ⟨hover, result, hr, hvalue⟩ := ht.value v hv
    exact ⟨hover, result, result?_interrupt hr, hvalue⟩
  | cancel =>
    refine ⟨ht.headed, ht.fresh, ht.value, fun hi => ht.initial ?_⟩
    exact (Stay.spares_interrupt h.activity).initial hi
  | close =>
    refine ⟨ht.headed, ht.fresh, ht.value, fun hi => ht.initial ?_⟩
    exact (Stay.spares_close h.activity).initial hi
  | onWorld f => exact ⟨Run.headed_world ht.headed _, ht.fresh, ht.value, ht.initial⟩
  | step => exact ht.step

/-- **What is recorded** is the value of the result that the session ended with. -/
theorem tended_of_reachable {worker : Worker} {shutdownWait : Nat} {w : World}
    (hidle : l₀.state.executed = false)
    (h : Relation.ReflTransGen Entrusted (new worker shutdownWait (.ofLevel console w l₀)) h') :
    Tended console l₀ h' := by
  induction h with
  | refl =>
    refine ⟨⟨rfl, l₀, [], rfl, .refl⟩, fun _ l hl => ?_, nofun, fun _ => rfl⟩
    cases hl
    exact hidle
  | tail _ he ih => exact tended_of_entrusted ih he

theorem proceeds_of_entrusted (h : Entrusted h₁ h₂) : Proceeds h₁ h₂ := by
  cases h with
  | start hs => exact .start hs
  | interrupt => exact .interrupt _
  | cancel => exact .cancel _
  | close => exact .close _
  | onWorld f => exact .onWorld _ f
  | step => exact .step _

end HostedSession

/-! ## Main statement -/

/-- A one-shot session has ended with a result: its command came to something, the output was
flushed, and that was taken or not. -/
def Level.EndedOnce (console : Console) (b : Binding) (l₀ : Level) (log : List Entry)
    (result : Except Failure ExitCode) : Prop :=
  ∃ during r a, log = .began b :: (during ++ [.ended r, .asked .flush a]) ∧
    Comes (l₀.scriptOf console b) during r ∧ result = flushed r a

theorem Level.endedOnce_of_past {console : Console} {b : Binding} {out err : Outlet}
    {env : Environment} {past : List Mark} {l : Level} {result : Except Failure ExitCode}
    (h : Past console (once b out err env) past l) (hp : l.phase = .over result) :
    EndedOnce console b (once b out err env) (logOf past) result := by
  have hstands := (isOneShot_of_past h).stands
  have hcompleted := (ran_of_past (.once b out err env) h).completed
  rw [hp] at hstands
  obtain ⟨during, r, a, hlog, hused, hresult⟩ := hstands.of_over
  rw [hlog] at hcompleted
  exact ⟨during, r, a, hlog, comes_of_completed hcompleted hused, hresult⟩

open Level HostedSession in
/-- **How a one-shot session ends**, whatever happens to it: with what its command came to, unless
the flush after the command fails. Nothing holds it up between its command's end and its own. So an
interrupted command makes an interrupted session if the flush is taken, and else a failed one.

As an activity it records the value of that result as soon as there is one, which is 130 in the
first case and 1 in the second. Who waits learns it, and a wait always ends once the activity has an
outcome. -/
theorem flushed_of_once (console : Console) (b : Binding) (out err : Outlet) (env : Environment) :
    (∀ past l, Past console (once b out err env) past l →
      (∀ result, l.phase = .over result →
        EndedOnce console b (once b out err env) (logOf past) result) ∧
      (∀ during r, logOf past = .began b :: (during ++ [.ended r]) → ∀ w,
        l.step console w = .moved (l.goto (.own (.done (.ended (flushed r (w.flush out).1)))))
          (w.flush out).2 false) ∧
      ∀ during r a, logOf past = .began b :: (during ++ [.ended r, .asked .flush a]) →
        l.phase = .over (flushed r a) ∨
          ∀ w, l.step console w = .moved (l.finish (flushed r a)) w false) ∧
    (∀ worker shutdownWait w h, Relation.ReflTransGen Entrusted
        (new worker shutdownWait (.ofLevel console w (once b out err env))) h →
      (∀ v, h.exitValue = some v → ∃ past l result, h.run.levels.head? = some l ∧
        Past console (once b out err env) past l ∧
        EndedOnce console b (once b out err env) (logOf past) result ∧
        h.run.result? = some result ∧ v = valueOf result) ∧
      (∀ forwarded result, h.task = .executing forwarded → h.run.result? = some result →
        h.step.2.exitValue = some (valueOf result)) ∧
      (∀ outcome, h.activity.outcome? = some outcome →
        h.wait = (some (h.report outcome), h)) ∧
      (∀ v, h.exitValue = some v → h.wait = (some v, h)) ∧
      ∀ code h', h.wait = (some code, h') → Relation.ReflTransGen Entrusted h h' ∧
        (h'.exitValue = some code ∨ h'.exitValue = none ∧ code = 130)) ∧
    valueOf (flushed (.error .interrupted) (.ok ())) = 130 ∧
    ∀ fault, valueOf (flushed (.error .interrupted) (.error fault)) = 1 := by
  refine ⟨fun past l h => ⟨fun result => endedOnce_of_past h, ?_, ?_⟩,
    fun worker shutdownWait w h hentrusted => ?_, rfl, fun fault => rfl⟩
  · intro during r hlog
    have honce := isOneShot_of_past h
    rw [hlog] at honce
    exact step_of_ended honce
  · intro during r a hlog
    have honce := isOneShot_of_past h
    rw [hlog] at honce
    exact step_of_flushed honce
  · have hproceeds := Relation.ReflTransGen.mono (fun _ _ => proceeds_of_entrusted) _ _ hentrusted
    refine ⟨fun v hv => ?_, fun forwarded result htask hr => ?_, fun outcome => wait_of_outcome,
      fun v => wait_of_exitValue hproceeds, fun code h' hwait => ?_⟩
    · have htended := tended_of_reachable rfl hentrusted
      obtain ⟨-, result, hr, hvalue⟩ := htended.value v hv
      obtain ⟨l, past, hhead, hpast⟩ := htended.headed.past
      have hp : l.phase = .over result := by
        rw [Run.result?_eq_some_iff, List.head?_map, hhead] at hr
        exact Option.some.inj hr
      exact ⟨past, l, result, hhead, hpast, endedOnce_of_past hpast hp, hr, hvalue⟩
    · simp only [HostedSession.step, htask, hr]
      rfl
    · have hreach := reflTransGen_wait Entrusted.step Entrusted.onWorld h
      rw [hwait] at hreach
      exact ⟨hreach, code_of_wait hproceeds hwait⟩

/-! ### A flush that fails -/

namespace HostedSession

open Activity

theorem entrusted_awakened :
    Relation.ReflTransGen Entrusted (new .shared 1000 sleepingRun) awakened := by
  have hstart : Relation.ReflTransGen Entrusted (new .shared 1000 sleepingRun) asleep :=
    .single (.start rfl)
  have hcancelled := (hstart.trans (reflTransGen_runSteps .step 100 asleep)).tail (.cancel _)
  exact hcancelled.trans (reflTransGen_runSteps .step 100 _)

/-- The sleep was interrupted and its output flushed, and 130 is its value and what those learn who
wait for it. -/
theorem flushed_awakened : awakened.exitValue = some 130 ∧
    awakened.wait = (some 130, awakened) ∧ ∃ past l result,
    awakened.run.levels.head? = some l ∧ Level.EndedOnce sleepingRun.console
      ⟨Builtin.sleep, "sleep", ["30"]⟩ (Level.once ⟨Builtin.sleep, "sleep", ["30"]⟩ ⟨.first, {}⟩
        ⟨.first, {}⟩ {}) (Session.logOf past) result ∧ valueOf result = 130 := by
  have hvalue : awakened.exitValue = some 130 := by decide +kernel
  obtain ⟨-, hhosted, -⟩ := flushed_of_once sleepingRun.console ⟨Builtin.sleep, "sleep", ["30"]⟩
    ⟨.first, {}⟩ ⟨.first, {}⟩ {}
  obtain ⟨hpast, -, -, hwait, -⟩ := hhosted .shared 1000 {} awakened entrusted_awakened
  obtain ⟨past, l, result, hhead, -, hended, -, hresult⟩ := hpast 130 hvalue
  exact ⟨hvalue, hwait 130 hvalue, past, l, result, hhead, hended, hresult.symm⟩

/-- A command that gives up. -/
def giveUp : Binding :=
  ⟨{ body := fun _ => throw .interrupted }, "giveup", []⟩

/-- Its session, on a sink that cannot be flushed. -/
def unflushedRun : Run :=
  .ofLevel {} { first := { faults := .flushes ⟨"flush failed"⟩ } }
    (Level.once giveUp ⟨.first, {}⟩ ⟨.second, {}⟩ {})

/-- It is hosted and started, and goes on to its end. -/
def unflushed : HostedSession :=
  (Host.runSteps step 100 { new .shared 1000 unflushedRun with
    activity := { stage := .started }
    task := .scheduled }).2

/-- **A command that is interrupted where the flush fails** makes a session that failed: it counts
as ended with the value 1, and that is what those learn who wait for it. -/
theorem failed_unflushed :
    Session.Comes ((Level.once giveUp ⟨.first, {}⟩ ⟨.second, {}⟩ {}).scriptOf {} giveUp) []
      (.error .interrupted) ∧
    Relation.ReflTransGen Entrusted (new .shared 1000 unflushedRun) unflushed ∧
    unflushed.run.result? = some (.error (.stream ⟨"flush failed"⟩)) ∧
    unflushed.exitValue = some 1 ∧ unflushed.exitValue ≠ some 130 ∧
    unflushed.wait = (some 1, unflushed) := by
  have hentrusted : Relation.ReflTransGen Entrusted (new .shared 1000 unflushedRun) unflushed :=
    .head (.start rfl) (reflTransGen_runSteps .step 100 _)
  have hvalue : unflushed.exitValue = some 1 := by decide +kernel
  have hproceeds := Relation.ReflTransGen.mono (fun _ _ => proceeds_of_entrusted) _ _ hentrusted
  exact ⟨.done _, hentrusted, rfl, hvalue, by decide +kernel, wait_of_exitValue hproceeds hvalue⟩

end HostedSession

end CommandConsole
