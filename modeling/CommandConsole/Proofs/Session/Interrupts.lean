import CommandConsole.Proofs.Session.Handling

/-!
# What an interrupt of a shell hits

An interrupt may come to a shell at any moment: while it reads a line, between the lines of an
unfinished command, while a command runs, between two commands. It cancels the shell, and stays in
force until the shell renews itself. So what a prompt or a command finds cancelled was interrupted
after all that came before it had been handled (`Fresh`), and each interrupt discards the lines of
at most one unfinished command or is seen by at most one command that runs.

`Watch` counts the commands that were cancelled, each once however often it was seen. The bound is
kept by each change of the shell (`paid_did`, `paid_called`): the shell owes one while it is
cancelled and what it does now was not counted yet.

Results: `interrupted_of_cancelled`, `fresh_of_past`, `paid_of_past`. Main statement:
`interrupts_of_past`.
-/

namespace CommandConsole.Session

/-- An entry of what an interrupt may hit: a prompt, the wait for a line, a command that begins. -/
def Entry.operates : Entry → Bool
  | .asked (.prompt _) _ | .asked (.event _) _ | .began _ => true
  | _ => false

/-- An interrupt that had an effect. A command may interrupt its own session. -/
def Mark.interrupts : Mark → Bool
  | .called had => had
  | .did _ (.used .interrupt had) => had
  | .did .. => false

/-- An interrupt that the terminal reported of itself. -/
def Mark.reports : Mark → Bool
  | .did cancelled (.asked (.event _) (.ok .interrupted)) => !cancelled
  | _ => false

/-- An interrupt at the prompt, which discards the lines of an unfinished command. -/
def Mark.discards : Mark → Bool
  | .did _ (.asked (.event _) (.ok .interrupted)) => true
  | _ => false

/-- The commands that were cancelled while they ran, or when the session looked behind them. -/
structure Watch where
  count : Nat := 0
  /-- Whether the last command is among them. -/
  seen : Bool := false

/-- What a mark adds. -/
def Watch.see (v : Watch) : Mark → Watch
  | .did cancelled (.began _) => ⟨v.count + cancelled.toNat, cancelled⟩
  | .did cancelled (.used ..) | .did cancelled (.ended _) |
    .did cancelled (.asked .isCancelled _) =>
    ⟨v.count + (cancelled && !v.seen).toNat, v.seen || cancelled⟩
  | _ => v

/-- The commands of a past that were cancelled. -/
def watch (past : List Mark) : Watch :=
  past.foldl Watch.see {}

variable {console : Console} {l₀ l l' : Level} {past : List Mark}

/-! ## Why a session is cancelled -/

theorem cancelled_of_onState {c : ExecutionState} {x : Entry}
    (h : (x.onState c).cancelled = true) :
    (Mark.did c.cancelled x).interrupts = true ∨
      c.cancelled = true ∧ ∀ a, x ≠ .asked .renew a := by
  cases x with
  | began | ended => exact .inr ⟨h, nofun⟩
  | used r a =>
    cases r with
    | interrupt =>
      rcases Bool.or_eq_true_iff.mp h with hc | ha
      · exact .inr ⟨hc, nofun⟩
      · exact .inl ha
    | _ => exact .inr ⟨h, nofun⟩
  | asked r a =>
    cases r with
    | renew => cases h
    | _ => exact .inr ⟨h, nofun⟩

/-- **A session is cancelled** because of an interrupt that had an effect, and has handled nothing
since. -/
theorem interrupted_of_cancelled (h : Level.Past console l₀ past l)
    (h₀ : l₀.state.cancelled = false) (hc : l.state.cancelled = true) :
    ∃ earlier m later, past = earlier ++ m :: later ∧ m.interrupts = true ∧
      ∀ y ∈ logOf later, y.handles = false := by
  induction h with
  | refl => exact absurd (h₀.symm.trans hc) nofun
  | @tail past marks l l' _ hu ih =>
    cases Level.noted_of_undergoes hu with
    | silent he =>
      rw [List.append_nil]
      exact ih (he ▸ hc)
    | @did x he hlook =>
      rcases cancelled_of_onState (he ▸ hc) with hm | ⟨hcancelled, hrenew⟩
      · exact ⟨past, _, [], rfl, hm, by simp⟩
      · obtain ⟨earlier, m, later, rfl, hm, hlater⟩ := ih hcancelled
        refine ⟨earlier, m, later ++ [.did l.state.cancelled x], by simp, hm, fun y hy => ?_⟩
        rw [logOf_append, logOf_did, logOf_nil] at hy
        rcases List.mem_append.mp hy with hy | hy
        · exact hlater y hy
        · obtain rfl := List.mem_singleton.mp hy
          unfold Entry.handles
          split
          · exact absurd rfl (hrenew _)
          · exact absurd ((hlook _ rfl).trans hcancelled) nofun
          · rfl
    | @called had he =>
      rcases he with he | ⟨rfl, -⟩
      · obtain ⟨earlier, m, later, rfl, hm, hlater⟩ := ih (he ▸ hc)
        exact ⟨earlier, m, later ++ [.called had], by simp, hm, by simpa using hlater⟩
      · exact ⟨past, _, [], rfl, rfl, by simp⟩

/-- All that came before an interrupt from outside was handled, and nothing since is left. -/
def Fresh (before : List Mark) : Prop :=
  ∃ earlier later, before = earlier ++ .called true :: later ∧ Handled (logOf earlier) ∧
    ∀ y ∈ logOf later, y.pends = false

theorem pends_of_interrupts {c : Bool} {x : Entry} (h : (Mark.did c x).interrupts = true) :
    x.pends = true := by
  cases x with
  | used => rfl
  | began | ended | asked => cases h

/-- Where nothing is left to be handled, a session is cancelled only by a fresh interrupt. -/
theorem fresh_of_cancelled (h : Level.Past console l₀ past l) (h₀ : l₀.state.cancelled = false)
    (hc : l.state.cancelled = true) (hlog : Handled (logOf past)) : Fresh past := by
  obtain ⟨earlier, m, later, rfl, hm, hlater⟩ := interrupted_of_cancelled h h₀ hc
  rw [List.append_cons, logOf_append, logOf_append] at hlog
  obtain ⟨hbefore, hpends⟩ := hlog.of_append hlater
  cases m with
  | called had =>
    cases hm
    rw [logOf_called, logOf_nil, List.append_nil] at hbefore
    exact ⟨earlier, later, rfl, hbefore, hpends⟩
  | did c x =>
    -- A command that interrupts its own session is left to be handled.
    obtain ⟨y, hy, -⟩ := hbefore (logOf earlier) x [] rfl (pends_of_interrupts hm)
    cases hy

/-- Every session of a shell keeps the law. -/
theorem kept_handling {args : List String} {env : Environment}
    (h : Level.Past console (Level.shell console.settings args env) past l) :
    handling.Kept (Level.shell console.settings args env) (logOf past) l :=
  have hopen : handling.Keeps handling.start
      ((Level.shell console.settings args env).opening console) := handling_greet _
  Law.kept_of_past (upheld_handling console) hopen rfl h

theorem eq_nothing_of_operates {s : Concern} {x : Entry} (h : handling.Permits s x)
    (hx : x.operates = true) : s = .nothing := by
  cases x with
  | began => exact h
  | used | ended => cases hx
  | asked r a =>
    cases r with
    | prompt | event => exact h
    | _ => cases hx

/-- **What a shell begins while cancelled** was interrupted after all before it was handled. -/
theorem fresh_of_past {args : List String} {env : Environment}
    (h : Level.Past console (Level.shell console.settings args env) past l)
    {before after : List Mark} {x : Entry} (he : past = before ++ .did true x :: after)
    (hx : x.operates = true) : Fresh before := by
  have hpermits := (kept_handling h).permitted (logOf before) x (logOf after) (by simp [he])
  obtain ⟨l₁, l₂, hbefore, hu⟩ := h.cut he
  exact fresh_of_cancelled hbefore rfl (Level.noted_of_undergoes hu).cancelled_eq
    (handled_of_view (eq_nothing_of_operates hpermits hx))

/-! ## How many there are -/

/-- Whether what the shell does now was counted already. -/
def booked : Concern → Watch → Bool
  | .nothing, _ => false
  | .prompt, _ => true
  | .command, v => v.seen

/-- What was discarded or seen cancelled, and what may still be, is paid for by interrupts. -/
def Paid (past : List Mark) (l : Level) : Prop :=
  past.countP Mark.discards + (watch past).count +
      (l.state.cancelled && !booked (handling.view (logOf past)) (watch past)).toNat ≤
    past.countP Mark.interrupts + past.countP Mark.reports

theorem watch_snoc (past : List Mark) (m : Mark) : watch (past ++ [m]) = (watch past).see m := by
  rw [watch, List.foldl_append]
  rfl

/-- One mark more. -/
theorem paid_snoc {m : Mark} (h : Paid past l)
    (hm : (m.discards).toNat + ((watch past).see m).count +
        (l'.state.cancelled &&
          !booked (handling.view (logOf (past ++ [m]))) ((watch past).see m)).toNat ≤
      (watch past).count +
        (l.state.cancelled && !booked (handling.view (logOf past)) (watch past)).toNat +
        m.interrupts.toNat + m.reports.toNat) : Paid (past ++ [m]) l' := by
  unfold Paid at h ⊢
  rw [watch_snoc, countP_snoc, countP_snoc, countP_snoc]
  omega

/-- What a command does while it is cancelled is counted at once, and once only. -/
theorem seen_le (cancelled had : Bool) (v : Watch) :
    0 + (v.count + (cancelled && !v.seen).toNat) +
        ((cancelled || had) && !(v.seen || cancelled)).toNat ≤
      v.count + (cancelled && !v.seen).toNat + had.toNat + 0 := by
  cases cancelled <;> cases had <;> cases v.seen <;> simp

/-- What leaves the shell as it is leaves it owing what it owed. -/
theorem owing_le (n due : Nat) : 0 + n + due ≤ n + due + 0 + 0 := by
  omega

/-- **Each entry is paid for.** -/
theorem paid_did {x : Entry} (h : Paid past l)
    (hl : l'.state.cancelled = (x.onState l.state).cancelled)
    (hlook : ∀ a, x = .asked .isCancelled a → a = l.state.cancelled)
    (hpermits : handling.Permits (handling.view (logOf past)) x) :
    Paid (past ++ [.did l.state.cancelled x]) l' := by
  refine paid_snoc h ?_
  rw [logOf_append, logOf_did, logOf_nil, Law.view_append, hl]
  generalize handling.view (logOf past) = s at hpermits
  generalize watch past = v
  generalize l.state = c at hlook
  obtain ⟨executed, running, cancelled, linked⟩ := c
  have hseen := seen_le cancelled false v
  rw [Bool.or_false] at hseen
  cases x with
  | began b =>
    obtain rfl : s = .nothing := hpermits
    change 0 + (v.count + cancelled.toNat) + (cancelled && !cancelled).toNat ≤
      v.count + (cancelled && true).toNat + 0 + 0
    rw [Bool.and_not_self, Bool.and_true, Bool.toNat_false]
    omega
  | ended result =>
    obtain rfl : s = .command := hpermits
    exact hseen
  | used r a =>
    obtain rfl : s = .command := hpermits
    cases r with
    | interrupt => exact seen_le cancelled a v
    | _ => exact hseen
  | asked r a =>
    cases r with
    | renew =>
      change 0 + v.count + 0 ≤ _
      omega
    | isCancelled =>
      obtain rfl : s = .command := hpermits
      obtain rfl := hlook a rfl
      cases a with
      | true => exact hseen
      | false => exact owing_le v.count 0
    | event prompt =>
      obtain rfl : s = .nothing := hpermits
      match a with
      | .ok .interrupted =>
        -- Either it is owed for, or the terminal pays.
        change 1 + v.count + (cancelled && false).toNat ≤
          v.count + (cancelled && true).toNat + 0 + (!cancelled).toNat
        cases cancelled <;> simp [Nat.add_comm]
      | .error fault => exact owing_le _ _
      | .ok (.line text) => exact owing_le _ _
      | .ok .endOfInput => exact owing_le _ _
    | write | flush | exitValue | prompt | resolve | run => exact owing_le _ _

theorem paid_called {had : Bool} (h : Paid past l)
    (hl : l'.state.cancelled = l.state.cancelled ∨ had = true ∧ l'.state.cancelled = true) :
    Paid (past ++ [.called had]) l' := by
  refine paid_snoc h ?_
  rw [logOf_append, logOf_called, logOf_nil, List.append_nil]
  change 0 + (watch past).count +
    (_ && !booked (handling.view (logOf past)) (watch past)).toNat ≤ _ + had.toNat + 0
  rcases hl with hl | ⟨rfl, -⟩
  · rw [hl]
    omega
  · have hone := Bool.toNat_le
      (l'.state.cancelled && !booked (handling.view (logOf past)) (watch past))
    rw [Bool.toNat_true]
    omega

/-- **What was discarded or seen cancelled** is paid for. -/
theorem paid_of_past {args : List String} {env : Environment}
    (h : Level.Past console (Level.shell console.settings args env) past l) : Paid past l := by
  induction h with
  | refl => exact Nat.le_refl 0
  | @tail past marks l l' hpast hu ih =>
    have hk := kept_handling (hpast.tail hu)
    cases Level.noted_of_undergoes hu with
    | silent he =>
      rw [List.append_nil]
      unfold Paid at ih ⊢
      rwa [he]
    | called he => exact paid_called ih he
    | @did x he hlook =>
      exact paid_did ih he hlook (hk.permitted _ x [] (by simp))

/-! ## Main statement -/

/-- **No interrupt of a shell is stale, and none counts twice**, wherever it comes.

What the shell begins while it is cancelled, a prompt or a command, was interrupted from outside
after all that came before it had been handled. So a command that ended, however it did, and an
interrupt at the prompt never interrupt what comes next: between the two the shell has handled it
and was interrupted anew. And there are at most as many discarded buffers and commands seen
cancelled as there were interrupts with an effect, those of the terminal itself included. -/
theorem interrupts_of_past {args : List String} {env : Environment}
    (h : Level.Past console (Level.shell console.settings args env) past l) :
    (∀ before x after, past = before ++ .did true x :: after → x.operates = true →
      Fresh before) ∧
    (∀ before c x between y after,
      past = before ++ .did c x :: between ++ .did true y :: after →
      x.pends = true → y.operates = true →
      ∃ handled later, between = handled ++ .called true :: later ∧
        ∃ z ∈ logOf handled, z.handles = true) ∧
    past.countP Mark.discards + (watch past).count ≤
      past.countP Mark.interrupts + past.countP Mark.reports := by
  refine ⟨fun before x after he hx => fresh_of_past h he hx, ?_, ?_⟩
  · intro before c x between y after he hx hy
    obtain ⟨earlier, later, hcut, hhandled, hlater⟩ := fresh_of_past h he hy
    rcases List.append_eq_append_iff.mp hcut with ⟨front, hearlier, hbetween⟩ | ⟨back, hbefore, hlate⟩
    · cases front with
      | nil => cases hbetween
      | cons m handled =>
        obtain ⟨rfl, rfl⟩ := List.cons_eq_cons.mp hbetween
        refine ⟨handled, later, rfl, ?_⟩
        exact hhandled (logOf before) x (logOf handled) (by rw [hearlier]; simp) hx
    · cases back with
      | nil => cases hlate
      | cons m back =>
        obtain ⟨-, rfl⟩ := List.cons_eq_cons.mp hlate
        rw [hlater x (by simp)] at hx
        cases hx
  · have hpaid := paid_of_past h
    unfold Paid at hpaid
    omega

/-! ### A shell whose command waits for its interrupt -/

/-- A console in which each line is a word, and `wait` waits until it is cancelled. -/
def waitingConsole : Console where
  reader text := .ok (.complete [text])
  registry := ⟨[Bundle.ofList "" [("wait", ⟨{}, fun _ => do
    let _ ← Command.Action.waitFor none
    return 0⟩)]]⟩
  settings := { greeting := "" }

/-- Its shell as it begins. -/
def waitingShell : Level :=
  { Level.shell waitingConsole.settings [] {} with
    state := { executed := true, running := true }
    phase := .own (orClose (greet waitingConsole.settings)) }

/-- A world whose terminal has some lines to report. -/
def tellingWorld (lines : List String) : World where
  terminal := .scripted { cues := lines.map fun line => .report (.ok (.line line)), ended := false }

/-- The shell is interrupted at its prompt, while it waits for its command, between a line and the
command that the line names, and at its prompt again. -/
def waitingTurns : List (World × Nat) :=
  [(tellingWorld [], 40), (tellingWorld ["wait"], 40), (tellingWorld ["wait"], 9),
    (tellingWorld [], 40)]

/-- What becomes of it. -/
def waitingPast : List Mark × Level :=
  Level.recordCalls waitingConsole waitingTurns waitingShell

theorem past_waitingPast : Level.Past waitingConsole
    (Level.shell waitingConsole.settings [] {}) waitingPast.1 waitingPast.2 :=
  Level.Past.recordCalls (l := waitingShell) (.tail .refl (.execute rfl)) waitingTurns

/-- A command that begins while its session is cancelled. -/
def Mark.enters : Mark → Bool
  | .did true (.began _) => true
  | _ => false

theorem eq_of_enters {m : Mark} (h : m.enters = true) : ∃ b, m = .did true (.began b) := by
  unfold Mark.enters at h
  split at h
  next b => exact ⟨b, rfl⟩
  · cases h

/-- One prompt and two commands are interrupted, the second command before it begins; the fourth
interrupt is still in force. -/
theorem interrupts_waiting :
    (∃ before b after, waitingPast.1 = before ++ .did true (.began b) :: after ∧ Fresh before) ∧
    waitingPast.1.countP Mark.discards = 1 ∧ (watch waitingPast.1).count = 2 ∧
    1 + 2 ≤ waitingPast.1.countP Mark.interrupts + waitingPast.1.countP Mark.reports := by
  obtain ⟨hfresh, -, hcount⟩ := interrupts_of_past past_waitingPast
  have hdiscards : waitingPast.1.countP Mark.discards = 1 := by decide +kernel
  have hseen : (watch waitingPast.1).count = 2 := by decide +kernel
  have henters : waitingPast.1.any Mark.enters = true := by decide +kernel
  rw [hdiscards, hseen] at hcount
  refine ⟨?_, hdiscards, hseen, hcount⟩
  obtain ⟨m, hm, hentered⟩ := List.any_eq_true.mp henters
  obtain ⟨before, after, he⟩ := List.append_of_mem hm
  obtain ⟨b, rfl⟩ := eq_of_enters hentered
  exact ⟨before, b, after, he, hfresh before (.began b) after he rfl⟩

end CommandConsole.Session
