import CommandConsole.Proofs.Session.History

/-!
# Calls of a session

Every session of a run has a history of its own, from when it was made. By its history it is
executed at most once: a call that comes later is refused and an interrupt that comes too early or
too late is not heard, and neither does anything. So both can be left out of the history.

Results: `history_erase` (calls in vain can be left out), `behind_of_befalls` (what happens to a run
happens to the sessions nested in it), `history_behind` (the history of each session). Main
statement: `once_of_history`.
-/

namespace CommandConsole.Run

open Session

variable {console : Console} {w w' : World} {l l₀ : Level} {levels levels' rest : List Level}
  {interrupts : Bool} {r r' r₀ : Run} {ms : List Moment}

/-! ## Calls in vain can be left out -/

/-- Whatever leaves a call in vain changes nothing. -/
theorem eq_or_of_befalls (hsound : ∀ l ∈ r.levels, l.Sound) (hb : Befalls r ms r') :
    (∀ m ∈ ms, m.vain = false) ∨ (r' = r ∧ ∀ m ∈ ms, m.vain = true) := by
  have hendings : ∀ r', ∀ m ∈ r.endings r', m.vain = false := by
    intro r' m hm
    unfold endings at hm
    split at hm
    · rw [List.mem_singleton.mp hm, Moment.vain]
    · cases hm
  cases hb with
  | step hs =>
    refine .inl (List.forall_mem_append.mpr ⟨fun m hm => ?_, hendings _⟩)
    rw [eq_of_mem_ownCalls hsound hm]
    rfl
  | execute =>
    cases hx : r.execute with
    | error e =>
      rw [callExecute_of_error hx]
      exact .inr ⟨rfl, List.forall_mem_singleton.mpr rfl⟩
    | ok r' =>
      rw [callExecute_of_ok hx]
      exact .inl (List.forall_mem_singleton.mpr rfl)
  | interrupt =>
    cases hhad : r.interrupt.1 with
    | true => exact .inl (List.forall_mem_singleton.mpr rfl)
    | false => exact .inr ⟨interrupt_of_false hhad, List.forall_mem_singleton.mpr rfl⟩
  | abandon => exact .inl (hendings _)
  | answered | interruptInner | world => exact .inl (List.forall_mem_nil _)

/-- **Calls in vain can be left out** of a history, and the run has come to the same. -/
theorem history_erase (hnew : Level.New console l₀) (h : History (ofLevel console w l₀) ms r) :
    History (ofLevel console w l₀) (ms.filter fun m => !m.vain) r := by
  induction h with
  | refl => exact .refl
  | @tail ms ms' r r' h hb ih =>
    rw [List.filter_append]
    rcases eq_or_of_befalls (sound_of_history hnew h).2 hb with hkept | ⟨rfl, hvain⟩
    · have hall : ms'.filter (fun m => !m.vain) = ms' :=
        List.filter_eq_self.mpr fun m hm => by rw [hkept m hm]; rfl
      rw [hall]
      exact ih.tail hb
    · have hnone : ms'.filter (fun m => !m.vain) = [] :=
        List.filter_eq_nil_iff.mpr fun m hm => by rw [hvain m hm]; exact Bool.noConfusion
      rw [hnone, List.append_nil]
      exact ih

/-! ## Nested sessions -/

/-- The run of a session of the chain and of those nested in it. -/
def behind (r : Run) (i : Nat) : Run :=
  { r with levels := r.levels.drop i }

/-- What a step of a chain is to the sessions from some place on: a new session there, or nothing,
or a step of theirs, or the first of them is executed. -/
theorem drop_of_stepped (h : Stepped console w levels levels' w' interrupts) (i : Nat)
    (hi : i < levels'.length) :
    (∃ child, Level.New console child ∧ levels'.drop i = [child]) ∨
    levels'.drop i = levels.drop i ∨
    Stepped console w (levels.drop i) (levels'.drop i) w' interrupts ∨
    ∃ m m' rest, levels.drop i = m :: rest ∧ m.execute console = .ok m' ∧
      levels'.drop i = m' :: rest := by
  induction h generalizing i with
  | last hs =>
    obtain rfl : i = 0 := by simpa using hi
    exact .inr (.inr (.inl (.last hs)))
  | nest hs =>
    cases i with
    | zero => exact .inr (.inr (.inl (.nest hs)))
    | succ i =>
      obtain rfl : i = 0 := Nat.lt_one_iff.mp (Nat.lt_of_succ_lt_succ hi)
      exact .inl ⟨_, (Level.does_of_nests hs).1.new, rfl⟩
  | leave hm =>
    obtain rfl : i = 0 := by simpa using hi
    exact .inr (.inr (.inl (.leave hm)))
  | refuse hm hx =>
    obtain rfl : i = 0 := by simpa using hi
    exact .inr (.inr (.inl (.refuse hm hx)))
  | execute hm hx =>
    match i with
    | 0 => exact .inr (.inr (.inl (.execute hm hx)))
    | 1 => exact .inr (.inr (.inr ⟨_, _, _, rfl, hx, rfl⟩))
    | i + 2 => exact .inr (.inl rfl)
  | inner hm hs ih =>
    cases i with
    | zero => exact .inr (.inr (.inl (.inner hm hs)))
    | succ i => exact ih i (Nat.lt_of_succ_lt_succ hi)

/-- An interrupt comes to the sessions from some place on as an interrupt of theirs, or not at
all. -/
theorem drop_interruptLevels (levels : List Level) (i : Nat) :
    (interruptLevels levels).2.drop i = levels.drop i ∨
      (interruptLevels levels).2.drop i = (interruptLevels (levels.drop i)).2 := by
  induction levels generalizing i with
  | nil => exact .inl (by rw [interruptLevels]; rfl)
  | cons l rest ih =>
    cases i with
    | zero => exact .inr rfl
    | succ i =>
      rw [interruptLevels_cons, List.drop_succ_cons, List.drop_succ_cons]
      split
      · exact ih i
      · exact .inl rfl

theorem behind_interruptAt (r : Run) (i j : Nat) :
    (r.interruptAt j).2.behind i = r.behind i ∨
      ∃ k, (r.interruptAt j).2.behind i = ((r.behind i).interruptAt k).2 := by
  by_cases hj : r.levels.length ≤ j
  · have hnone : (interruptLevels (r.levels.drop j)).1 = false := by
      rw [List.drop_eq_nil_of_le hj]
      rfl
    exact .inl (by rw [interruptAt_of_false hnone])
  have hlength : (r.levels.take j).length = j := List.length_take_of_le (by omega)
  by_cases hij : i ≤ j
  · -- An interrupt behind the place.
    have hdrop : (r.levels.drop i).drop (j - i) = r.levels.drop j := by
      rw [List.drop_drop, Nat.add_sub_cancel' hij]
    refine .inr ⟨j - i, ?_⟩
    simp only [behind, interruptAt]
    rw [List.drop_append_of_le_length (by omega), List.drop_take, hdrop]
  · -- An interrupt that may be passed on to the place.
    have hdrop : (r.levels.drop j).drop (i - j) = r.levels.drop i := by
      rw [List.drop_drop]
      congr 1
      omega
    have hbehind : (r.interruptAt j).2.levels.drop i =
        (interruptLevels (r.levels.drop j)).2.drop (i - j) := by
      simp only [interruptAt]
      rw [List.drop_append, hlength, List.drop_eq_nil_of_le (by omega), List.nil_append]
    rcases drop_interruptLevels (r.levels.drop j) (i - j) with he | he
    · rw [hdrop] at he
      exact .inl (congrArg (fun levels => (⟨r.console, r.world, levels⟩ : Run)) (hbehind.trans he))
    · rw [hdrop] at he
      refine .inr ⟨0, ?_⟩
      rw [interruptAt_zero]
      exact congrArg (fun levels => (⟨r.console, r.world, levels⟩ : Run)) (hbehind.trans he)

theorem befalls_interruptAt (r : Run) (i : Nat) : ∃ ms, Befalls r ms (r.interruptAt i).2 := by
  cases i with
  | zero =>
    rw [interruptAt_zero]
    exact ⟨_, .interrupt r⟩
  | succ i => exact ⟨_, .interruptInner r i⟩

theorem history_behind_interruptAt (r : Run) (i j : Nat) :
    ∃ ms, History (r.behind i) ms ((r.interruptAt j).2.behind i) := by
  rcases behind_interruptAt r i j with he | ⟨k, he⟩
  · rw [he]
    exact ⟨[], .refl⟩
  · obtain ⟨ms, hb⟩ := befalls_interruptAt (r.behind i) k
    rw [he]
    exact ⟨ms, .single hb⟩

theorem length_interruptAt (r : Run) (i : Nat) :
    (r.interruptAt i).2.levels.length = r.levels.length := by
  simp only [interruptAt]
  rw [List.length_append, length_interruptLevels, ← List.length_append, List.take_append_drop]

theorem lt_of_drop_eq_cons {i : Nat} (h : levels.drop i = l :: rest) : i < levels.length := by
  refine Nat.lt_of_not_le fun hle => ?_
  rw [List.drop_eq_nil_of_le hle] at h
  cases h

/-- A step of a run is a history of the sessions from some place on: none of them moves, or theirs
is the step, or it calls the first of them. Or a new session comes to stand there. -/
theorem behind_of_stepped (h : Stepped r.console r.world r.levels levels w interrupts) (i : Nat)
    (hi : i < levels.length) :
    (∃ l, Level.New r.console l ∧
      (⟨r.console, w, levels⟩ : Run).behind i = ofLevel r.console w l) ∨
      i < r.levels.length ∧
        ∃ ms, History (r.behind i) ms ((⟨r.console, w, levels⟩ : Run).behind i) := by
  have hbehind : ∀ {inner : List Level}, levels.drop i = inner →
      (⟨r.console, w, levels⟩ : Run).behind i = ⟨r.console, w, inner⟩ :=
    fun he => congrArg (Run.mk r.console w) he
  rcases drop_of_stepped h i hi with ⟨child, hnew, he⟩ | he | hstep | ⟨m, m', rest, hm, hx, he⟩
  · exact .inl ⟨child, hnew, hbehind he⟩
  · rw [hbehind he]
    have hcons := he.symm.trans (List.drop_eq_getElem_cons hi)
    exact .inr ⟨lt_of_drop_eq_cons hcons, [], .single (.world (r.behind i) w)⟩
  · refine .inr ⟨Nat.lt_of_not_le fun hle => ?_, _, .single (.step (r := r.behind i) hstep)⟩
    rw [List.drop_eq_nil_of_le hle] at hstep
    cases hstep
  · have hexecute : (r.behind i).execute = .ok ⟨r.console, r.world, m' :: rest⟩ := by
      simp only [execute, behind, hm, hx, Except.map]
    have hcall := History.single (befalls_of_execute hexecute)
    rw [hbehind he]
    exact .inr ⟨lt_of_drop_eq_cons hm, _, hcall.tail (.world _ w)⟩

/-- A call of the first session does nothing to those nested in it. -/
theorem history_behind_execute (h : r.execute = .ok r') (i : Nat) :
    ∃ ms, History (r.behind i) ms (r'.behind i) := by
  cases i with
  | zero => exact ⟨_, .single (befalls_of_execute h)⟩
  | succ i =>
    obtain ⟨l, l', rest, hl, -, rfl⟩ := execute_eq_ok h
    simp only [behind, hl]
    exact ⟨[], .refl⟩

theorem length_of_execute (h : r.execute = .ok r') : r'.levels.length = r.levels.length := by
  obtain ⟨l, l', rest, hl, -, rfl⟩ := execute_eq_ok h
  rw [hl]
  rfl

/-- What happens to a run, happens to the sessions from some place on too, or a new session comes
to stand there. -/
theorem behind_of_befalls (hb : Befalls r ms r') (i : Nat) (hi : i < r'.levels.length) :
    (∃ w l, Level.New r.console l ∧ r'.behind i = ofLevel r.console w l) ∨
      i < r.levels.length ∧ ∃ ms', History (r.behind i) ms' (r'.behind i) := by
  cases hb with
  | step hs =>
    rcases behind_of_stepped hs i hi with ⟨l, hnew, he⟩ | hinner
    · exact .inl ⟨_, l, hnew, he⟩
    · exact .inr hinner
  | @answered outer l q next hl hp hq a =>
    have houter : i ≤ outer.length := by
      rw [List.length_append, List.length_singleton] at hi
      omega
    have hbehind : (r.behind i).levels = outer.drop i ++ [l] := by
      rw [behind, hl, List.drop_append_of_le_length houter]
    refine .inr ⟨by rw [hl, List.length_append, List.length_singleton]; omega, [], ?_⟩
    simp only [behind]
    rw [List.drop_append_of_le_length houter]
    exact .single (.answered (r := r.behind i) hbehind hp hq a)
  | execute =>
    cases hx : r.execute with
    | error e =>
      rw [callExecute_of_error hx] at hi ⊢
      exact .inr ⟨hi, [], .refl⟩
    | ok r' =>
      rw [callExecute_of_ok hx] at hi ⊢
      rw [length_of_execute hx] at hi
      exact .inr ⟨hi, history_behind_execute hx i⟩
  | interrupt =>
    rw [← interruptAt_zero] at hi ⊢
    rw [length_interruptAt] at hi
    exact .inr ⟨hi, history_behind_interruptAt r i 0⟩
  | interruptInner j =>
    rw [length_interruptAt] at hi
    exact .inr ⟨hi, history_behind_interruptAt r i (j + 1)⟩
  | abandon hx =>
    cases hl : r.levels with
    | nil =>
      rw [hl] at hx
      cases hx
    | cons l rest =>
      obtain rfl : i = 0 := by
        rw [abandon, hl] at hi
        exact Nat.lt_one_iff.mp hi
      exact .inr ⟨by simp, _, .single (.abandon hx)⟩
  | world w => exact .inr ⟨hi, [], .single (.world (r.behind i) w)⟩

/-- **Every session of a run** has a history of its own, from when it was made. -/
theorem history_behind (hnew : Level.New console l₀) (h : History (ofLevel console w l₀) ms r)
    (i : Nat) (hi : i < r.levels.length) : ∃ w₁ l₁ ms₁, Level.New console l₁ ∧
      History (ofLevel console w₁ l₁) ms₁ (r.behind i) := by
  induction h generalizing i with
  | refl =>
    obtain rfl : i = 0 := Nat.lt_one_iff.mp hi
    exact ⟨w, l₀, [], hnew, .refl⟩
  | tail h hb ih =>
    have hconsole := (sound_of_history hnew h).1
    rcases behind_of_befalls hb i hi with ⟨w₁, l₁, hnew₁, he⟩ | ⟨hi', ms', hinner⟩
    · rw [hconsole] at hnew₁ he
      rw [he]
      exact ⟨w₁, l₁, [], hnew₁, .refl⟩
    · obtain ⟨w₁, l₁, ms₁, hnew₁, houter⟩ := ih i hi'
      exact ⟨w₁, l₁, ms₁ ++ ms', hnew₁, houter.trans hinner⟩

/-! ## Main statement -/

/-- A session that is executed at most once, by its history. -/
structure Once (l₀ : Level) (ms : List Moment) (r : Run) : Prop where
  lifespan : Lifespan l₀ ms r.levels
  /-- The first call executes the session, and it is not cancelled. -/
  begins : .executed none ∉ ms → r.callExecute = (none, { r with levels := [{ l₀ with
    state := { executed := true, running := true }
    phase := .own (l₀.opening r.console) }] })
  /-- Every other call is refused and changes nothing. -/
  refuses : .executed none ∈ ms →
    r.callExecute = (some (.invalidState "already executed"), r) ∧
      r.executeToEnd = (.ended (.error (.invalidState "already executed")), r)
  heard : r.interrupt.1 = true → .executed none ∈ ms ∧ ∀ result, .ended result ∉ ms
  unheard : r.interrupt.1 = false → r.interrupt.2 = r

/-- The moments of a session that executes. -/
theorem mem_of_executing (hl₀ : l₀.executing = false) (h : Lifespan l₀ ms (l :: rest))
    (hl : l.executing = true) : .executed none ∈ ms ∧ ∀ result, .ended result ∉ ms := by
  cases h with
  | waiting =>
    rw [hl₀] at hl
    cases hl
  | executing hb hd _ =>
    refine ⟨by simp, fun result hmem => ?_⟩
    rcases List.mem_append.mp hmem with hmem | hmem
    · cases hb _ hmem
    · rcases List.mem_cons.mp hmem with he | hmem
      · cases he
      · rcases hd _ hmem with he | ⟨had, he⟩ <;> cases he
  | ended _ _ _ hp =>
    rw [Level.executing, hp] at hl
    cases hl

/-- A session whose history has its execution was executed. -/
theorem executed_of_lifespan (h : Lifespan l₀ ms (l :: rest)) (hs : l.Sound)
    (hm : .executed none ∈ ms) : l.state.executed = true := by
  cases h with
  | waiting hb => cases hb _ hm
  | executing _ _ hl => exact hs.executed hl
  | ended _ _ _ hp =>
    by_cases hx : l.state.executed = true
    · exact hx
    · rw [hs.fresh (Bool.eq_false_iff.mpr hx)] at hp
      cases hp

theorem once_of_lifespan (hnew : Level.New r.console l₀) (hsound : ∀ l ∈ r.levels, l.Sound)
    (h : Lifespan l₀ ms r.levels) : Once l₀ ms r := by
  obtain ⟨l, rest, hl, -⟩ := h.head
  have hs : l.Sound := hsound l (by rw [hl]; exact List.mem_cons_self)
  refine ⟨h, fun hm => ?_, fun hm => ?_, fun hhad => ?_, interrupt_of_false⟩
  · refine callExecute_of_new hnew ?_
    generalize r.levels = levels at h
    cases h with
    | waiting => rfl
    | executing | ended => simp at hm
  · rw [hl] at h
    have hx := executed_of_lifespan h hs hm
    exact ⟨callExecute_of_executed hl hx, executeToEnd_of_executed hl hx⟩
  · rw [hl] at h
    have hcall : (interruptLevels (l :: rest)).1 = true := by
      rw [← hl]
      exact hhad
    have hx := hs.running.symm.trans (running_of_interruptLevels hcall)
    exact mem_of_executing (executing_of_new hnew) h hx

/-- **A session is executed at most once**, and calls in vain do nothing, whatever else happens to
it and to those nested in it.

In its history come interrupts without effect, then the call that executes it, then refused calls
and interrupts, then its end, and then only refused calls and interrupts without effect. A refused
call and an interrupt without effect change nothing; without them the run has come to the same. All
this holds of every session of the run, each by its own history. -/
theorem once_of_history (hnew : Level.New console l₀)
    (h : History (ofLevel console w l₀) ms r) :
    Once l₀ ms r ∧ History (ofLevel console w l₀) (ms.filter fun m => !m.vain) r ∧
      ∀ i < r.levels.length, ∃ w₁ l₁ ms₁, Level.New console l₁ ∧
        History (ofLevel console w₁ l₁) ms₁ (r.behind i) ∧ Once l₁ ms₁ (r.behind i) := by
  have hall : ∀ {w l₀ ms r}, Level.New console l₀ → History (ofLevel console w l₀) ms r →
      Once l₀ ms r := by
    intro w l₀ ms r hnew h
    obtain ⟨rfl, hsound⟩ := sound_of_history hnew h
    exact once_of_lifespan hnew hsound (lifespan_of_history hnew h)
  refine ⟨hall hnew h, history_erase hnew h, fun i hi => ?_⟩
  obtain ⟨w₁, l₁, ms₁, hnew₁, hbehind⟩ := history_behind hnew h i hi
  exact ⟨w₁, l₁, ms₁, hnew₁, hbehind, hall hnew₁ hbehind⟩

/-! ### A shell in a shell in a shell -/

theorem history_of_proceeds (h : Relation.ReflTransGen Proceeds r₀ r) :
    ∃ ms, History r₀ ms r := by
  induction h with
  | refl => exact ⟨[], .refl⟩
  | tail _ hp ih =>
    obtain ⟨ms, hms⟩ := ih
    cases hp with
    | step hs =>
      obtain ⟨levels, w, interrupts, hstepped, rfl⟩ := stepped_of_step hs
      have hstep := hms.tail (.step hstepped)
      cases interrupts with
      | false => exact ⟨_, hstep⟩
      | true => exact ⟨_, hstep.tail (.interrupt _)⟩
    | interrupt i =>
      obtain ⟨ms', hb⟩ := befalls_interruptAt _ i
      exact ⟨_, hms.tail hb⟩
    | execute hx => exact ⟨_, hms.tail (befalls_of_execute hx)⟩
    | world w => exact ⟨_, hms.tail (.world _ w)⟩

/-- Each of three shells refuses to be executed again while the innermost one waits for a line. -/
theorem once_waiting : waitingRun.levels.length = 3 ∧ ∀ i < 3,
    (waitingRun.behind i).callExecute =
      (some (.invalidState "already executed"), waitingRun.behind i) := by
  have hlength : waitingRun.levels.length = 3 := by decide +kernel
  have hexecuting : ∀ l ∈ waitingRun.levels, l.executing = true := by
    have hall : waitingRun.levels.all Level.executing = true := by decide +kernel
    exact List.all_eq_true.mp hall
  obtain ⟨ms, h⟩ := history_of_proceeds proceeds_waitingRun
  obtain ⟨-, -, hinner⟩ := once_of_history (.shell [] {}) h
  rw [hlength] at hinner
  refine ⟨hlength, fun i hi => ?_⟩
  obtain ⟨w₁, l₁, ms₁, hnew, -, honce⟩ := hinner i hi
  obtain ⟨l, rest, hl, -⟩ := honce.lifespan.head
  have hmem : l ∈ waitingRun.levels := List.mem_of_mem_drop (i := i) (by
    rw [show waitingRun.levels.drop i = l :: rest from hl]
    exact List.mem_cons_self)
  have hlifespan := honce.lifespan
  rw [hl] at hlifespan
  have hm := mem_of_executing (executing_of_new hnew) hlifespan (hexecuting l hmem)
  exact (honce.refuses hm.1).1

end CommandConsole.Run
