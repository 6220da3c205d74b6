import CommandConsole.Proofs.Session.Ending

/-!
# How much a shell asks for

A shell lives on what it hears. Of itself it asks for a few things only: to show a prompt and hear a
line, or to close. Each line and each interrupt at its prompt lets it ask for a few more, and come to
its next prompt. `Thrift` reckons with that as with a credit that every request takes one from, and
`thrift` is the law that a shell never overdraws it.

The law has two clauses more: what a shell asks for behind a prompt that was shown is the event there,
and nothing else is asked for an event; and a shell runs a command only behind a line, one for each.

Results: `asked_le` (how many requests there are), `began_le` (how many commands), `event_of_prompt`
(what comes behind a prompt), `partings_of_stop` (what comes behind a stop).
-/

namespace CommandConsole.Session

/-- A request of the shell's own plan. -/
def Entry.isAsked : Entry → Bool
  | .asked _ _ => true
  | _ => false

/-- A line was heard. -/
def Entry.isLine : Entry → Bool
  | .asked (.event _) (.ok (.line _)) => true
  | _ => false

/-- The end of the input was met. -/
def Entry.isEnd : Entry → Bool
  | .asked (.event _) (.ok .endOfInput) => true
  | _ => false

/-- The shell was interrupted at its prompt. -/
def Entry.isInterrupted : Entry → Bool
  | .asked (.event _) (.ok .interrupted) => true
  | _ => false

theorem Entry.isInterrupted_iff {x : Entry} :
    x.isInterrupted = true ↔ ∃ prompt, x = .asked (.event prompt) (.ok .interrupted) := by
  constructor
  · intro h
    unfold isInterrupted at h
    split at h
    next prompt => exact ⟨prompt, rfl⟩
    · cases h
  · rintro ⟨prompt, rfl⟩
    rfl

/-- A command began. -/
def Entry.isBegan : Entry → Bool
  | .began _ => true
  | _ => false

/-- What a shell may ask for, by its log. -/
structure Thrift where
  /-- How many requests it has left. -/
  credit : Nat
  /-- The prompt that it has just shown. -/
  shown : Option String
  /-- It has heard a line and looked for no command since. -/
  heard : Bool
  /-- The command that it has just found. -/
  found : Option Binding

namespace Thrift

/-- What a line or an interrupt at the prompt brings. -/
def bounty : Nat :=
  7

def see (s : Thrift) : Entry → Thrift
  | .asked (.event _) (.ok (.line _)) => ⟨s.credit - 1 + bounty, none, true, none⟩
  | .asked (.event _) (.ok .interrupted) => ⟨s.credit - 1 + bounty, none, s.heard, none⟩
  | .asked (.prompt text) (.ok _) => ⟨s.credit - 1, some text, s.heard, none⟩
  | .asked (.resolve _) (.ok b) => ⟨s.credit - 1, none, false, some b⟩
  | .asked _ _ => ⟨s.credit - 1, none, s.heard, none⟩
  | .began _ => { s with found := none }
  | .used .. | .ended _ => s

/-- What may be asked for where this prompt was shown, or none. -/
def Suits (s : Thrift) : Request → Prop
  | .event text => s.shown = some text
  | .resolve _ => s.shown = none ∧ s.heard = true
  | .run b => s.shown = none ∧ s.found = some b
  | _ => s.shown = none

/-- Another turn may end with the end of the input. -/
def Ends (s : Thrift) : Next → Prop
  | .again _ => 5 ≤ s.credit ∧ s.shown = none
  | .ended _ => s.shown = none

end Thrift

/-- The law that a shell asks for no more than it has left. -/
def thrift : Law Thrift where
  start := ⟨6, none, false, none⟩
  see := Thrift.see
  asks s r := 1 ≤ s.credit ∧ s.Suits r
  runs s := s.shown = none
  ends := Thrift.Ends

variable {console : Console} {s : Thrift} {buffer : String} {log : List Entry}

/-! ## The parts of a shell keep the law -/

theorem thrift_close (failure : Option Failure) (hcredit : 2 ≤ s.credit) (hshown : s.shown = none) :
    thrift.Keeps s (close failure) := by
  have hone : 1 ≤ s.credit := Nat.le_of_succ_le hcredit
  have hleft : 1 ≤ s.credit - 1 := Nat.le_sub_of_add_le hcredit
  cases failure with
  | none =>
    refine Law.keeps_ask (r := .exitValue) nofun ⟨hone, hshown⟩ fun _ => ?_
    exact Law.keeps_ask (r := .flush) nofun ⟨hleft, rfl⟩ fun _ => rfl
  | some e =>
    refine Law.keeps_ask (r := .write _) nofun ⟨hone, hshown⟩ fun _ => ?_
    exact Law.keeps_ask (r := .flush) nofun ⟨hleft, rfl⟩ fun _ => rfl

/-- A line is written, and another turn follows unless that fails. -/
theorem thrift_print {text : String} (hcredit : 6 ≤ s.credit) (hshown : s.shown = none) :
    thrift.Keeps s (orClose do print text; return some buffer) := by
  have hone : 1 ≤ s.credit := by omega
  have hleft : 5 ≤ s.credit - 1 := by omega
  refine Law.keeps_ask (r := .write _) nofun ⟨hone, hshown⟩ fun a => ?_
  cases a with
  | ok => exact ⟨hleft, rfl⟩
  | error fault => exact thrift_close _ (Nat.le_trans (by decide) hleft) rfl

theorem thrift_hearInterrupt (hcredit : 7 ≤ s.credit) (hshown : s.shown = none) :
    thrift.Keeps s (orClose hearInterrupt) := by
  have hone : 1 ≤ s.credit := by omega
  refine Law.keeps_ask (r := .renew) nofun ⟨hone, hshown⟩ fun _ => ?_
  exact thrift_print (Nat.le_sub_of_add_le hcredit) rfl

theorem thrift_dispatch {words : List String} (hcredit : 9 ≤ s.credit) (hshown : s.shown = none)
    (hheard : s.heard = true) :
    thrift.Keeps s (orClose do dispatch words; return some buffer) := by
  have hone : 1 ≤ s.credit := by omega
  refine Law.keeps_ask (r := .resolve words) nofun ⟨hone, hshown, hheard⟩ fun found => ?_
  have hleft : 8 ≤ s.credit - 1 := by omega
  cases found with
  | error e =>
    refine Law.keeps_ask (r := .write _) nofun ⟨Nat.le_trans (by decide) hleft, rfl⟩ fun _ => ?_
    have hturn : 5 ≤ s.credit - 1 - 1 := by omega
    exact ⟨hturn, rfl⟩
  | ok b =>
    refine Law.keeps_run (b := b) ⟨Nat.le_trans (by decide) hleft, rfl, rfl⟩
      fun es result hused hperformed => ?_
    -- What the command has done leaves the credit as it is.
    have hcommand : ∀ t : Thrift, thrift.after t es = t := by
      clear hperformed
      induction es with
      | nil => exact fun t => rfl
      | cons x rest ih =>
        obtain ⟨⟨r, a, rfl⟩, hrest⟩ := List.forall_mem_cons.mp hused
        exact fun t => ih hrest t
    rw [hcommand]
    cases hperformed with
    | ended code =>
      refine Law.keeps_ask (r := .isCancelled) nofun ⟨Nat.le_trans (by decide) hleft, rfl⟩
        fun cancelled => ?_
      have hturn : 7 ≤ s.credit - 1 - 1 := by omega
      cases cancelled with
      | false => exact ⟨Nat.le_trans (by decide) hturn, rfl⟩
      | true =>
        refine Law.keeps_ask (r := .renew) nofun ⟨Nat.le_trans (by decide) hturn, rfl⟩ fun _ => ?_
        have hagain : 5 ≤ s.credit - 1 - 1 - 1 := by omega
        exact ⟨hagain, rfl⟩
    | interrupted =>
      refine Law.keeps_ask (r := .flush) nofun ⟨Nat.le_trans (by decide) hleft, rfl⟩ fun a => ?_
      have hflushed : 7 ≤ s.credit - 1 - 1 := by omega
      cases a with
      | error fault => exact thrift_close _ (Nat.le_trans (by decide) hflushed) rfl
      | ok =>
        refine Law.keeps_ask (r := .write _) nofun ⟨Nat.le_trans (by decide) hflushed, rfl⟩
          fun a => ?_
        have hwritten : 6 ≤ s.credit - 1 - 1 - 1 := by omega
        cases a with
        | error fault => exact thrift_close _ (Nat.le_trans (by decide) hwritten) rfl
        | ok =>
          refine Law.keeps_ask (r := .renew) nofun ⟨Nat.le_trans (by decide) hwritten, rfl⟩
            fun _ => ?_
          have hagain : 5 ≤ s.credit - 1 - 1 - 1 - 1 := by omega
          exact ⟨hagain, rfl⟩
    | unreported => exact thrift_close _ (Nat.le_trans (by decide) hleft) rfl

theorem thrift_hearLine (hcredit : 9 ≤ s.credit) (hshown : s.shown = none) (hheard : s.heard = true)
    (line : String) : thrift.Keeps s (orClose (hearLine console buffer line)) := by
  unfold hearLine
  cases CommandLine.continueWith console.reader buffer line with
  | mk answer kept =>
    have hturn : thrift.Keeps s (.done (.again kept)) := ⟨Nat.le_trans (by decide) hcredit, hshown⟩
    match answer with
    | .error report => exact thrift_print (Nat.le_trans (by decide) hcredit) hshown
    | .ok .needsMore => exact hturn
    | .ok (.complete []) => exact hturn
    | .ok (.complete (word :: words)) => exact thrift_dispatch hcredit hshown hheard

/-- **A turn of a shell** asks for no more than it has left. -/
theorem thrift_turn (hcredit : 5 ≤ s.credit) (hshown : s.shown = none) :
    thrift.Keeps s (orClose (turn console buffer)) := by
  refine Law.keeps_ask (r := .exitValue) nofun ⟨Nat.le_trans (by decide) hcredit, hshown⟩
    fun value => ?_
  have hasked : 4 ≤ s.credit - 1 := by omega
  cases value with
  | some value => exact thrift_close none (Nat.le_trans (by decide) hasked) rfl
  | none =>
    refine Law.keeps_ask (r := .prompt _) nofun ⟨Nat.le_trans (by decide) hasked, rfl⟩
      fun shown => ?_
    have hprompted : 3 ≤ s.credit - 1 - 1 := by omega
    cases shown with
    | error fault => exact thrift_close _ (Nat.le_trans (by decide) hprompted) rfl
    | ok =>
      refine Law.keeps_ask (r := .event _) nofun ⟨Nat.le_trans (by decide) hprompted, rfl⟩
        fun answer => ?_
      have hleft : 2 ≤ s.credit - 1 - 1 - 1 := by omega
      have hpaid : 9 ≤ s.credit - 1 - 1 - 1 + Thrift.bounty := by
        rw [Thrift.bounty]
        omega
      cases answer with
      | error fault => exact thrift_close _ hleft rfl
      | ok e =>
        cases e with
        | line line => exact thrift_hearLine hpaid rfl rfl line
        | endOfInput => exact thrift_close none hleft rfl
        | interrupted => exact thrift_hearInterrupt (Nat.le_trans (by decide) hpaid) rfl

theorem thrift_greet (settings : ShellSettings) :
    thrift.Keeps thrift.start (orClose (greet settings)) := by
  unfold greet
  cases settings.greeting? with
  | none => exact ⟨by decide, rfl⟩
  | some greeting => exact thrift_print (by decide) rfl

/-- **Each part of a shell** asks for no more than it has left. -/
theorem upheld_thrift (console : Console) : thrift.Upheld console where
  began _ _ h := h.2.1
  used _ _ _ h := h
  again _ _ h := thrift_turn h.1 h.2

theorem kept_thrift {args : List String} {env : Environment} {l : Level} {past : List Mark}
    (h : Level.Past console (Level.shell console.settings args env) past l) :
    thrift.Kept (Level.shell console.settings args env) (logOf past) l :=
  have hopen : thrift.Keeps thrift.start ((Level.shell console.settings args env).opening console) :=
    thrift_greet console.settings
  Law.kept_of_past (upheld_thrift console) hopen rfl h

/-! ## What it says of the log -/

/-- The law permits each entry of a log. -/
def Thrifty (log : List Entry) : Prop :=
  ∀ before x after, log = before ++ x :: after → thrift.Permits (thrift.view before) x

theorem Thrifty.front {x : Entry} (h : Thrifty (log ++ [x])) :
    Thrifty log ∧ thrift.Permits (thrift.view log) x := by
  refine ⟨fun before y after he => h before y (after ++ [x]) ?_, h log x [] rfl⟩
  rw [he, List.append_assoc, List.cons_append]

/-- **What is spent and earned.** If each entry that the law permits spends no more than there is and
it earns, then so does a log. -/
theorem countP_le_of_see {f : Thrift → Nat} {spends earns : Entry → Bool} {k : Nat}
    (hsee : ∀ s x, thrift.Permits s x →
      f (s.see x) + (spends x).toNat ≤ f s + k * (earns x).toNat) (h : Thrifty log) :
    f (thrift.view log) + log.countP spends ≤ f thrift.start + k * log.countP earns := by
  induction log using List.reverseRecOn with
  | nil => exact Nat.le_refl _
  | append_singleton front x ih =>
    obtain ⟨hfront, hx⟩ := h.front
    have hbefore := ih hfront
    have hstep := hsee _ x hx
    have hview : thrift.view (front ++ [x]) = (thrift.view front).see x :=
      Law.view_append front [x]
    rw [hview, countP_snoc, countP_snoc, Nat.mul_add]
    omega

/-- Whether an entry lets the shell ask for more. -/
def Entry.provides (x : Entry) : Bool :=
  x.isLine || x.isInterrupted

theorem credit_see {x : Entry} (h : thrift.Permits s x) :
    (s.see x).credit + x.isAsked.toNat ≤ s.credit + 7 * x.provides.toNat := by
  cases x with
  | began | used | ended => exact Nat.le_refl _
  | asked r a =>
    have hone : 1 ≤ s.credit := h.1
    have hleft : s.credit - 1 + 1 = s.credit := Nat.sub_add_cancel hone
    cases r with
    | event prompt =>
      match a with
      | .error fault | .ok .endOfInput => exact Nat.le_of_eq hleft
      | .ok (.line text) | .ok .interrupted =>
        change s.credit - 1 + 7 + 1 ≤ s.credit + 7
        omega
    | prompt | resolve => cases a <;> exact Nat.le_of_eq hleft
    | write | flush | isCancelled | renew | exitValue | run => exact Nat.le_of_eq hleft

/-- **A shell asks for a few things**, and for each line and interrupt at its prompt a few more. -/
theorem asked_le (h : Thrifty log) :
    log.countP Entry.isAsked ≤ 6 + 7 * (log.countP Entry.isLine + log.countP Entry.isInterrupted) := by
  have hspent := countP_le_of_see (f := Thrift.credit) (fun s x hx => credit_see hx) h
  have hstart : thrift.start.credit = 6 := rfl
  have hprovides : log.countP Entry.provides ≤
      log.countP Entry.isLine + log.countP Entry.isInterrupted := by
    clear h hspent
    induction log with
    | nil => exact Nat.le_refl 0
    | cons x rest ih =>
      rw [List.countP_cons, List.countP_cons, List.countP_cons, Entry.provides]
      cases x.isLine <;> cases x.isInterrupted <;> simp <;> omega
  omega

/-- How many commands the shell may run before it hears another line. -/
def Thrift.due (s : Thrift) : Nat :=
  s.heard.toNat + s.found.isSome.toNat

theorem due_see {x : Entry} (h : thrift.Permits s x) :
    (s.see x).due + x.isBegan.toNat ≤ s.due + 1 * x.isLine.toNat := by
  obtain ⟨credit, shown, heard, found⟩ := s
  have hlost : heard.toNat + 0 ≤ heard.toNat + found.isSome.toNat := Nat.le_add_right _ _
  cases x with
  | used | ended => exact Nat.le_refl _
  | began b =>
    obtain rfl : found = some b := h.2.2
    exact Nat.le_refl _
  | asked r a =>
    cases r with
    | event prompt =>
      match a with
      | .error fault | .ok .endOfInput | .ok .interrupted => exact hlost
      | .ok (.line text) =>
        change 1 + 0 ≤ heard.toNat + found.isSome.toNat + 1
        omega
    | prompt text => cases a <;> exact hlost
    | resolve words =>
      cases a with
      | error e => exact hlost
      | ok b =>
        obtain rfl : heard = true := h.2.2
        exact Nat.le_add_right _ _
    | write | flush | isCancelled | renew | exitValue | run => exact hlost

/-- **A shell runs at most one command** for each line. -/
theorem began_le (h : Thrifty log) : log.countP Entry.isBegan ≤ log.countP Entry.isLine := by
  have hspent := countP_le_of_see (f := Thrift.due) (fun s x hx => due_see hx) h
  have hstart : thrift.start.due = 0 := rfl
  omega

/-- **The command that a shell runs** is one that was found for its words. -/
theorem resolved_of_found {P : Binding → Prop}
    (h : ∀ words b, .asked (.resolve words) (.ok b) ∈ log → P b) {b : Binding}
    (hb : (thrift.view log).found = some b) : P b := by
  induction log using List.reverseRecOn with
  | nil => cases hb
  | append_singleton front x ih =>
    have hfront := ih fun words b hmem => h words b (List.mem_append_left _ hmem)
    have hview : thrift.view (front ++ [x]) = (thrift.view front).see x :=
      Law.view_append front [x]
    rw [hview] at hb
    cases x with
    | used | ended => exact hfront hb
    | began b => cases hb
    | asked r a =>
      cases r with
      | event prompt => match a with
        | .error fault | .ok .endOfInput | .ok .interrupted | .ok (.line text) => cases hb
      | prompt text => cases a <;> cases hb
      | resolve words =>
        cases a with
        | error e => cases hb
        | ok b' =>
          cases hb
          exact h words _ (List.mem_append_right _ List.mem_cons_self)
      | write | flush | isCancelled | renew | exitValue | run => cases hb

/-- A prompt was shown just now if nothing was asked for since. -/
theorem prompt_of_shown {x : Entry} (h : thrift.Permits s x) (hshown : (s.see x).shown ≠ none) :
    ∃ text done, x = .asked (.prompt text) (.ok done) := by
  cases x with
  | began b => exact absurd h.2.1 hshown
  | used | ended => exact absurd h hshown
  | asked r a =>
    cases r with
    | prompt text =>
      cases a with
      | ok done => exact ⟨text, done, rfl⟩
      | error fault => exact absurd rfl hshown
    | event prompt =>
      match a with
      | .error fault | .ok .endOfInput | .ok .interrupted | .ok (.line text) =>
        exact absurd rfl hshown
    | resolve words => cases a <;> exact absurd rfl hshown
    | write | flush | isCancelled | renew | exitValue | run => exact absurd rfl hshown

/-- No prompt was shown just now where the shell is not about to ask for something. -/
theorem shown_of_stands {phase : Phase} (h : thrift.Stands s phase)
    (hp : ∀ r next, phase ≠ .own (.ask r next)) : s.shown = none := by
  cases phase with
  | idle =>
    obtain rfl := h
    rfl
  | own plan =>
    cases plan with
    | ask r next => exact absurd rfl (hp r next)
    | done x =>
      cases x with
      | again buffer => exact h.2
      | ended result => exact h
  | command | nested => exact h.1
  | «over» => exact h

/-- **Behind a prompt that was shown** comes the event there, or nothing yet. -/
theorem event_of_prompt (h : Thrifty log) {before after : List Entry} {text : String} {shown : Unit}
    (he : log = before ++ .asked (.prompt text) (.ok shown) :: after) :
    after = [] ∨ ∃ e rest, after = .asked (.event text) e :: rest := by
  cases after with
  | nil => exact .inl rfl
  | cons y rest =>
    have hy := h (before ++ [.asked (.prompt text) (.ok shown)]) y rest
      (by rw [he, List.append_assoc]; rfl)
    have hview : (thrift.view (before ++ [.asked (.prompt text) (.ok shown)])).shown = some text := by
      rw [Law.view_append]
      rfl
    have hnone : (thrift.view (before ++ [.asked (.prompt text) (.ok shown)])).shown ≠ none := by
      rw [hview]
      exact Option.some_ne_none text
    cases y with
    | began b => exact absurd hy.2.1 hnone
    | used | ended => exact absurd hy hnone
    | asked r a =>
      cases r with
      | event prompt =>
        have hshown : some text = some prompt := hview.symm.trans hy.2
        obtain rfl := Option.some.inj hshown
        exact .inr ⟨a, rest, rfl⟩
      | run | resolve => exact absurd hy.2.1 hnone
      | write | flush | isCancelled | renew | exitValue | prompt => exact absurd hy.2 hnone

/-! ## Behind a stop -/

/-- Whether an entry is of the prompt or of the event there. -/
def Entry.atPrompt : Entry → Bool
  | .asked (.prompt _) _ | .asked (.event _) _ => true
  | _ => false

theorem Partings.atPrompt {e : Option Failure} {after : List Entry} (h : Partings e after) :
    ∀ y ∈ after, y.atPrompt = false := by
  have hfirst : ∀ a, (Entry.asked (parting e) a).atPrompt = false := by
    intro a
    cases e <;> rfl
  cases h with
  | none => simp
  | first a => exact List.forall_mem_singleton.mpr (hfirst a)
  | both a b => exact List.forall_mem_cons.mpr ⟨hfirst a, List.forall_mem_singleton.mpr rfl⟩

/-- **Behind the prompt that ends a shell** come its partings only. -/
theorem partings_of_stop (h : Course console log) {before after : List Entry} {x : Entry}
    (he : log = before ++ x :: after) (hprompt : x.atPrompt = true) {e : Option Failure}
    (hx : Stop console (x :: before.reverse) e) :
    ∃ e, Stop console (x :: before.reverse) e ∧ Partings e after := by
  have hsuffix : ∀ rest, x :: before.reverse <:+ (before ++ x :: rest).reverse := by
    intro rest
    rw [List.reverse_append, List.reverse_cons, List.append_assoc]
    exact List.suffix_append _ _
  cases h with
  | goesOn hgo => exact absurd hx (hgo _ (he ▸ hsuffix after) e)
  | @stopped front back e' hlog hs hp =>
    have hnot : x ∉ back := by
      intro hmem
      rw [hp.atPrompt x hmem] at hprompt
      cases hprompt
    rcases List.append_eq_append_iff.mp (he.symm.trans hlog) with ⟨as, hfront, hback⟩ | ⟨cs, -, hback⟩
    · cases as with
      | nil =>
        rw [List.nil_append] at hback
        exact absurd (hback ▸ List.mem_cons_self) hnot
      | cons y as =>
        obtain ⟨rfl, rfl⟩ := List.cons.inj hback
        rcases List.eq_nil_or_concat as with rfl | ⟨as, z, rfl⟩
        · rw [hfront, List.reverse_concat] at hs
          exact ⟨e', hs.1, hp⟩
        · -- The shell would have gone on behind its end.
          have htail : front.reverse.tail = (before ++ x :: as).reverse := by
            rw [hfront, List.concat_eq_append, ← List.cons_append, ← List.append_assoc,
              List.reverse_concat, List.tail_cons]
          exact absurd hx (hs.2 _ (htail ▸ hsuffix as) e)
    · exact absurd (hback ▸ List.mem_append_right _ List.mem_cons_self) hnot

theorem atPrompt_of_isEnd (console : Console) {x : Entry} (h : x.isEnd = true) :
    x.atPrompt = true ∧ ∀ s, Stop console (x :: s) none := by
  unfold Entry.isEnd at h
  split at h
  next prompt => exact ⟨rfl, fun s => .endOfInput prompt⟩
  · cases h

/-- **A shell meets the end of its input once** at most. -/
theorem ends_le_one (h : Course console log) : log.countP Entry.isEnd ≤ 1 := by
  by_cases hnone : ∃ x ∈ log, x.isEnd = true
  · obtain ⟨x, hmem, hx⟩ := hnone
    obtain ⟨before, after, rfl⟩ := List.append_of_mem hmem
    -- Behind each such entry there is no other.
    have hbehind : ∀ front y back, before ++ x :: after = front ++ y :: back → y.isEnd = true →
        ∀ z ∈ back, z.atPrompt = false := by
      intro front y back he hy
      obtain ⟨hprompt, hstop⟩ := atPrompt_of_isEnd console hy
      obtain ⟨e, -, hp⟩ := partings_of_stop h he hprompt (hstop _)
      exact hp.atPrompt
    have hafter : after.countP Entry.isEnd = 0 := by
      rw [List.countP_eq_zero]
      intro z hz hend
      obtain ⟨hprompt, -⟩ := atPrompt_of_isEnd console hend
      cases hprompt.symm.trans (hbehind before x after rfl hx z hz)
    have hbefore : before.countP Entry.isEnd = 0 := by
      rw [List.countP_eq_zero]
      intro z hz hend
      obtain ⟨front, back, rfl⟩ := List.append_of_mem hz
      obtain ⟨hprompt, -⟩ := atPrompt_of_isEnd console hx
      have hlast := hbehind front z (back ++ x :: after)
        (by rw [List.append_assoc, List.cons_append]) hend x
        (List.mem_append_right _ List.mem_cons_self)
      cases hprompt.symm.trans hlast
    rw [List.countP_append, List.countP_cons, hbefore, hafter]
    split <;> decide
  · rw [List.countP_eq_zero.mpr fun x hx hend => hnone ⟨x, hx, hend⟩]
    decide

end CommandConsole.Session
