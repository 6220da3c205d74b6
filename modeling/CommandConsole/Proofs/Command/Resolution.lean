import CommandConsole.Command.Registry

/-!
# What a name means

Two rules of replacement meet in a registry: of the commands that were inserted into one bundle
under one name the last one counts, and of the bundles that have a name the first one. `Means` says
so of the insertions alone, without maps. Looking a name up, listing all names and asking whether
there are any go through the bundles in three ways of their own, and all three agree with it.

Results: `get?_ofList_eq_some_iff` (inside a bundle), `lookup_eq_some_iff` (a list of bundles),
`getElem?_merge` (the merged list). Main statement: `resolution_of_made`.
-/

namespace CommandConsole

variable {α : Type}

namespace Bundle

variable {description name key : String} {inserted : List (String × α)} {command c : α}

/-! ## Inside a bundle -/

/-- Some insertions have a name. -/
def Inserts (inserted : List (String × α)) (name : String) : Prop :=
  ∃ command, (name, command) ∈ inserted

/-- The last insertion of a name is of this command. -/
def InsertsLast (inserted : List (String × α)) (name : String) (command : α) : Prop :=
  ∃ before after, inserted = before ++ (name, command) :: after ∧ ¬ Inserts after name

theorem inserts_cons :
    Inserts ((key, c) :: inserted) name ↔ key = name ∨ Inserts inserted name := by
  constructor
  · rintro ⟨command, hmem⟩
    rcases List.mem_cons.mp hmem with he | hmem
    · exact .inl (Prod.mk.inj he).1.symm
    · exact .inr ⟨command, hmem⟩
  · rintro (rfl | ⟨command, hmem⟩)
    · exact ⟨c, List.mem_cons_self⟩
    · exact ⟨command, List.mem_cons_of_mem _ hmem⟩

theorem insertsLast_cons : InsertsLast ((key, c) :: inserted) name command ↔
    InsertsLast inserted name command ∨ ¬ Inserts inserted name ∧ key = name ∧ c = command := by
  constructor
  · rintro ⟨before, after, he, hafter⟩
    cases before with
    | nil =>
      obtain ⟨hpair, rfl⟩ := List.cons_eq_cons.mp he
      obtain ⟨rfl, rfl⟩ := Prod.mk.inj hpair
      exact .inr ⟨hafter, rfl, rfl⟩
    | cons x before =>
      obtain ⟨-, rfl⟩ := List.cons_eq_cons.mp he
      exact .inl ⟨before, after, rfl, hafter⟩
  · rintro (⟨before, after, rfl, hafter⟩ | ⟨hnone, rfl, rfl⟩)
    · exact ⟨(key, c) :: before, after, rfl, hafter⟩
    · exact ⟨[], inserted, rfl, hnone⟩

theorem get?_insert (b : Bundle α) (key name : String) (command : α) :
    (b.insert key command).get? name = if key = name then some command else b.get? name := by
  simp [insert, get?, Std.TreeMap.getElem?_insert]

/-- What further insertions make of a bundle. -/
theorem get?_foldl_insert (b : Bundle α) : (inserted.foldl
      (fun b (name, command) => b.insert name command) b).get? name = some command ↔
    InsertsLast inserted name command ∨ ¬ Inserts inserted name ∧ b.get? name = some command := by
  induction inserted generalizing b with
  | nil => simp [InsertsLast, Inserts]
  | cons x rest ih =>
    obtain ⟨key, c⟩ := x
    rw [List.foldl_cons, ih, get?_insert, insertsLast_cons, inserts_cons]
    by_cases hk : key = name
    · simp [hk]
    · simp [hk]

/-- **Inside a bundle the last insertion counts.** -/
theorem get?_ofList_eq_some_iff :
    (ofList description inserted).get? name = some command ↔ InsertsLast inserted name command := by
  rw [ofList, get?_foldl_insert]
  simp [get?]

/-- A name has a last insertion if it has any. -/
theorem exists_insertsLast (h : Inserts inserted name) :
    ∃ command, InsertsLast inserted name command := by
  induction inserted with
  | nil =>
    obtain ⟨c, hmem⟩ := h
    cases hmem
  | cons x rest ih =>
    obtain ⟨key, c⟩ := x
    by_cases hrest : Inserts rest name
    · obtain ⟨command, hlast⟩ := ih hrest
      exact ⟨command, insertsLast_cons.mpr (.inl hlast)⟩
    · have hkey := (inserts_cons.mp h).resolve_right hrest
      exact ⟨c, insertsLast_cons.mpr (.inr ⟨hrest, hkey, rfl⟩)⟩

theorem InsertsLast.inserts (h : InsertsLast inserted name command) : Inserts inserted name := by
  obtain ⟨before, after, rfl, -⟩ := h
  exact ⟨command, by simp⟩

theorem get?_ofList_eq_none_iff :
    (ofList description inserted).get? name = none ↔ ¬ Inserts inserted name := by
  rw [Option.eq_none_iff_forall_ne_some]
  simp only [ne_eq, get?_ofList_eq_some_iff]
  constructor
  · intro hnone h
    obtain ⟨command, hlast⟩ := exists_insertsLast h
    exact hnone command hlast
  · exact fun h command hlast => h hlast.inserts

end Bundle

namespace Registry

open CommandConsole.Bundle

variable {r : Registry α} {providers : List (Provider α)} {name : String} {command : α}

/-! ## Bundles in a row -/

/-- What a name means by the insertions into each bundle: the last insertion of it into the first
bundle that has any. -/
def Means (providers : List (Provider α)) (name : String) (command : α) : Prop :=
  ∃ before p after, providers = before ++ p :: after ∧
    (∀ q ∈ before, ¬ Inserts q.commands name) ∧ InsertsLast p.commands name command

/-- **Among bundles the first one counts.** -/
theorem lookup_eq_some_iff :
    (discover providers).lookup name = some command ↔ Means providers name command := by
  rw [discover, lookup, List.findSome?_map, List.findSome?_eq_some_iff]
  constructor
  · rintro ⟨before, p, after, rfl, hp, hbefore⟩
    refine ⟨before, p, after, rfl, fun q hq => ?_, get?_ofList_eq_some_iff.mp hp⟩
    exact get?_ofList_eq_none_iff.mp (hbefore q hq)
  · rintro ⟨before, p, after, rfl, hbefore, hp⟩
    refine ⟨before, p, after, rfl, get?_ofList_eq_some_iff.mpr hp, fun q hq => ?_⟩
    exact get?_ofList_eq_none_iff.mpr (hbefore q hq)

theorem lookup_eq_none_iff :
    (discover providers).lookup name = none ↔ ∀ p ∈ providers, ¬ Inserts p.commands name := by
  rw [discover, lookup, List.findSome?_map, List.findSome?_eq_none_iff]
  exact forall₂_congr fun p _ => get?_ofList_eq_none_iff

/-- A bundle behind all others adds the names that were not there. -/
theorem lookup_push (r : Registry α) (b : Bundle α) (name : String) :
    (r.push b).lookup name = (r.lookup name).or (b.get? name) := by
  rw [push, lookup, List.findSome?_append, List.findSome?_singleton]
  rfl

/-! ## The merged list -/

theorem getElem?_foldl_insertIfNew {entries : List (String × α)} (all : Std.TreeMap String α)
    (h : entries.Pairwise fun x y => x.1 ≠ y.1) :
    (entries.foldl (fun all (name, command) => all.insertIfNew name command) all)[name]? =
        some command ↔
      all[name]? = some command ∨ all[name]? = none ∧ (name, command) ∈ entries := by
  induction entries generalizing all with
  | nil => simp
  | cons x rest ih =>
    obtain ⟨key, c⟩ := x
    obtain ⟨hkey, hrest⟩ := List.pairwise_cons.mp h
    rw [List.foldl_cons, ih _ hrest, Std.TreeMap.getElem?_insertIfNew]
    by_cases hk : key = name
    · subst hk
      have hnone : (key, command) ∉ rest := fun hmem => hkey _ hmem rfl
      cases hall : all[key]? with
      | none =>
        have hmem : key ∉ all := by simp [Std.TreeMap.mem_iff_isSome_getElem?, hall]
        simp [hmem, hnone, eq_comm]
      | some d =>
        have hmem : key ∈ all := by simp [Std.TreeMap.mem_iff_isSome_getElem?, hall]
        simp [hmem]
    · simp [hk, Ne.symm hk]

/-- One more bundle merged. -/
theorem getElem?_mergeBundle (all : Std.TreeMap String α) (b : Bundle α) :
    (b.toList.foldl (fun all (name, command) => all.insertIfNew name command) all)[name]? =
      (all[name]?).or (b.get? name) := by
  have hkeys : b.toList.Pairwise fun x y => x.1 ≠ y.1 :=
    Std.TreeMap.distinct_keys_toList.imp fun h he => h (by rw [he]; exact Std.ReflOrd.compare_self)
  refine Option.ext fun command => ?_
  rw [getElem?_foldl_insertIfNew all hkeys, toList, Std.TreeMap.mem_toList_iff_getElem?_eq_some]
  cases all[name]? <;> simp [get?]

theorem getElem?_merge (bundles : List (Bundle α)) (all : Std.TreeMap String α) :
    (bundles.foldl (fun all b =>
      b.toList.foldl (fun all (name, command) => all.insertIfNew name command) all) all)[name]? =
      (all[name]?).or (bundles.findSome? (·.get? name)) := by
  induction bundles generalizing all with
  | nil => simp
  | cons b rest ih =>
    rw [List.foldl_cons, ih, getElem?_mergeBundle, List.findSome?_cons]
    cases all[name]? <;> cases b.get? name <;> rfl

/-- **The merged list has exactly the names that can be looked up.** -/
theorem mem_commands_iff : (name, command) ∈ r.commands ↔ r.lookup name = some command := by
  rw [commands, Std.TreeMap.mem_toList_iff_getElem?_eq_some, getElem?_merge]
  simp [lookup]

/-- A map lists its names in increasing order. -/
theorem sorted_toList (entries : Std.TreeMap String α) :
    (entries.toList.map Prod.fst).Pairwise (· < ·) := by
  rw [List.pairwise_map]
  refine Std.TreeMap.ordered_keys_toList.imp fun {x y} h => ?_
  exact (compareOfLessAndEq_eq_lt (x := x.1) (y := y.1)).mp h

theorem commands_sorted (r : Registry α) : (r.commands.map Prod.fst).Pairwise (· < ·) :=
  sorted_toList _

theorem commands_eq_nil_iff : r.commands = [] ↔ ∀ name, r.lookup name = none := by
  rw [List.eq_nil_iff_forall_not_mem]
  simp only [Prod.forall, mem_commands_iff, Option.eq_none_iff_forall_ne_some, ne_eq]

theorem isEmpty_bundle_iff (b : Bundle α) : b.isEmpty = true ↔ ∀ name, b.get? name = none := by
  rw [Bundle.isEmpty, Std.TreeMap.isEmpty_iff_forall_not_mem]
  refine forall_congr' fun name => ?_
  rw [Std.TreeMap.mem_iff_isSome_getElem?, Option.not_isSome_iff_eq_none]
  rfl

/-- No bundle has a command exactly if no name can be looked up. -/
theorem isEmpty_iff : r.isEmpty = true ↔ ∀ name, r.lookup name = none := by
  simp only [isEmpty, lookup, List.all_eq_true, isEmpty_bundle_iff, List.findSome?_eq_none_iff]
  exact ⟨fun h name b hb => h b hb name, fun h b hb name => h name b hb⟩

/-! ## How registries are made -/

/-- How a registry is made, with the insertions into each of its bundles. -/
inductive Made : Registry α → List (Provider α) → Prop
  | ofBundles (ps : List (Provider α)) : Made ⟨ps.map Provider.bundle⟩ ps
  | ofCommands (description : String) (inserted : List (String × α)) :
      Made (ofCommands description inserted) [⟨description, inserted⟩]
  | discover (ps : List (Provider α)) : Made (discover ps) ps
  | push {r : Registry α} {ps : List (Provider α)} (h : Made r ps) (p : Provider α) :
      Made (r.push p.bundle) (ps ++ [p])

/-- However it is made, a registry has the bundles of its insertions in order. -/
theorem eq_discover_of_made (h : Made r providers) : r = discover providers := by
  induction h with
  | ofBundles | ofCommands | discover => rfl
  | push _ p ih =>
    rw [ih, push, discover, discover, List.map_append]
    rfl

/-- **Finding a name is one function**, however the registry was made and however often a name was
inserted into its bundles.

A name means the last insertion of it into the first bundle that has any, and nothing if no bundle
has one. The merged list has each name that means something once, with its command, in increasing
order. The registry is empty exactly if the list is, and exactly if no name means anything. And a
bundle added behind the others leaves every name that was there with its command. -/
theorem resolution_of_made (h : Made r providers) :
    (∀ name command, r.lookup name = some command ↔ Means providers name command) ∧
    (∀ name, r.lookup name = none ↔ ∀ p ∈ providers, ¬ Inserts p.commands name) ∧
    (∀ name command, (name, command) ∈ r.commands ↔ r.lookup name = some command) ∧
    (r.commands.map Prod.fst).Pairwise (· < ·) ∧
    (r.isEmpty = true ↔ r.commands = []) ∧
    (r.commands = [] ↔ ∀ name, r.lookup name = none) ∧
    (∀ b name command, r.lookup name = some command →
      (r.push b).lookup name = some command) := by
  refine ⟨fun name command => ?_, fun name => ?_, fun name command => mem_commands_iff,
    commands_sorted r, isEmpty_iff.trans commands_eq_nil_iff.symm, commands_eq_nil_iff, ?_⟩
  · rw [eq_discover_of_made h]
    exact lookup_eq_some_iff
  · rw [eq_discover_of_made h]
    exact lookup_eq_none_iff
  · intro b name command hfound
    rw [lookup_push, hfound]
    rfl

/-- Names with numbers in place of commands: `a` twice in the first bundle, and again in the one
that is added behind it. -/
def shadowed : Registry Nat :=
  (ofCommands "first" [("b", 1), ("a", 2), ("a", 3)]).push
    (Bundle.ofList "second" [("a", 4), ("c", 5)])

/-- The last `a` of the first bundle counts, also when a third bundle has one. -/
theorem resolution_shadowed : Made shadowed
      [⟨"first", [("b", 1), ("a", 2), ("a", 3)]⟩, ⟨"second", [("a", 4), ("c", 5)]⟩] ∧
    shadowed.lookup "a" = some 3 ∧ ("a", 3) ∈ shadowed.commands ∧ shadowed.isEmpty = false ∧
    (shadowed.push (Bundle.ofList "third" [("a", 6)])).lookup "a" = some 3 := by
  have hmade : Made shadowed [⟨"first", [("b", 1), ("a", 2), ("a", 3)]⟩,
      ⟨"second", [("a", 4), ("c", 5)]⟩] := (Made.ofCommands _ _).push ⟨"second", _⟩
  obtain ⟨hmeans, -, hmem, -, hempty, hnone, hpush⟩ := resolution_of_made hmade
  have ha : shadowed.lookup "a" = some 3 := (hmeans "a" 3).mpr
    ⟨[], ⟨"first", _⟩, [⟨"second", _⟩], rfl, by simp, [("b", 1), ("a", 2)], [], rfl,
      by simp [Inserts]⟩
  refine ⟨hmade, ha, (hmem "a" 3).mpr ha, ?_, hpush _ "a" 3 ha⟩
  rw [← Bool.not_eq_true, hempty, hnone]
  exact fun h => by simp [h "a"] at ha

end Registry

end CommandConsole
