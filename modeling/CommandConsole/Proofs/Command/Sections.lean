import CommandConsole.Command.Listing
import CommandConsole.Proofs.Command.Resolution
import Mathlib.Data.List.Forall2

/-!
# What a listing shows

A listing leaves out the names that it has seen in earlier bundles, shown or not, and never asks
what a name means; still it shows each name that means something once, in the section of the bundle
that the name is found in. `Sections` says which sections there are, by what the bundles have under
each name: one for each bundle with a name that none before it has.

Results: `exists_sections` (the text is that of the sections), `place_of_sections` (the bundle of a
section), `count_listed` (how often a name is shown). Main statement: `listing_of_registry`.
-/

namespace CommandConsole

variable {α β : Type}

namespace Bundle

variable {b : Bundle α} {name : String} {command : α}

theorem mem_toList_iff : (name, command) ∈ b.toList ↔ b.get? name = some command :=
  Std.TreeMap.mem_toList_iff_getElem?_eq_some

theorem mem_names_iff : name ∈ b.names ↔ b.get? name ≠ none := by
  rw [names, Std.TreeMap.mem_keys, Std.TreeMap.mem_iff_isSome_getElem?, Option.isSome_iff_ne_none]
  rfl

theorem toList_map (f : α → β) (b : Bundle α) :
    (b.map f).toList = b.toList.map fun x => (x.1, f x.2) :=
  Std.TreeMap.toList_map

theorem names_map (f : α → β) (b : Bundle α) : (b.map f).names = b.names :=
  Std.TreeMap.keys_map

end Bundle

namespace Registry

/-! ## Sections -/

/-- The row of a name: two spaces, the name, spaces up to a width, two spaces and the summary. -/
def IsRow (width : Nat) (name summary row : String) : Prop :=
  ∃ spaces, name.length + spaces = width ∧
    row = "  " ++ name ++ String.ofList (List.replicate spaces ' ') ++ "  " ++ summary ++ "\n"

/-- What a listing shows of one bundle. -/
structure Section (α : Type) where
  /-- How many bundles are before it. -/
  place : Nat
  shown : List (String × α)
  text : String

/-- A section of a bundle behind some others: it shows the names that none of them has, at least
one, in increasing order, each in a row with the summary that the bundle has for it. The rows are as
wide as the longest of the names needs. -/
structure Section.Of (help : α → Help) (before : List (Bundle α)) (b : Bundle α) (s : Section α) :
    Prop where
  place : s.place = before.length
  any : s.shown ≠ []
  sorted : (s.shown.map Prod.fst).Pairwise (· < ·)
  mem : ∀ name command, (name, command) ∈ s.shown ↔
    b.get? name = some command ∧ ∀ q ∈ before, q.get? name = none
  text : ∃ width rows, (∀ x ∈ s.shown, x.1.length ≤ width) ∧ (∃ x ∈ s.shown, x.1.length = width) ∧
    List.Forall₂ (fun x row => IsRow width x.1 (help x.2).summary row) s.shown rows ∧
    s.text = "=== " ++ b.description ++ "\n\n" ++ String.join rows ++ "\n"

/-- The sections of some bundles behind others, in order. -/
inductive Sections (help : α → Help) :
    List (Bundle α) → List (Bundle α) → List (Section α) → Prop
  | nil (before : List (Bundle α)) : Sections help before [] []
  | shown {before rest : List (Bundle α)} {b : Bundle α} {s : Section α} {sections : List (Section α)}
      (hs : s.Of help before b) (h : Sections help (before ++ [b]) rest sections) :
      Sections help before (b :: rest) (s :: sections)
  /-- Every name of the bundle is in one before it. -/
  | hidden {before rest : List (Bundle α)} {b : Bundle α} {sections : List (Section α)}
      (hb : ∀ name, b.get? name ≠ none → ∃ q ∈ before, q.get? name ≠ none)
      (h : Sections help (before ++ [b]) rest sections) : Sections help before (b :: rest) sections

/-- All names that some sections show. -/
def listed (sections : List (Section α)) : List String :=
  sections.flatMap fun s => s.shown.map Prod.fst

variable {help : α → Help} {before bundles : List (Bundle α)} {b : Bundle α} {seen : List String}
  {sections : List (Section α)} {name : String}

/-! ## The text -/

theorem isRow_row {width : Nat} {name : String} (h : name.length ≤ width) (d : Help) :
    IsRow width name d.summary (row width name d) := by
  refine ⟨width - name.length, Nat.add_sub_cancel' h, ?_⟩
  simp only [row, padTo, String.append_assoc]

/-- The width of a section is that of its longest name. -/
theorem width_spec (shown : List (String × α)) :
    (∀ x ∈ shown, x.1.length ≤ (shown.map fun x => x.1.length).foldl max 0) ∧
    (shown ≠ [] → ∃ x ∈ shown, x.1.length = (shown.map fun x => x.1.length).foldl max 0) := by
  rw [List.foldl_max, Nat.zero_max]
  cases hmax : (shown.map fun x => x.1.length).max? with
  | none =>
    obtain rfl := List.map_eq_nil_iff.mp (List.max?_eq_none_iff.mp hmax)
    exact ⟨nofun, fun h => absurd rfl h⟩
  | some n =>
    obtain ⟨hmem, hle⟩ := List.max?_eq_some_iff.mp hmax
    obtain ⟨x, hx, hn⟩ := List.mem_map.mp hmem
    exact ⟨fun y hy => hle _ (List.mem_map.mpr ⟨y, hy, rfl⟩), fun _ => ⟨x, hx, hn⟩⟩

theorem visible_map (help : α → Help) (seen : List String) (b : Bundle α) :
    visible seen (b.map help) =
      (b.toList.filter fun x => !seen.contains x.1).map fun x => (x.1, help x.2) := by
  rw [visible, Bundle.toList_map, List.filter_map]
  rfl

/-- The text of a section that shows something. -/
theorem listingSection_spec (description : String) {shown : List (String × α)} (hne : shown ≠ []) :
    ∃ width rows, (∀ x ∈ shown, x.1.length ≤ width) ∧ (∃ x ∈ shown, x.1.length = width) ∧
      List.Forall₂ (fun x row => IsRow width x.1 (help x.2).summary row) shown rows ∧
      listingSection description (shown.map fun x => (x.1, help x.2)) =
        "=== " ++ description ++ "\n\n" ++ String.join rows ++ "\n" := by
  obtain ⟨hle, hmax⟩ := width_spec shown
  refine ⟨_, shown.map fun x => row ((shown.map fun x => x.1.length).foldl max 0) x.1 (help x.2),
    hle, hmax hne, ?_, ?_⟩
  · rw [List.forall₂_map_right_iff, List.forall₂_same]
    exact fun x hx => isRow_row (hle x hx) (help x.2)
  · simp only [listingSection, List.isEmpty_iff, List.map_eq_nil_iff, hne, if_false, List.map_map]
    rfl

/-- What a bundle shows behind some others is a section of it, unless it is nothing. -/
theorem section_of_seen (hseen : ∀ name, name ∈ seen ↔ ∃ q ∈ before, q.get? name ≠ none)
    (hne : b.toList.filter (fun x => !seen.contains x.1) ≠ []) :
    Section.Of help before b
      ⟨before.length, b.toList.filter fun x => !seen.contains x.1,
        listingSection b.description (visible seen (b.map help))⟩ where
  place := rfl
  any := hne
  sorted := (sorted_toList b.commands).sublist ((List.filter_sublist ..).map Prod.fst)
  mem name command := by
    rw [List.mem_filter, Bundle.mem_toList_iff, Bool.not_eq_true', ← Bool.not_eq_true,
      List.contains_iff_mem, hseen]
    simp only [ne_eq, not_exists, not_and, not_not]
  text := by
    rw [visible_map]
    exact listingSection_spec b.description hne

/-- **The text of a listing is that of the sections**: what is taken for seen are the names of the
bundles before, shown or not. -/
theorem exists_sections (hseen : ∀ name, name ∈ seen ↔ ∃ q ∈ before, q.get? name ≠ none) :
    ∃ sections, Sections help before bundles sections ∧
      listingFrom seen (bundles.map (·.map help)) = String.join (sections.map (·.text)) := by
  induction bundles generalizing before seen with
  | nil => exact ⟨[], .nil before, rfl⟩
  | cons b rest ih =>
    -- What is seen grows by every name of the bundle, also by those that are left out.
    have hgrown : ∀ name, name ∈ seen ++ (b.map help).names ↔
        ∃ q ∈ before ++ [b], q.get? name ≠ none := by
      intro name
      rw [List.mem_append, Bundle.names_map, Bundle.mem_names_iff, hseen]
      simp only [List.mem_append, List.mem_singleton, or_and_right, exists_or, exists_eq_left]
    obtain ⟨sections, hsections, htext⟩ := ih hgrown
    rw [List.map_cons, listingFrom, htext]
    by_cases hne : b.toList.filter (fun x => !seen.contains x.1) = []
    · refine ⟨sections, .hidden (fun name hname => ?_) hsections, ?_⟩
      · obtain ⟨command, hget⟩ := Option.ne_none_iff_exists'.mp hname
        have hin := List.filter_eq_nil_iff.mp hne _ (Bundle.mem_toList_iff.mpr hget)
        rw [Bool.not_eq_true', Bool.not_eq_false, List.contains_iff_mem, hseen] at hin
        exact hin
      · rw [visible_map, hne]
        exact String.empty_append
    · exact ⟨_, .shown (section_of_seen hseen hne) hsections, (String.join_cons ..).symm⟩

/-! ## The names -/

/-- The bundle of a section. -/
theorem place_of_sections (h : Sections help before bundles sections) {s : Section α}
    (hs : s ∈ sections) :
    ∃ front b after, bundles = front ++ b :: after ∧ s.Of help (before ++ front) b := by
  induction h with
  | nil => cases hs
  | @shown before rest b t sections ht _ ih =>
    rcases List.mem_cons.mp hs with rfl | hs
    · exact ⟨[], b, rest, rfl, by rwa [List.append_nil]⟩
    · obtain ⟨front, c, after, rfl, hc⟩ := ih hs
      exact ⟨b :: front, c, after, rfl, by rwa [List.append_assoc] at hc⟩
  | @hidden before rest b sections _ _ ih =>
    obtain ⟨front, c, after, rfl, hc⟩ := ih hs
    exact ⟨b :: front, c, after, rfl, by rwa [List.append_assoc] at hc⟩

/-- A section shows a name once if its bundle is the first that has it. -/
theorem Section.Of.count {s : Section α} (hs : s.Of help before b) (name : String) :
    (s.shown.map Prod.fst).count name =
      if (∀ q ∈ before, q.get? name = none) ∧ b.get? name ≠ none then 1 else 0 := by
  have hnodup : (s.shown.map Prod.fst).Nodup :=
    hs.sorted.imp fun {x y} (h : x < y) (he : x = y) => String.lt_irrefl y (he ▸ h)
  have hmem : name ∈ s.shown.map Prod.fst ↔
      (∀ q ∈ before, q.get? name = none) ∧ b.get? name ≠ none := by
    rw [List.mem_map, Option.ne_none_iff_exists']
    constructor
    · rintro ⟨⟨name, command⟩, hx, rfl⟩
      obtain ⟨hget, hbefore⟩ := (hs.mem name command).mp hx
      exact ⟨hbefore, command, hget⟩
    · rintro ⟨hbefore, command, hget⟩
      exact ⟨(name, command), (hs.mem _ _).mpr ⟨hget, hbefore⟩, rfl⟩
  rw [hnodup.count]
  simp only [hmem]

/-- How often some sections show a name that a bundle before them has or has not. -/
theorem count_listed (h : Sections help before bundles sections) (name : String) :
    (listed sections).count name =
      if (∀ q ∈ before, q.get? name = none) ∧ ∃ b ∈ bundles, b.get? name ≠ none then 1 else 0 := by
  induction h with
  | nil => simp [listed]
  | @shown before rest b s sections hs _ ih =>
    rw [listed, List.flatMap_cons, List.count_append, hs.count, ← listed, ih]
    by_cases hb : b.get? name = none <;> simp [hb, forall_and, or_imp]
  | @hidden before rest b sections hb _ ih =>
    -- The bundle has no name that those before it have not, so it changes neither side.
    have hsame : ((∀ q ∈ before ++ [b], q.get? name = none) ∧ ∃ c ∈ rest, c.get? name ≠ none) ↔
        (∀ q ∈ before, q.get? name = none) ∧ ∃ c ∈ b :: rest, c.get? name ≠ none := by
      by_cases hnone : b.get? name = none
      · simp [hnone, or_imp, forall_and]
      · obtain ⟨q, hq, hget⟩ := hb name hnone
        exact iff_of_false (fun h => hget (h.1 q (List.mem_append_left _ hq)))
          fun h => hget (h.1 q hq)
    rw [ih]
    simp only [hsame]

theorem Section.Of.text_ne {s : Section α} (hs : s.Of help before b) : s.text ≠ "" := by
  obtain ⟨width, rows, -, -, -, htext⟩ := hs.text
  intro h
  rw [htext, String.append_eq_empty_iff] at h
  exact absurd h.2 (by decide)

/-- The text is empty only if no name is shown. -/
theorem text_eq_empty_iff (h : Sections help before bundles sections) :
    String.join (sections.map (·.text)) = "" ↔ listed sections = [] := by
  induction h with
  | nil => simp [listed]
  | shown hs _ => simp [listed, String.append_eq_empty_iff, hs.text_ne, hs.any]
  | hidden _ _ ih => exact ih

/-- **What a listing shows**, for every list of bundles: it is the text of one section for each
bundle with a name that none before it has, and over all of it each name that can be looked up is
shown once, no other is, and each stands in the section of the bundle it is looked up from, with
what lookup finds there. It is empty only if nothing can be looked up. -/
theorem listing_of_registry (help : α → Help) (r : Registry α) :
    ∃ sections, Sections help [] r.bundles sections ∧
      (r.map help).listing = String.join (sections.map (·.text)) ∧
      (∀ name, (listed sections).count name = if (r.lookup name).isSome then 1 else 0) ∧
      (∀ s ∈ sections, ∃ before b after, r.bundles = before ++ b :: after ∧ s.Of help before b ∧
        ∀ name command, (name, command) ∈ s.shown → r.lookup name = some command) ∧
      ((r.map help).listing = "" ↔ r.isEmpty = true) := by
  have hseen : ∀ name, name ∈ ([] : List String) ↔
      ∃ q ∈ ([] : List (Bundle α)), q.get? name ≠ none := by simp
  obtain ⟨sections, hsections, htext⟩ : ∃ sections, Sections help [] r.bundles sections ∧
    (r.map help).listing = String.join (sections.map (·.text)) := exists_sections hseen
  have hcount (name : String) :
      (listed sections).count name = if (r.lookup name).isSome then 1 else 0 := by
    rw [count_listed hsections]
    simp [lookup, Option.isSome_iff_ne_none]
  refine ⟨sections, hsections, htext, hcount, fun s hs => ?_, ?_⟩
  · obtain ⟨before, b, after, hcut, hof⟩ := place_of_sections hsections hs
    refine ⟨before, b, after, hcut, hof, fun name command hmem => ?_⟩
    obtain ⟨hget, hbefore⟩ := (hof.mem name command).mp hmem
    exact List.findSome?_eq_some_iff.mpr ⟨before, b, after, hcut, hget, hbefore⟩
  · have hnone (name : String) : name ∉ listed sections ↔ r.lookup name = none := by
      rw [← List.count_eq_zero, hcount]
      cases r.lookup name <;> simp
    rw [isEmpty_iff, htext, text_eq_empty_iff hsections, List.eq_nil_iff_forall_not_mem]
    exact forall_congr' hnone

/-- A bundle that shows nothing has no heading. -/
example : (Registry.map (fun summary => ({ summary } : Help)) ⟨[
      Bundle.ofList "Tools" [("run", "Runs."), ("list", "Lists.")],
      Bundle.ofList "Copies" [("run", "Runs again.")],
      Bundle.ofList "More" [("list", "Lists again."), ("quit", "Quits.")]]⟩).listing =
    "=== Tools\n\n  list  Lists.\n  run   Runs.\n\n=== More\n\n  quit  Quits.\n\n" := by
  decide +kernel

end Registry

end CommandConsole
