import CommandConsole.Command.Help
import CommandConsole.Proofs.Text.Lines
import Mathlib.Data.List.TakeWhile

/-!
# Reading the full help back

The full help on a command has three headings, and under each a block that holds a text. A line of a
block is set in by the margin, unless it is the only one and empty; so no line of a text can be taken
for a heading, whatever the text is. `Layout` is the help by its lines, and `readBack` finds the texts
again: it cuts the lines at the headings and takes the margin off.

What comes back of a text has no blanks at its two ends, and a newline for each carriage return and
newline (`plain`). A carriage return that no newline follows stays.

Results: `isTrimmed_trim` (what is left of a text between the blanks at its two ends),
`isBlock_blockOf` (what a block looks like), `unindent_blockOf` (what it holds), `sections_lines` (no
line of a block is a heading). Main statement: `details_read_back`.
-/

namespace CommandConsole

namespace Text

/-- The lines of a text that has a newline at the end of each. -/
def endedLines (text : String) : List String :=
  ((text.toList.splitOn '\n').dropLast).map String.ofList

/-- The text of some lines, with a newline at the end of each. -/
def unlines (lines : List String) : String :=
  String.join (lines.map asLine)

/-- What is left of a text without the blanks at its two ends. -/
structure IsTrimmed (text middle : List Char) : Prop where
  cut : ∃ front back, text = front ++ middle ++ back ∧
    (∀ c ∈ front, isBlank c = true) ∧ ∀ c ∈ back, isBlank c = true
  head : ∀ c, middle.head? = some c → isBlank c = false
  last : ∀ c, middle.getLast? = some c → isBlank c = false

/-- A text without blanks at its two ends, and with plain newlines. -/
def plain (text : String) : String :=
  withoutReturns (String.ofList (trim text.toList))

variable {lines more : List String} {cs : List Char}

theorem unlines_append (lines more : List String) :
    unlines (lines ++ more) = unlines lines ++ unlines more := by
  rw [unlines, List.map_append, String.join_append]
  rfl

theorem toList_unlines (lines : List String) :
    (unlines lines).toList = ['\n'].intercalate (lines.map String.toList ++ [[]]) := by
  induction lines with
  | nil => rfl
  | cons line rest ih =>
    have hne : rest.map String.toList ++ [[]] ≠ [] := by simp
    rw [List.map_cons, List.cons_append, List.intercalate_cons_of_ne_nil hne, ← ih, unlines,
      List.map_cons, String.join_cons, String.toList_append, asLine, String.toList_append]
    rfl

/-- Lines can be told from their text. -/
theorem endedLines_unlines (h : ∀ line ∈ lines, '\n' ∉ line.toList) :
    endedLines (unlines lines) = lines := by
  have hsplit : (unlines lines).toList.splitOn '\n' = lines.map String.toList ++ [[]] := by
    rw [toList_unlines]
    refine List.splitOn_intercalate '\n' (fun cs hcs => ?_) (by simp)
    rcases List.mem_append.mp hcs with hcs | hcs
    · obtain ⟨line, hline, rfl⟩ := List.mem_map.mp hcs
      exact h line hline
    · rw [List.mem_singleton.mp hcs]
      exact List.not_mem_nil
  rw [endedLines, hsplit, List.dropLast_concat, List.map_map]
  exact List.map_id'' (fun _ => String.ofList_toList) lines

/-- What `dropWhile` leaves of some characters begins with one that is no blank. -/
theorem head?_dropWhile_isBlank {c : Char} (h : (cs.dropWhile isBlank).head? = some c) :
    isBlank c = false := by
  have hhead := List.head?_dropWhile_not isBlank cs
  rw [h] at hhead
  exact hhead

theorem isTrimmed_trim (cs : List Char) : IsTrimmed cs (trim cs) := by
  have hblank : ∀ cs : List Char, ∀ c ∈ cs.takeWhile isBlank, isBlank c = true := fun _ _ hc =>
    List.mem_takeWhile_imp hc
  have hleft : cs = cs.takeWhile isBlank ++ trimLeft cs := List.takeWhile_append_dropWhile.symm
  have hright : trimLeft cs = trim cs ++ ((trimLeft cs).reverse.takeWhile isBlank).reverse := by
    rw [trim, trimRight, ← List.reverse_append, List.takeWhile_append_dropWhile,
      List.reverse_reverse]
  refine ⟨⟨cs.takeWhile isBlank, ((trimLeft cs).reverse.takeWhile isBlank).reverse, ?_, hblank cs,
    fun c hc => hblank _ c (List.mem_reverse.mp hc)⟩, fun c hc => ?_, fun c hc => ?_⟩
  · rw [List.append_assoc, ← hright]
    exact hleft
  · -- The text without the blanks at its front begins with no blank.
    have hhead : (trimLeft cs).head? = some c := by
      rw [hright, List.head?_append, hc]
      rfl
    exact head?_dropWhile_isBlank hhead
  · rw [trim, trimRight, List.getLast?_reverse] at hc
    exact head?_dropWhile_isBlank hc

/-- The end of a text without blanks around it is no newline. -/
theorem getLast?_trim (cs : List Char) : (trim cs).getLast? ≠ some '\n' := fun h =>
  absurd ((isTrimmed_trim cs).last _ h) (by decide)

end Text

namespace Help

open Text (asLine endedLines plain unlines)

/-! ## Blocks -/

/-- Whether a line is set in. -/
def isIndented (line : String) : Bool :=
  margin.toList.isPrefixOf line.toList

/-- A line without the margin, if it has one. -/
def outdent (line : String) : String :=
  if isIndented line then String.ofList (line.toList.drop margin.length) else line

/-- The text that a block holds. -/
def unindent (block : List String) : String :=
  "\n".intercalate (block.map outdent)

/-- A block is one empty line, or lines that are all set in. -/
def IsBlock (block : List String) : Prop :=
  block = [""] ∨ block ≠ [] ∧ ∀ line ∈ block, ∃ rest, line = "    " ++ rest

/-- The block of a text. -/
def blockOf (text : String) : List String :=
  match Text.lines (Text.trim text.toList) with
  | [] => [""]
  | lines => lines.map fun line => margin ++ String.ofList line

/-- Whether a line is neither empty nor set in. -/
def isHeading (line : String) : Bool :=
  !line.isEmpty && !isIndented line

variable {block : List String} {line rest : String}

theorem isIndented_append (rest : String) : isIndented (margin ++ rest) = true := by
  rw [isIndented, List.isPrefixOf_iff_prefix, String.toList_append]
  exact List.prefix_append _ _

theorem outdent_append (rest : String) : outdent (margin ++ rest) = rest := by
  rw [outdent, if_pos (isIndented_append rest), String.toList_append]
  exact String.ofList_toList

theorem isHeading_of_mem_block (h : IsBlock block) (hl : line ∈ block) : isHeading line = false := by
  rcases h with rfl | ⟨-, h⟩
  · obtain rfl := List.mem_singleton.mp hl
    rfl
  · obtain ⟨rest, rfl⟩ := h line hl
    have hindented : isIndented ("    " ++ rest) = true := isIndented_append rest
    rw [isHeading, hindented, Bool.not_true, Bool.and_false]

/-- **The block of a text** is one empty line, or lines that are all set in. -/
theorem isBlock_blockOf (text : String) : IsBlock (blockOf text) := by
  unfold blockOf
  split
  · exact .inl rfl
  next lines hne =>
    refine .inr ⟨by simpa using hne, fun line hl => ?_⟩
    obtain ⟨cs, -, rfl⟩ := List.mem_map.mp hl
    exact ⟨String.ofList cs, rfl⟩

theorem not_mem_of_mem_blockOf {text : String} (h : line ∈ blockOf text) : '\n' ∉ line.toList := by
  unfold blockOf at h
  split at h
  · obtain rfl := List.mem_singleton.mp h
    decide
  · obtain ⟨cs, hcs, rfl⟩ := List.mem_map.mp h
    rw [String.toList_append, String.toList_ofList, List.mem_append]
    exact not_or.mpr ⟨by decide, Text.not_mem_of_mem_lines hcs⟩

/-- **What the block of a text holds** is the text without blanks around it and with plain
newlines. -/
theorem unindent_blockOf (text : String) : unindent (blockOf text) = plain text := by
  have hlines := Text.intercalate_lines (Text.getLast?_trim text.toList)
  unfold blockOf
  split
  next hnil =>
    have htrim : Text.trim text.toList = [] := Text.lines_eq_nil_iff.mp hnil
    rw [plain, htrim]
    rfl
  next =>
    have houtdent : (Text.lines (Text.trim text.toList)).map
        (outdent ∘ fun line => margin ++ String.ofList line) =
          (Text.lines (Text.trim text.toList)).map String.ofList :=
      List.map_congr_left fun line _ => outdent_append (String.ofList line)
    rw [unindent, List.map_map, houtdent, ← String.toList_inj, String.toList_intercalate,
      List.map_map, List.map_id'' (f := String.toList ∘ String.ofList) fun _ => String.toList_ofList,
      plain, Text.withoutReturns]
    simp only [String.toList_ofList]
    exact hlines

/-- An indented text is the text of its block, but for the last newline. -/
theorem indent_append_newline (text : String) : indent text ++ "\n" = unlines (blockOf text) := by
  have hjoin : ∀ lines : List String, lines ≠ [] →
      "\n".intercalate lines ++ "\n" = unlines lines := by
    intro lines hne
    rw [← String.toList_inj, Text.toList_unlines, String.toList_append, String.toList_intercalate]
    induction lines with
    | nil => exact absurd rfl hne
    | cons line rest ih =>
      cases rest with
      | nil => simp [List.intercalate]
      | cons next rest =>
        rw [List.map_cons, List.map_cons, List.intercalate_cons_cons, List.append_assoc, ← List.map_cons,
          ih (by simp)]
        simp [List.intercalate_cons_cons]
  unfold indent blockOf
  split
  next hnil =>
    simp only [hnil]
    rfl
  next hne => exact hjoin _ (by simpa using hne)

/-! ## The whole help -/

/-- The full help by its blocks. -/
structure Layout where
  summary : List String
  usage : List String
  detail : List String

/-- The lines of the full help. -/
def Layout.lines (l : Layout) : List String :=
  "Summary:" :: l.summary ++ "Usage:" :: l.usage ++ "Description:" :: l.detail

/-- The headings of some lines, each with the lines up to the next one. -/
def sections : List String → List (String × List String)
  | [] => []
  | line :: rest =>
    if isHeading line then (line, rest.takeWhile (!isHeading ·)) :: sections rest
    else sections rest

/-- The texts of a full help, each with its heading. -/
def readBack (text : String) : List (String × String) :=
  (sections (endedLines text)).map fun (heading, block) => (heading, unindent block)

/-- The layout of the help on a command. -/
def layout (h : Help) (name : String) : Layout where
  summary := blockOf h.summary
  usage := blockOf (h.usage.elim name fun arguments => name ++ " " ++ arguments)
  detail := blockOf h.detail

theorem details_eq (h : Help) (name : String) : h.details name = unlines (h.layout name).lines := by
  have hheading : ∀ (heading : String) (block : List String),
      unlines (heading :: block) = heading ++ "\n" ++ unlines block := fun _ _ => String.join_cons
  have hdetails : h.details name = "Summary:\n" ++ indent h.summary ++ "\nUsage:\n" ++
      indent (h.usage.elim name fun arguments => name ++ " " ++ arguments) ++
        "\nDescription:\n" ++ indent h.detail ++ "\n" := by
    unfold details
    cases h.usage <;> rfl
  rw [Layout.lines, Text.unlines_append, Text.unlines_append, hheading, hheading, hheading, hdetails]
  simp only [layout, ← indent_append_newline, String.append_assoc]
  rfl

theorem sections_of_block (hb : IsBlock block) (more : List String) :
    sections (block ++ more) = sections more := by
  have h : ∀ line ∈ block, isHeading line = false := fun line hl => isHeading_of_mem_block hb hl
  clear hb
  induction block with
  | nil => rfl
  | cons line rest ih =>
    obtain ⟨hline, hrest⟩ := List.forall_mem_cons.mp h
    rw [List.cons_append, sections, hline]
    exact ih hrest

/-- The lines of a block are all that is under its heading. -/
theorem sections_heading {heading : String} {more : List String} (hh : isHeading heading = true)
    (hb : IsBlock block) (hmore : ∀ line ∈ more.head?, isHeading line = true) :
    sections (heading :: (block ++ more)) = (heading, block) :: sections more := by
  have hblock : ∀ line ∈ block, (!isHeading line) = true := fun line hl => by
    rw [isHeading_of_mem_block hb hl]
    rfl
  have hnext : more.takeWhile (!isHeading ·) = [] := by
    cases more with
    | nil => rfl
    | cons line rest =>
      have hline := hmore line rfl
      rw [List.takeWhile_cons_of_neg (by simp [hline])]
  rw [sections, if_pos hh, List.takeWhile_append_of_pos hblock, hnext, List.append_nil,
    sections_of_block hb]

/-- **The lines of a layout** fall into its three blocks, each under its heading. -/
theorem sections_lines {l : Layout} (hs : IsBlock l.summary) (hu : IsBlock l.usage)
    (hd : IsBlock l.detail) : sections l.lines =
      [("Summary:", l.summary), ("Usage:", l.usage), ("Description:", l.detail)] := by
  have hlast : sections ("Description:" :: l.detail) = [("Description:", l.detail)] := by
    have hsection : sections ("Description:" :: (l.detail ++ [])) =
        ("Description:", l.detail) :: sections [] := sections_heading (by decide) hd (by simp)
    rwa [List.append_nil] at hsection
  rw [Layout.lines, List.append_assoc, List.cons_append, List.cons_append,
    sections_heading (by decide) hs (by simp; decide), sections_heading (by decide) hu (by simp; decide),
    hlast]

theorem filter_lines {l : Layout} (hs : IsBlock l.summary) (hu : IsBlock l.usage)
    (hd : IsBlock l.detail) :
    l.lines.filter isHeading = ["Summary:", "Usage:", "Description:"] := by
  have hnone : ∀ block, IsBlock block → block.filter isHeading = [] := by
    intro block hb
    rw [List.filter_eq_nil_iff]
    intro line hl
    rw [isHeading_of_mem_block hb hl]
    exact Bool.false_ne_true
  rw [Layout.lines, List.filter_append, List.filter_append,
    List.filter_cons_of_pos (by decide), List.filter_cons_of_pos (by decide),
    List.filter_cons_of_pos (by decide), hnone _ hs, hnone _ hu, hnone _ hd]
  rfl

theorem not_mem_of_mem_layout {h : Help} {name : String} (hl : line ∈ (h.layout name).lines) :
    '\n' ∉ line.toList := by
  simp only [Layout.lines, layout, List.mem_append, List.mem_cons] at hl
  rcases hl with ((rfl | hl) | (rfl | hl)) | (rfl | hl)
  · decide
  · exact not_mem_of_mem_blockOf hl
  · decide
  · exact not_mem_of_mem_blockOf hl
  · decide
  · exact not_mem_of_mem_blockOf hl

theorem isBlock_layout (h : Help) (name : String) : IsBlock (h.layout name).summary ∧
    IsBlock (h.layout name).usage ∧ IsBlock (h.layout name).detail := by
  simp only [layout]
  exact ⟨isBlock_blockOf _, isBlock_blockOf _, isBlock_blockOf _⟩

/-- The blocks of a layout hold the texts. -/
theorem unindent_layout (h : Help) (name : String) :
    unindent (h.layout name).summary = plain h.summary ∧
    unindent (h.layout name).usage =
      plain (h.usage.elim name fun arguments => name ++ " " ++ arguments) ∧
    unindent (h.layout name).detail = plain h.detail := by
  simp only [layout]
  exact ⟨unindent_blockOf _, unindent_blockOf _, unindent_blockOf _⟩

/-- The texts of a full help come back from it. -/
theorem readBack_details (h : Help) (name : String) : readBack (h.details name) =
    [("Summary:", plain h.summary),
      ("Usage:", plain (h.usage.elim name fun arguments => name ++ " " ++ arguments)),
      ("Description:", plain h.detail)] := by
  obtain ⟨hs, hu, hd⟩ := isBlock_layout h name
  obtain ⟨hsummary, husage, hdetail⟩ := unindent_layout h name
  rw [readBack, details_eq, Text.endedLines_unlines fun line hl => not_mem_of_mem_layout hl,
    sections_lines hs hu hd]
  simp only [List.map_cons, List.map_nil, hsummary, husage, hdetail]

/-- **The full help on a command can be read back.** It consists of three headings, each with a block
under it that is one empty line or lines that are all set in, so the headings are the only lines that
are neither empty nor set in. Each block holds its text: without the margin its lines, joined by
newlines, are the summary, the name with the arguments behind it if there are any, and the longer
text, without blanks around them and with plain newlines. So two commands with the same full help
have the same three texts but for blanks around them and the way their lines end. -/
theorem details_read_back :
    (∀ text, ∃ middle, Text.IsTrimmed text.toList middle ∧
      plain text = Text.withoutReturns (String.ofList middle)) ∧
    (∀ (h : Help) (name : String), ∃ l : Layout, h.details name = unlines l.lines ∧
      (∀ line ∈ l.lines, '\n' ∉ line.toList) ∧
      IsBlock l.summary ∧ IsBlock l.usage ∧ IsBlock l.detail ∧
      l.lines.filter isHeading = ["Summary:", "Usage:", "Description:"] ∧
      unindent l.summary = plain h.summary ∧
      unindent l.usage = plain (h.usage.elim name fun arguments => name ++ " " ++ arguments) ∧
      unindent l.detail = plain h.detail) ∧
    (∀ (h : Help) (name : String), readBack (h.details name) =
      [("Summary:", plain h.summary),
        ("Usage:", plain (h.usage.elim name fun arguments => name ++ " " ++ arguments)),
        ("Description:", plain h.detail)]) ∧
    ∀ (h h' : Help) (name name' : String), h.details name = h'.details name' →
      plain h.summary = plain h'.summary ∧
      plain (h.usage.elim name fun arguments => name ++ " " ++ arguments) =
        plain (h'.usage.elim name' fun arguments => name' ++ " " ++ arguments) ∧
      plain h.detail = plain h'.detail := by
  refine ⟨fun text => ⟨_, Text.isTrimmed_trim text.toList, rfl⟩, fun h name => ?_, readBack_details,
    fun h h' name name' he => ?_⟩
  · obtain ⟨hs, hu, hd⟩ := isBlock_layout h name
    exact ⟨h.layout name, details_eq h name, fun line hl => not_mem_of_mem_layout hl, hs, hu, hd,
      filter_lines hs hu hd, unindent_layout h name⟩
  · have hback := readBack_details h name
    rw [he, readBack_details h' name'] at hback
    simp only [List.cons.injEq, Prod.mk.injEq, true_and, and_true] at hback
    exact ⟨hback.1.symm, hback.2.1.symm, hback.2.2.symm⟩

/-- Texts with blanks around them, and with carriage returns. -/
def spaced : Help :=
  { usage := some "now\t", summary := " Stops.\n", detail := "one\r\n\r\ntwo\t" }

/-- The same texts without. -/
def tidy : Help :=
  { usage := some "now", summary := "Stops.", detail := "one\n\ntwo" }

/-- The two have the same full help, from which the texts without blanks around them come back, and
so the same texts but for that. -/
theorem same_spaced :
    readBack (spaced.details "stop") =
      [("Summary:", "Stops."), ("Usage:", "stop now"), ("Description:", "one\n\ntwo")] ∧
    spaced.details "stop" = tidy.details "stop" ∧
    plain spaced.detail = plain tidy.detail ∧ spaced.detail ≠ tidy.detail := by
  obtain ⟨-, -, hback, hdetails⟩ := details_read_back
  have hsame : spaced.details "stop" = tidy.details "stop" := by decide +kernel
  obtain ⟨-, -, hdetail⟩ := hdetails spaced tidy "stop" "stop" hsame
  refine ⟨(hback spaced "stop").trans ?_, hsame, hdetail, by decide⟩
  decide +kernel

end Help

end CommandConsole
