import CalcApp.Screen
import CalcApp.Proofs.Listing

namespace CalcApp

namespace Text

def Stacked (block : List Text) : Prop :=
  block ≠ [] ∧ ∀ line ∈ block, blank line = false ∧ '\n' ∉ line

theorem shown_ended {lines : List Text} (shown : ∀ line ∈ lines, blank line = false) :
    ∀ line ∈ lines.map (· ++ ['\n']), (!blank line) = true := by
  intro line member
  obtain ⟨piece, listed, rfl⟩ := List.mem_map.mp member
  have visible := shown piece listed
  rw [blank] at visible
  rw [blank, List.all_append, visible, Bool.false_and, Bool.not_false]

end Text

namespace Screen

open Text (Stacked)

theorem sections_last {block : List Text} (stacked : Stacked block) :
    sections (Text.join ['\n'] block) = [Text.trim (Text.join ['\n'] block)] := by
  obtain ⟨pieces, last, rfl⟩ : ∃ pieces last, block = pieces ++ [last] :=
    ⟨block.dropLast, block.getLast stacked.1, (List.dropLast_append_getLast stacked.1).symm⟩
  have shown : last ≠ [] := by
    intro empty
    have visible := (stacked.2 last (by simp)).1
    rw [empty] at visible
    cases visible
  have cut := Text.fullLines_join shown fun line member => (stacked.2 line member).2
  have all : ∀ line ∈ Text.fullLines (Text.join ['\n'] (pieces ++ [last])),
      (!Text.blank line) = true := by
    intro line member
    rw [cut, List.mem_append, List.mem_singleton] at member
    rcases member with ended | rfl
    · exact Text.shown_ended (fun piece listed => (stacked.2 piece (by simp [listed])).1) line ended
    · rw [(stacked.2 line (by simp)).1, Bool.not_false]
  have some : Text.fullLines (Text.join ['\n'] (pieces ++ [last])) ≠ [] := by
    rw [cut]
    exact List.append_ne_nil_of_right_ne_nil _ (List.cons_ne_nil _ _)
  rw [sections, Text.paragraphs, runs_of_all some all, List.map_singleton, Text.flatten_fullLines]

theorem sections_append {block : List Text} (stacked : Stacked block) (rest : Text) :
    sections (Text.join ['\n'] block ++ '\n' :: '\n' :: rest) =
      Text.trim (Text.join ['\n'] block) :: sections rest := by
  have whole : ∀ line ∈ block, '\n' ∉ line := fun line member => (stacked.2 line member).2
  have all := Text.shown_ended fun line member => (stacked.2 line member).1
  have joined : (block.map (· ++ ['\n'])).flatten = Text.join ['\n'] block ++ ['\n'] := by
    have cut := Text.fullLines_block stacked.1 whole []
    rw [Text.fullLines, List.append_nil] at cut
    rw [← cut, Text.flatten_fullLines]
  have gap : Text.fullLines ('\n' :: rest) = ['\n'] :: Text.fullLines rest := by rw [Text.fullLines]
  rw [sections, Text.fullLines_block stacked.1 whole, gap, Text.paragraphs,
    runs_append (by simpa using stacked.1) all (by decide), List.map_cons, joined,
    Text.trim_append_blank (by decide)]
  rfl

/-- Blocks of lines that are written with blank lines between them are the sections of the text. -/
theorem sections_join {blocks : List (List Text)} (stacked : ∀ block ∈ blocks, Stacked block) :
    sections (Text.join ['\n', '\n'] (blocks.map (Text.join ['\n']))) =
      blocks.map fun block => Text.trim (Text.join ['\n'] block) := by
  induction blocks with
  | nil => rfl
  | cons block rest ih =>
      have here := stacked block (by simp)
      have later := ih fun other member => stacked other (by simp [member])
      by_cases last : rest = []
      · subst last
        rw [List.map_singleton, Text.join_singleton, sections_last here, List.map_singleton]
      · have split : Text.join ['\n', '\n'] ((block :: rest).map (Text.join ['\n'])) =
            Text.join ['\n'] block ++
              '\n' :: '\n' :: Text.join ['\n', '\n'] (rest.map (Text.join ['\n'])) := by
          rw [List.map_cons, Text.join_cons _ _ (by simpa using last), List.append_assoc]
          rfl
        rw [split, sections_append here, later, List.map_cons]

end Screen

namespace Instruction

def Closed (instruction : Instruction) : Prop :=
  ∃ text last, instruction.line = text ++ [last] ∧ Text.isBlank last = false

theorem closed_goto (label : Label) : (goto label).Closed := by
  obtain ⟨first, second, text, _, high, _⟩ := Label.text_eq label
  obtain ⟨_, _, visible, _⟩ := Label.letter_of_lt second high
  refine ⟨":Goto ".toList ++ [Label.letter first], Label.letter second, ?_, visible⟩
  show ":Goto ".toList ++ label.text = _
  simp [text]

theorem closed_menu (title : Text) (written : List Choice) : (menu title written).Closed :=
  ⟨":Menu(".toList ++ Text.join [','] (menuParts title written), ')', rfl, by decide⟩

end Instruction

namespace Page

theorem instructions_closed (exit : Label) (linesPerScreen : Nat) (page : Page) :
    ∃ front last, page.instructions exit linesPerScreen = front ++ [last] ∧ last.Closed := by
  cases page with
  | menu title entries parent => exact ⟨[.clear], _, rfl, Instruction.closed_menu _ _⟩
  | note items parent =>
      refine ⟨.clear :: showItems linesPerScreen 0 items ++ [.pause], .goto parent, ?_,
        Instruction.closed_goto parent⟩
      rw [instructions, List.append_assoc]
      rfl
  | code lines parent => exact ⟨codeSteps lines, _, rfl, Instruction.closed_goto parent⟩
  | quit => exact ⟨[], .stop, rfl, ":Sto".toList, 'p', rfl, by decide⟩

end Page

namespace Program

theorem block_eq (program : Program) (label : Label) (page : Page) :
    program.block label page = (Instruction.define label).line ++ '\n' ::
      Text.join ['\n'] (page.writtenLines program.quit program.linesPerScreen) := by
  have more := page.writtenLines_ne_nil program.quit program.linesPerScreen
  show Text.join ['\n'] ((Instruction.define label).line ::
    page.writtenLines program.quit program.linesPerScreen) = _
  rw [Text.join_cons _ _ more, List.append_assoc, List.singleton_append]

theorem lines_block {program : Program} (label : Label) {page : Page}
    (unbroken : page.Unbroken program.quit program.linesPerScreen) :
    Text.lines (program.block label page) = (Instruction.define label).line ::
      page.writtenLines program.quit program.linesPerScreen := by
  have first : Text.OneLine (Instruction.define label).line :=
    Instruction.oneLine_line (by simp [Instruction.texts])
  have plain : ∀ line ∈ page.writtenLines program.quit program.linesPerScreen,
      Text.OneLine line := by
    intro line member
    obtain ⟨instruction, held, rfl⟩ := List.mem_map.mp member
    exact Instruction.oneLine_line (unbroken instruction held)
  obtain ⟨front, final, steps, _⟩ := page.instructions_closed program.quit program.linesPerScreen
  have written : page.writtenLines program.quit program.linesPerScreen =
      front.map Instruction.line ++ [final.line] := by
    rw [Page.writtenLines, steps, List.map_append, List.map_singleton]
  have shown : final.line ≠ [] := by
    intro empty
    have visible := Instruction.blank_line final
    rw [empty] at visible
    cases visible
  rw [block_eq, Text.lines_append first]
  rw [written] at plain ⊢
  rw [Text.lines_join shown (plain _ (by simp)).1 fun line member => plain line (by simp [member])]

theorem trim_block (program : Program) (label : Label) (page : Page) :
    Text.trim (program.block label page) = program.block label page := by
  obtain ⟨front, last, steps, text, final, closed, visible⟩ :=
    page.instructions_closed program.quit program.linesPerScreen
  obtain ⟨before, stop⟩ : ∃ before,
      Text.join ['\n'] (page.writtenLines program.quit program.linesPerScreen) = before ++ [final] := by
    rw [Page.writtenLines, steps, List.map_append, List.map_singleton, closed]
    by_cases alone : front = []
    · subst alone
      exact ⟨text, by simp⟩
    · rw [Text.join_append _ (by simpa using alone) (by simp), Text.join_singleton,
        ← List.append_assoc]
      exact ⟨_, rfl⟩
  have ends : program.block label page =
      'L' :: ("bl ".toList ++ label.text ++ '\n' :: before) ++ [final] := by
    rw [block_eq, stop]
    show ('L' :: "bl ".toList ++ label.text) ++ _ = _
    simp
  rw [ends, Text.trim_of_ends (by decide) visible]

def blocks (program : Program) : List Text :=
  program.pages.map fun page => program.block page.1 page.2

def Spaced (program : Program) (page : Page) : Prop :=
  page.AllTexts ('\n' ∉ ·) program.quit program.linesPerScreen

theorem sections_render {program : Program}
    (spaced : ∀ page ∈ program.pages, program.Spaced page.2) :
    Screen.sections program.render = program.blocks := by
  -- a block as its lines, so that the text is two joins
  let written := program.pages.map fun page =>
    (Instruction.define page.1).line :: page.2.writtenLines program.quit program.linesPerScreen
  have text : program.render = Text.join ['\n', '\n'] (written.map (Text.join ['\n'])) := by
    rw [render, List.map_map]
    rfl
  have stacked : ∀ block ∈ written, Text.Stacked block := by
    intro block member
    obtain ⟨page, listed, rfl⟩ := List.mem_map.mp member
    constructor
    · exact List.cons_ne_nil _ _
    · intro line inside
      rcases List.mem_cons.mp inside with rfl | inside
      · exact ⟨Instruction.blank_line _,
          Instruction.not_mem_line (.inl rfl) (by simp [Instruction.texts])⟩
      · obtain ⟨instruction, held, rfl⟩ := List.mem_map.mp inside
        exact ⟨Instruction.blank_line _,
          Instruction.not_mem_line (.inl rfl) (spaced page listed instruction held)⟩
  rw [text, Screen.sections_join stacked, List.map_map]
  apply List.map_congr_left
  intro page _
  exact trim_block program page.1 page.2

end Program

namespace Screen

theorem label?_block (program : Program) (label : Label) (page : Page) :
    label? (program.block label page) = some label := by
  have plain : Text.OneLine (Instruction.define label).line :=
    Instruction.oneLine_line (by simp [Instruction.texts])
  have read : Instruction.ofLine (Instruction.define label).line = .define label :=
    Instruction.ofLine_line trivial
  rw [label?, Program.block_eq, Text.lines_append plain, List.head?_cons, Option.map_some, read]

theorem findIn_blocks (program : Program) (pages : List (Label × Page)) (label : Label) :
    findIn (pages.map fun page => program.block page.1 page.2) label =
      (pages.lookup label).map (program.block label) := by
  induction pages with
  | nil => rfl
  | cons page rest ih =>
      obtain ⟨known, shown⟩ := page
      have here := label?_block program known shown
      rw [findIn] at ih
      rw [List.map_cons, findIn, List.find?_cons, here, List.lookup_cons]
      by_cases same : label = known
      · subst same
        simp
      · have other : (label == known) = false := by simpa using same
        have apart : ¬ some known = some label := fun equal => same (Option.some.inj equal).symm
        rw [other, decide_eq_false apart]
        exact ih

theorem menu?_block (program : Program) (label : Label) {title : Text} {entries : List Choice}
    {parent : Option Label} (heading : '"' ∉ title) (names : ∀ entry ∈ entries, '"' ∉ entry.name)
    (spaced : program.Spaced (.menu title entries parent)) :
    menu? (program.block label (.menu title entries parent)) =
      some ⟨title, entries ++ [Page.wayOut program.quit parent]⟩ := by
  have first : Text.OneLine (Instruction.define label).line :=
    Instruction.oneLine_line (by simp [Instruction.texts])
  have second : Text.OneLine Instruction.clear.line := by decide
  have whole : '\n' ∉ (Instruction.menu title (entries ++ [Page.wayOut program.quit parent])).line :=
    Instruction.not_mem_line (.inl rfl) (spaced _ (by simp [Page.instructions]))
  have quotable : ∀ entry ∈ entries ++ [Page.wayOut program.quit parent], '"' ∉ entry.name := by
    intro entry member
    rcases List.mem_append.mp member with listed | out
    · exact names entry listed
    · cases List.mem_singleton.mp out
      cases parent <;> simp [Page.wayOut]
  have shown : (Instruction.menu title (entries ++ [Page.wayOut program.quit parent])).line ≠ [] := by
    intro empty
    have visible := Instruction.blank_line
      (.menu title (entries ++ [Page.wayOut program.quit parent]))
    rw [empty] at visible
    cases visible
  have lines : Text.lines (program.block label (.menu title entries parent)) =
      [(Instruction.define label).line, Instruction.clear.line,
        (Instruction.menu title (entries ++ [Page.wayOut program.quit parent])).line] := by
    rw [Program.block_eq, Text.lines_append first]
    show _ :: Text.lines (Text.join ['\n'] ([Instruction.clear.line] ++ [_])) = _
    rw [Text.lines_join shown whole (by simpa using second)]
    rfl
  have define : Instruction.ofLine (Instruction.define label).line = .define label :=
    Instruction.ofLine_line trivial
  have clear : Instruction.ofLine Instruction.clear.line = .clear := Instruction.ofLine_line trivial
  have call : Instruction.ofLine
      (Instruction.menu title (entries ++ [Page.wayOut program.quit parent])).line =
      .menu title (entries ++ [Page.wayOut program.quit parent]) :=
    Instruction.ofLine_line ⟨heading, quotable⟩
  simp only [menu?, lines, List.findSome?_cons, define, clear, call, menuOf?]

end Screen

end CalcApp
