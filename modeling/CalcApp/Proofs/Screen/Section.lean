import CalcApp.Proofs.Note.Screenful
import CalcApp.Proofs.Screen.Label

namespace CalcApp

theorem Page.showItems_lines (linesPerScreen visible : Nat) (lines : List Text)
    (rest : List Note.Item) :
    showItems linesPerScreen visible (.lines lines :: rest) =
      (showLines linesPerScreen visible lines).1 ++
        showItems linesPerScreen (showLines linesPerScreen visible lines).2 rest := rfl

namespace Screen

/-- The line at a place of its group needs a new screen: the lines before it have filled the last
one. A screen without lines is always full. -/
def NeedsScreen (linesPerScreen place : Nat) : Prop :=
  linesPerScreen = 0 ∨ place ≠ 0 ∧ linesPerScreen ∣ place

instance (linesPerScreen place : Nat) : Decidable (NeedsScreen linesPerScreen place) :=
  inferInstanceAs (Decidable (_ ∨ _))

def lineItems (linesPerScreen : Nat) (line : Text × Nat) : List Item :=
  if NeedsScreen linesPerScreen line.2 then [.pause, .text line.1] else [.text line.1]

/-- What an item of a note shows: its lines, with a pause in front of each that needs a new screen,
or the break that it asks for. -/
def itemsOf (linesPerScreen : Nat) : Note.Item → List Item
  | .lines lines => lines.zipIdx.flatMap (lineItems linesPerScreen)
  | .pause => [.pause]
  | .hardBreak => [.pauseAndClear]

def pageItems (linesPerScreen : Nat) (items : List Note.Item) : List Item :=
  items.flatMap (itemsOf linesPerScreen) ++ [.pause]

theorem clear_not_mem_pageItems (linesPerScreen : Nat) (items : List Note.Item) :
    Item.clear ∉ pageItems linesPerScreen items := by
  intro member
  rcases List.mem_append.mp member with inside | last
  · obtain ⟨item, _, held⟩ := List.mem_flatMap.mp inside
    cases item with
    | lines lines =>
        obtain ⟨line, _, shown⟩ := List.mem_flatMap.mp held
        rw [lineItems] at shown
        split at shown <;> simp at shown
    | pause => cases List.mem_singleton.mp held
    | hardBreak => cases List.mem_singleton.mp held
  · cases List.mem_singleton.mp last

def Stands (linesPerScreen place visible : Nat) : Prop :=
  linesPerScreen = 0 ∨ ∃ full, place = full * linesPerScreen + visible ∧
    visible ≤ linesPerScreen ∧ (visible = 0 → full = 0)

namespace Stands

variable {linesPerScreen place visible : Nat}

theorem start (linesPerScreen : Nat) : Stands linesPerScreen 0 0 :=
  .inr ⟨0, by omega, Nat.zero_le _, fun _ => rfl⟩

theorem needsScreen_iff (stands : Stands linesPerScreen place visible) :
    NeedsScreen linesPerScreen place ↔ linesPerScreen ≤ visible := by
  rcases stands with rfl | ⟨full, rfl, bound, begun⟩
  · exact ⟨fun _ => Nat.zero_le _, fun _ => .inl rfl⟩
  · constructor
    · rintro (rfl | ⟨some, divides⟩)
      · exact Nat.zero_le _
      · by_contra room
        have rest : linesPerScreen ∣ visible :=
          (Nat.dvd_add_right (Nat.dvd_mul_left _ _)).mp divides
        have none : visible = 0 := Nat.eq_zero_of_dvd_of_lt rest (by omega)
        exact some (by rw [none, begun none, Nat.zero_mul])
    · intro filled
      by_cases flat : linesPerScreen = 0
      · exact .inl flat
      · have same : visible = linesPerScreen := Nat.le_antisymm bound filled
        refine .inr ⟨by omega, ?_⟩
        rw [same]
        exact Nat.dvd_add (Nat.dvd_mul_left _ _) (Nat.dvd_refl _)

theorem next (stands : Stands linesPerScreen place visible) :
    Stands linesPerScreen (place + 1) (if linesPerScreen ≤ visible then 1 else visible + 1) := by
  rcases stands with flat | ⟨full, rfl, bound, begun⟩
  · exact .inl flat
  · by_cases flat : linesPerScreen = 0
    · exact .inl flat
    · right
      split
      · have same : visible = linesPerScreen := by omega
        exact ⟨full + 1, by rw [same, Nat.succ_mul], by omega, by omega⟩
      · exact ⟨full, by omega, by omega, by omega⟩

end Stands

theorem items_pause {rest : List Instruction} (kept : rest.head? ≠ some .clear) :
    items (.pause :: rest) = .pause :: items rest := by
  rw [items]
  rintro following rfl
  exact kept rfl

theorem items_showLines {linesPerScreen place visible : Nat}
    (stands : Stands linesPerScreen place visible) (lines : List Text) (rest : List Instruction) :
    items ((Page.showLines linesPerScreen visible lines).1 ++ rest) =
      (lines.zipIdx place).flatMap (lineItems linesPerScreen) ++ items rest := by
  induction lines generalizing place visible with
  | nil => rfl
  | cons line others ih =>
      have later := ih stands.next
      rw [Page.showLines, List.zipIdx_cons, List.flatMap_cons, lineItems]
      by_cases full : linesPerScreen ≤ visible
      · rw [if_pos full] at later
        rw [if_pos full, if_pos (stands.needsScreen_iff.mpr full)]
        show items (.pause :: .display line :: (_ ++ rest)) = _
        rw [items_pause (by simp), items, later]
        rfl
      · rw [if_neg full] at later
        rw [if_neg full, if_neg fun needed => full (stands.needsScreen_iff.mp needed)]
        show items (.display line :: (_ ++ rest)) = _
        rw [items, later]
        rfl

/-- Showing a note and reading what is shown gives the items that its lines and breaks ask for. -/
theorem items_showItems (linesPerScreen : Nat) (sheets : Note.Sheets) (parent : Label) :
    items (Page.showItems linesPerScreen 0 sheets.items ++ [.pause, .goto parent]) =
      pageItems linesPerScreen sheets.items := by
  induction sheets with
  | one lines =>
      rw [Note.Sheets.items, Page.showItems_lines, Page.showItems, List.append_nil,
        items_showLines (.start linesPerScreen), pageItems, List.flatMap_singleton, itemsOf]
      rfl
  | cons lines clears rest ih =>
      have kept : (Page.showItems linesPerScreen 0 (Note.Sheets.items rest) ++
          [Instruction.pause, .goto parent]).head? ≠ some .clear := by
        rw [Note.Sheets.showItems_eq]
        exact Note.Sheets.steps_head _ parent
      rw [Note.Sheets.items, Page.showItems_lines, List.append_assoc,
        items_showLines (.start linesPerScreen), pageItems, List.flatMap_cons, List.flatMap_cons,
        itemsOf, List.append_assoc, List.append_assoc, ← pageItems, ← ih]
      congr 1
      cases clears with
      | true => rfl
      | false => exact items_pause kept

theorem noteItems_block {program : Program} {settings : Settings}
    (same : program.linesPerScreen = settings.linesPerScreen) (label parent : Label)
    (content : Text) :
    noteItems (program.block label (.note (Note.paginate content settings.charsPerLine) parent)) =
      pageItems settings.linesPerScreen (Note.paginate content settings.charsPerLine) := by
  rw [noteItems, Page.read_note settings same]
  show items (Page.noteSteps settings content parent) = _
  rw [Page.noteSteps, ← Note.showItems_paginate, Note.paginate_eq, items_showItems]

end Screen

namespace Program

variable {settings : Settings} {root : Node} {program : Program}

theorem compile_spaced (compiled : (compile settings root).result = .ok program)
    (titled : ∀ node ∈ root.nodes, '\n' ∉ node.title) :
    ∀ page ∈ program.pages, program.Spaced page.2 := by
  obtain ⟨id, title, children, rfl, _, rfl⟩ := compile_ok compiled
  have heading : '\n' ∉ title := titled _ (Node.mem_nodes_self _)
  have below : ∀ other ∈ (Node.keptIn 8 children).flatMap Node.nodes, '\n' ∉ other.title := by
    intro other member
    obtain ⟨original, listed, rfl⟩ := Node.mem_nodes_keptIn 8 children member
    rw [Node.kept_title]
    exact titled original (Node.mem_nodes_of_below listed)
  exact ofTree_allTexts settings (fun _ whole => whole.1) heading below

theorem compile_note {label parent : Label} {items : List Note.Item}
    (compiled : (compile settings root).result = .ok program)
    (member : (label, .note items parent) ∈ program.pages) :
    ∃ content, items = Note.paginate content settings.charsPerLine := by
  obtain ⟨id, title, children, _, _, rfl⟩ := compile_ok compiled
  rcases List.mem_cons.mp member with first | member
  · cases first
  · rcases List.mem_cons.mp member with second | member
    · cases second
    · obtain ⟨node, above, index, _, same⟩ := mem_pagesIn _ _ _ member
      cases node with
      | menu id title below => cases same
      | note id title content =>
          cases same
          exact ⟨content, rfl⟩
      | code id title content => cases same

end Program

namespace Screen

/-- The preview reads back what was generated. The section of a label is the text of its page, if it
has one, and the items that are read of a note are those that its lines and breaks ask for. -/
theorem reads_generated (outline : Outline) (text : Text)
    (titled : ∀ node ∈ outline.root.nodes, '\n' ∉ node.title)
    (generated : outline.generate = .ok text) :
    ∃ program, outline.compile.result = .ok program ∧ program.render = text ∧
      (∀ label, findSection text label = (program.page? label).map (program.block label)) ∧
      ∀ label items parent, program.page? label = some (.note items parent) →
        ∃ code, findSection text label = some code ∧
          noteItems code = pageItems outline.settings.linesPerScreen items ∧
          Item.clear ∉ noteItems code := by
  obtain ⟨program, compiled, rfl⟩ := Outcome.map_eq_ok generated
  have found : ∀ label, findSection program.render label =
      (program.page? label).map (program.block label) := by
    intro label
    rw [findSection, Program.sections_render (Program.compile_spaced compiled titled),
      Program.blocks, findIn_blocks]
    rfl
  have lines : program.linesPerScreen = outline.settings.linesPerScreen := by
    obtain ⟨_, _, _, _, _, rfl⟩ := Program.compile_ok compiled
    rfl
  refine ⟨program, compiled, rfl, found, ?_⟩
  intro label items parent held
  obtain ⟨content, rfl⟩ := Program.compile_note compiled (Program.mem_of_page? held)
  have shown := noteItems_block lines label parent content
  refine ⟨_, by rw [found, held, Option.map_some], shown, ?_⟩
  rw [shown]
  exact clear_not_mem_pageItems _ _

def smallScreen : Outline :=
  ⟨{ charsPerLine := 5, linesPerScreen := 2 }, .menu "top".toList "A \"B\"\r".toList
    [.note "n".toList "\"".toList "one two\nLbl\r\n\"\n\nfive \n\n\n\nsix".toList,
      .code "c".toList [] "Lbl AC\n\n:Disp \"no\"\r \rStop".toList], 1⟩

theorem reads_generated_smallScreen :
    (∀ node ∈ smallScreen.root.nodes, '\n' ∉ node.title) ∧
      ∃ text code, smallScreen.generate = .ok text ∧
        findSection text (Program.labelOf 2) = some code ∧
        noteItems code =
          [.text "one".toList, .text "two".toList, .pause, .text "Lbl".toList,
            .text "\"".toList, .pause, .text "five ".toList, .pauseAndClear, .text "six".toList,
            .pause] ∧
        findSection text (Program.labelOf 4) = none := by
  have titled : ∀ node ∈ smallScreen.root.nodes, '\n' ∉ node.title := by decide +kernel
  obtain ⟨text, generated⟩ : ∃ text, smallScreen.generate = .ok text := by
    rw [Outline.generate, Outline.compile, smallScreen, Program.compile_menu,
      if_pos (by decide +kernel)]
    exact ⟨_, rfl⟩
  obtain ⟨program, compiled, _, found, notes⟩ :=
    reads_generated smallScreen text titled generated
  have held : smallScreen.compile.result.toOption.map
      (fun program => (program.page? (Program.labelOf 2), program.page? (Program.labelOf 4))) =
      some (some (.note [.lines ["one".toList, "two".toList, "Lbl".toList, "\"".toList], .pause,
        .lines ["five ".toList], .hardBreak, .lines ["six".toList]] (Program.labelOf 0)), none) := by
    decide +kernel
  rw [compiled] at held
  obtain ⟨note, absent⟩ := Prod.mk.inj (Option.some.inj held)
  obtain ⟨code, located, shown, _⟩ := notes _ _ _ note
  refine ⟨titled, text, code, generated, located, ?_, ?_⟩
  · rw [shown]
    decide +kernel
  · rw [found, absent, Option.map_none]

end Screen

end CalcApp
