import CalcApp.Proofs.Block
import CalcApp.Proofs.Listing.Labelled

namespace CalcApp

namespace Block

theorem classify_page (exit : Label) (linesPerScreen : Nat) (label : Label) (page : Page) :
    classify ((Instruction.define label).line :: page.writtenLines exit linesPerScreen) =
      some (label, page.readBack exit linesPerScreen) := by
  obtain ⟨first, rest, shape⟩ :=
    List.exists_cons_of_ne_nil (page.writtenLines_ne_nil exit linesPerScreen)
  have head : Instruction.ofLine (Instruction.define label).line = .define label :=
    Instruction.ofLine_line trivial
  simp [classify, Page.readBack, shape, head]

end Block

namespace Listing

theorem addBlocks_result {pairs : Listing} {blocks : List (List Text)}
    (read : blocks.map Block.classify = pairs.map some) (listing : Listing)
    (distinct : ((listing ++ pairs).map Prod.fst).Nodup) :
    (addBlocks listing blocks).result = .ok (listing ++ pairs) := by
  have labels : blocks.filterMap Block.classify = pairs := by
    calc
      blocks.filterMap Block.classify = (blocks.map Block.classify).filterMap id := by
        rw [List.filterMap_map, Function.id_comp]
      _ = pairs.filterMap some := by rw [read, List.filterMap_map, Function.id_comp]
      _ = pairs := List.filterMap_some
  rw [addBlocks_defineAll, labels, defineAll_append distinct]

end Listing

namespace Program

def listing (program : Program) : Listing :=
  program.pages.map fun page => (page.1, page.2.readBack program.quit program.linesPerScreen)

theorem ofText_render {program : Program} (distinct : (program.pages.map Prod.fst).Nodup)
    (unbroken : ∀ page ∈ program.pages, page.2.Unbroken program.quit program.linesPerScreen) :
    (Listing.ofText program.render).result = .ok program.listing := by
  let blocks := program.pages.map fun page =>
    (Instruction.define page.1).line :: page.2.writtenLines program.quit program.linesPerScreen
  have text : program.render = Text.join ['\n', '\n'] (blocks.map (Text.join ['\n'])) := by
    rw [render, List.map_map]
    rfl
  have full : ∀ block ∈ blocks, block ≠ [] ∧
      ∀ line ∈ block, Text.blank line = false ∧ Text.OneLine line := by
    intro block member
    obtain ⟨page, listed, rfl⟩ := List.mem_map.mp member
    constructor
    · exact List.cons_ne_nil _ _
    · intro line inside
      rcases List.mem_cons.mp inside with rfl | inside
      · exact ⟨Instruction.blank_line _, Instruction.oneLine_line (by simp [Instruction.texts])⟩
      · obtain ⟨instruction, held, rfl⟩ := List.mem_map.mp inside
        constructor
        · exact Instruction.blank_line _
        · apply Instruction.oneLine_line
          exact unbroken page listed instruction held
  have read : blocks.map Block.classify = program.listing.map some := by
    rw [listing, List.map_map, List.map_map]
    apply List.map_congr_left
    intro page _
    exact Block.classify_page _ _ _ _
  have labels : (([] ++ program.listing).map Prod.fst).Nodup := by
    rw [List.nil_append, listing, List.map_map]
    exact distinct
  rw [Listing.ofText, text, Text.paragraphs_join full]
  exact Listing.addBlocks_result read [] labels

section

variable {p : Text → Prop}

theorem entriesAt_allTexts (plain : ∀ text, Text.OneLine text → p text) {title : Text}
    {children : List Node} (exit : Label) (linesPerScreen place : Nat) (parent : Option Label)
    (heading : p title) (titled : ∀ other ∈ children.flatMap Node.nodes, p other.title) :
    Page.AllTexts p exit linesPerScreen (.menu title (entriesAt place children) parent) := by
  apply Page.allTexts_menu plain exit _ parent heading
  intro entry member
  obtain ⟨child, listed, same⟩ := title_of_mem_entriesAt member
  rw [← same]
  exact titled child (Node.mem_nodes_of_mem listed)

theorem pagesIn_allTexts (settings : Settings) (plain : ∀ text, Text.OneLine text → p text)
    (exit parent : Label) (place : Nat) {children : List Node}
    (titled : ∀ other ∈ children.flatMap Node.nodes, p other.title) :
    ∀ page ∈ pagesIn settings.charsPerLine parent place children,
      page.2.AllTexts p exit settings.linesPerScreen := by
  intro page member
  obtain ⟨node, above, index, within, rfl⟩ := mem_pagesIn parent place children member
  cases node with
  | menu id title below =>
      rw [Node.nodes_menu] at within
      exact entriesAt_allTexts plain exit settings.linesPerScreen (index + 1) (some above)
        (titled _ (within (List.mem_cons_self ..)))
        fun other listed => titled other (within (List.mem_cons_of_mem _ listed))
  | note id title content =>
      intro instruction member text inside
      exact plain text (Page.unbroken_note settings exit above content instruction member text inside)
  | code id title content =>
      intro instruction member text inside
      exact plain text
        (Page.unbroken_code exit settings.linesPerScreen content above instruction member text inside)

/-- Contents are laid out line by line, so what holds of lines and of titles holds of all texts. -/
theorem ofTree_allTexts (settings : Settings) (plain : ∀ text, Text.OneLine text → p text)
    {title : Text} {children : List Node} (heading : p title)
    (titled : ∀ other ∈ children.flatMap Node.nodes, p other.title) :
    ∀ page ∈ (ofTree settings title children).pages,
      page.2.AllTexts p (labelOf 1) settings.linesPerScreen := by
  intro page member
  rcases List.mem_cons.mp member with rfl | member
  · exact entriesAt_allTexts plain _ _ 2 none heading titled
  · rcases List.mem_cons.mp member with rfl | member
    · intro instruction listed text inside
      cases List.mem_singleton.mp listed
      cases inside
    · exact pagesIn_allTexts settings plain _ _ 2 titled page member

end

theorem lookup_listing {program : Program} (distinct : (program.pages.map Prod.fst).Nodup)
    {label : Label} {page : Page} (member : (label, page) ∈ program.pages) :
    program.listing.lookup label = some (page.readBack program.quit program.linesPerScreen) := by
  apply lookup_of_mem
  · rw [listing, List.map_map]
    exact distinct
  · exact List.mem_map.mpr ⟨(label, page), member, rfl⟩

end Program

end CalcApp
