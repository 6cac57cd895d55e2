import CalcApp.Proofs.Rebuild

/-! Reading a generated program gives its outline back. The tree is the same but for its ids if
everything in it fits the screen, and the text that is generated from it is the same even if lines
were wrapped, pauses added and children left out. -/

namespace CalcApp

namespace Node

mutual

def shape : Node → Node
  | .menu _ title children => .menu [] title (shapeIn children)
  | .note _ title content => .note [] title content
  | .code _ title content => .code [] title content

def shapeIn : List Node → List Node
  | [] => []
  | child :: rest => shape child :: shapeIn rest

end

/-- A node that fits its screen: a menu has room for its children, a note needs neither wrapping nor
further pauses, and code has only lines that are written as they are. -/
def Tidy (settings : Settings) : Node → Prop
  | .menu _ _ children => children.length ≤ 8
  | .note _ _ content => Note.Tidy settings content
  | .code _ _ content => Code.Tidy content

instance (settings : Settings) : (node : Node) → Decidable (node.Tidy settings)
  | .menu _ _ children => inferInstanceAs (Decidable (children.length ≤ 8))
  | .note _ _ content => inferInstanceAs (Decidable (Note.Tidy settings content))
  | .code _ _ content => inferInstanceAs (Decidable (Code.Tidy content))

theorem Tidy.narrow {settings : Settings} {node : Node} (tidy : node.Tidy settings) : node.Narrow := by
  cases node with
  | menu id title children => exact tidy
  | note id title content => exact Nat.zero_le _
  | code id title content => exact Nat.zero_le _

theorem Tidy.recognizable {settings : Settings} {node : Node} (tidy : node.Tidy settings) :
    node.Recognizable := by
  cases node with
  | menu id title children => trivial
  | note id title content => trivial
  | code id title content => exact Code.Tidy.recognizable tidy

mutual

theorem shape_reread {settings : Settings} (next : Nat) :
    (node : Node) → (∀ other ∈ node.nodes, other.Tidy settings) →
      (node.reread settings next).shape = node.shape
  | .menu id title children, tidy => by
      rw [nodes_menu] at tidy
      have inner := shapeIn_rereadIn (next + 1) children fun other member =>
        tidy other (.tail _ member)
      rw [reread, shape, shape, inner]
  | .note id title content, tidy => by
      have own : Note.Tidy settings content := tidy _ (mem_nodes_self _)
      rw [reread, Note.reread_tidy own, shape, shape]
  | .code id title content, tidy => by
      have own : Code.Tidy content := tidy _ (mem_nodes_self _)
      rw [reread, Code.reread_tidy own, shape, shape]

theorem shapeIn_rereadIn {settings : Settings} (next : Nat) :
    (children : List Node) → (∀ other ∈ children.flatMap nodes, other.Tidy settings) →
      shapeIn (rereadIn settings next children) = shapeIn children
  | [], _ => by rw [rereadIn]
  | child :: rest, tidy => by
      rw [List.flatMap_cons] at tidy
      have first := shape_reread next child fun other member =>
        tidy other (List.mem_append_left _ member)
      have others := shapeIn_rereadIn (next + child.size) rest fun other member =>
        tidy other (List.mem_append_right _ member)
      rw [rereadIn, shapeIn, shapeIn, first, others]

end

end Node

namespace Outline

theorem generate_narrow (settings : Settings) {id title : Text} {children : List Node} (nextId : Nat)
    (narrow : ∀ other ∈ (Node.menu id title children).nodes, other.Narrow)
    (fits : Node.sizeIn children + 2 ≤ 676) :
    generate ⟨settings, .menu id title children, nextId⟩ =
      .ok (Program.ofTree settings title children).render := by
  have own : children.length ≤ 8 := narrow _ (Node.mem_nodes_self _)
  rw [Node.nodes_menu] at narrow
  have whole : Node.keptIn 8 children = children := by
    rw [Node.keptIn_eq, List.take_of_length_le own,
      Node.map_kept_of_narrow children fun other member => narrow other (.tail _ member)]
  rw [generate, compile, Program.compile_menu, whole, if_pos fits]
  rfl

/-- A program that was generated from a tidy outline is read back as that outline. Its items are
numbered anew in pre-order, and its settings are the default ones. -/
theorem parse_generate (outline : Outline) (menu : outline.root.isMenu = true)
    (small : outline.root.size ≤ 675)
    (tidy : ∀ node ∈ outline.root.nodes, node.Titled ∧ node.Tidy outline.settings)
    (inside : ∀ node ∈ outline.root.nodes.tail, node.Inside) :
    ∃ text copy, outline.generate = .ok text ∧ (parse text).result = .ok copy ∧
      copy.root.shape = outline.root.shape ∧
      copy.root.ids = rootId :: (List.range' 1 (outline.root.size - 1)).map itemId ∧
      copy.nextId = outline.root.size ∧ copy.settings = {} := by
  obtain ⟨settings, root, nextId⟩ := outline
  cases root with
  | menu id title children =>
      have heading : '"' ∉ title ∧ Text.OneLine title := (tidy _ (Node.mem_nodes_self _)).1
      dsimp only at small tidy inside
      have text := generate_narrow settings nextId fun other member =>
        (tidy other member).2.narrow
      rw [Node.nodes_menu] at tidy inside
      rw [Node.size_menu] at small
      have readable : Listing.Readable (children.flatMap Node.nodes) := by
        intro node member
        obtain ⟨titled, contents⟩ := tidy node (.tail _ member)
        exact ⟨titled, inside node member, contents.recognizable⟩
      have same := Node.shapeIn_rereadIn 1 children fun other member =>
        (tidy other (.tail _ member)).2
      have read := Program.parse_ofTree settings (by omega) heading readable
      refine ⟨_, _, text (by omega), read, ?_, ?_, ?_, rfl⟩
      · dsimp only
        rw [Node.shape, Node.shape, same]
      · dsimp only
        rw [Node.ids, Node.idsIn_rereadIn, Node.size_menu]
        rfl
      · dsimp only
        rw [Node.size_menu]
  | note id title content => cases menu
  | code id title content => cases menu

def tidySample : Outline :=
  ⟨⟨5, 2, 8⟩, .menu "top".toList "Back".toList
    [.menu "a".toList "Sub, \\".toList [.menu "b".toList [] [], .note "c".toList "x".toList [],
      .note "d".toList "y".toList "\n\n\none\ntwo\n\nthr\"\n".toList],
    .code "e".toList "run".toList "ClrHome\nMenu(\"no\n Goto AA".toList,
    .note "f".toList "z".toList "\n\tab\n\n\na b c".toList, .code "f".toList "Stop".toList []], 77⟩

theorem parse_generate_tidySample :
    (tidySample.root.isMenu = true ∧ tidySample.root.size ≤ 675 ∧
      (∀ node ∈ tidySample.root.nodes, node.Titled ∧ node.Tidy tidySample.settings) ∧
      ∀ node ∈ tidySample.root.nodes.tail, node.Inside) ∧
    ∃ text copy, tidySample.generate = .ok text ∧ (parse text).result = .ok copy ∧
      copy.root.shape = tidySample.root.shape ∧
      copy.root.ids = rootId :: (List.range' 1 (tidySample.root.size - 1)).map itemId ∧
      copy.nextId = tidySample.root.size ∧ copy.settings = {} := by
  have size : tidySample.root.size ≤ 675 := by decide +kernel
  have tidy : ∀ node ∈ tidySample.root.nodes, node.Titled ∧ node.Tidy tidySample.settings := by
    decide +kernel
  have inside : ∀ node ∈ tidySample.root.nodes.tail, node.Inside := by decide +kernel
  exact ⟨⟨rfl, size, tidy, inside⟩, parse_generate tidySample rfl size tidy inside⟩

end Outline

namespace Node

/-- A node that is written the same way once it was read back: note lines show and have no blanks
but spaces, and code lines need no second colon taken off. -/
def Stable : Node → Prop
  | .menu _ _ _ => True
  | .note _ _ content => ∀ line ∈ Text.split '\n' (Text.unifyNewlines content), Note.Spaced line
  | .code _ _ content =>
    (∀ line ∈ Code.lines content, Code.Bare line) ∧ Code.Recognizable (Code.lines content)

instance : (node : Node) → Decidable node.Stable
  | .menu _ _ _ => inferInstanceAs (Decidable True)
  | .note _ _ content => inferInstanceAs
      (Decidable (∀ line ∈ Text.split '\n' (Text.unifyNewlines content), Note.Spaced line))
  | .code _ _ _ => inferInstanceAs (Decidable (_ ∧ _))

theorem Stable.kept {node : Node} (stable : node.Stable) : node.kept.Stable := by
  cases node with
  | menu id title children =>
      rw [Node.kept]
      trivial
  | note id title content =>
      rw [Node.kept]
      exact stable
  | code id title content =>
      rw [Node.kept]
      exact stable

theorem Stable.recognizable {node : Node} (stable : node.Stable) : node.Recognizable := by
  cases node with
  | menu id title children => trivial
  | note id title content => trivial
  | code id title content => exact stable.2

end Node

namespace Program

theorem entriesAt_rereadIn (settings : Settings) (place next : Nat) (children : List Node) :
    entriesAt place (Node.rereadIn settings next children) = entriesAt place children := by
  induction children generalizing place next with
  | nil => rw [Node.rereadIn]
  | cons child rest ih =>
      rw [Node.rereadIn, entriesAt, entriesAt, Node.reread_title, Node.size_reread, ih]

def written (exit : Label) (linesPerScreen : Nat) (pages : List (Label × Page)) :
    List (Label × List Instruction) :=
  pages.map fun page => (page.1, page.2.instructions exit linesPerScreen)

@[simp] theorem written_cons (exit : Label) (linesPerScreen : Nat) (page : Label × Page)
    (rest : List (Label × Page)) :
    written exit linesPerScreen (page :: rest) =
      (page.1, page.2.instructions exit linesPerScreen) :: written exit linesPerScreen rest := rfl

@[simp] theorem written_append (exit : Label) (linesPerScreen : Nat) (front back : List (Label × Page)) :
    written exit linesPerScreen (front ++ back) =
      written exit linesPerScreen front ++ written exit linesPerScreen back :=
  List.map_append

theorem render_eq (program : Program) :
    program.render = Text.join ['\n', '\n']
      ((written program.quit program.linesPerScreen program.pages).map fun page =>
        Text.join ['\n'] ((Instruction.define page.1 :: page.2).map Instruction.line)) := by
  rw [render, written, List.map_map]
  rfl

variable {settings : Settings} (wide : 1 ≤ settings.charsPerLine) (tall : 1 ≤ settings.linesPerScreen)
include wide tall

theorem instructions_reread (exit parent : Label) (place next : Nat) {node : Node}
    (stable : node.Stable) :
    (pageAt settings.charsPerLine parent place (node.reread settings next)).instructions exit
        settings.linesPerScreen =
      (pageAt settings.charsPerLine parent place node).instructions exit settings.linesPerScreen := by
  cases node with
  | menu id title children => rw [Node.reread, pageAt, pageAt, entriesAt_rereadIn]
  | note id title content =>
      have again := Note.shown_reread wide tall stable
      rw [Node.reread, pageAt, pageAt, Page.instructions_note, Page.instructions_note,
        Page.noteSteps, again, ← Page.noteSteps]
  | code id title content =>
      have again := Code.lines_reread stable.1
      rw [Node.reread, pageAt, pageAt, Page.instructions, Page.instructions, Page.codeSteps_split,
        Page.codeSteps_split, again]

theorem written_pagesIn (exit parent : Label) (place next : Nat) :
    (children : List Node) → (∀ other ∈ children.flatMap Node.nodes, other.Stable) →
      written exit settings.linesPerScreen
          (pagesIn settings.charsPerLine parent place (Node.rereadIn settings next children)) =
        written exit settings.linesPerScreen (pagesIn settings.charsPerLine parent place children)
  | [], _ => by rw [Node.rereadIn]
  | child :: rest, stable => by
      rw [List.flatMap_cons] at stable
      have size := Node.size_eq child
      have own := instructions_reread wide tall exit parent place next
        (stable child (List.mem_append_left _ (Node.mem_nodes_self child)))
      have inner := written_pagesIn exit (labelOf place) (place + 1) (next + 1) child.children
        fun other member => stable other
          (List.mem_append_left _ (by rw [Node.nodes_eq]; exact .tail _ member))
      have others := written_pagesIn exit parent (place + child.size) (next + child.size) rest
        fun other member => stable other (List.mem_append_right _ member)
      rw [Node.rereadIn, pagesIn, pagesIn, pagesAt_eq, pagesAt_eq, Node.children_reread,
        Node.size_reread, written_append, written_append, written_cons, written_cons, own, inner, others]
termination_by children => Node.sizeIn children
decreasing_by
  all_goals
    rw [Node.sizeIn_cons]
    omega

theorem render_reread (title : Text) (next : Nat) {children : List Node}
    (stable : ∀ other ∈ children.flatMap Node.nodes, other.Stable) :
    (ofTree settings title (Node.rereadIn settings next children)).render =
      (ofTree settings title children).render := by
  have pages := written_pagesIn wide tall (labelOf 1) (labelOf 0) 2 next children stable
  rw [render_eq, render_eq, ofTree, ofTree, entriesAt_rereadIn, written_cons, written_cons, written_cons,
    written_cons, pages]

end Program

namespace Outline

theorem generate_ok {outline : Outline} {text : Text} (generated : outline.generate = .ok text) :
    ∃ id title children, outline.root = .menu id title children ∧
      Node.sizeIn (Node.keptIn 8 children) + 2 ≤ 676 ∧
      text = (Program.ofTree outline.settings title (Node.keptIn 8 children)).render := by
  cases compiled : (Program.compile outline.settings outline.root).result with
  | error cause =>
      rw [generate, compile, compiled] at generated
      cases generated
  | ok program =>
      rw [generate, compile, compiled] at generated
      obtain ⟨id, title, children, root, fits, rfl⟩ := Program.compile_ok compiled
      exact ⟨id, title, children, root, fits, (Except.ok.inj generated).symm⟩

theorem narrow_rereadIn (settings : Settings) (title : Text) (next : Nat) (children : List Node) :
    ∀ other ∈ (Node.menu rootId title
      (Node.rereadIn settings next (Node.keptIn 8 children))).nodes, other.Narrow := by
  intro other member
  rw [Node.nodes_menu] at member
  rcases List.mem_cons.mp member with rfl | below
  · rw [Node.Narrow, Node.children, Node.length_rereadIn, Node.keptIn_eq, List.length_map,
      List.length_take]
    omega
  · obtain ⟨kept, listed, number, rfl⟩ := Node.mem_nodes_rereadIn next _ below
    obtain ⟨original, _, rfl⟩ := Node.mem_nodes_keptIn 8 children listed
    exact Node.reread_narrow (Node.kept_narrow original)

/-- Once it was read back, an outline is written as the text that it was read from. -/
theorem generate_parse (outline : Outline) (text : Text)
    (wide : 1 ≤ outline.settings.charsPerLine) (tall : 1 ≤ outline.settings.linesPerScreen)
    (generated : outline.generate = .ok text)
    (stable : ∀ node ∈ outline.root.nodes, node.Titled ∧ node.Stable)
    (inside : ∀ node ∈ outline.root.nodes.tail, node.Inside) :
    ∃ copy, (parse text).result = .ok copy ∧
      (copy.withSettings outline.settings).generate = .ok text := by
  obtain ⟨id, title, children, root, fits, rfl⟩ := generate_ok generated
  rw [root] at stable inside
  have heading : '"' ∉ title ∧ Text.OneLine title := (stable _ (Node.mem_nodes_self _)).1
  rw [Node.nodes_menu] at stable inside
  have below : ∀ node ∈ (Node.keptIn 8 children).flatMap Node.nodes,
      node.Titled ∧ node.Inside ∧ node.Stable := by
    intro node member
    obtain ⟨original, listed, rfl⟩ := Node.mem_nodes_keptIn 8 children member
    obtain ⟨titled, contents⟩ := stable original (.tail _ listed)
    rw [Node.Titled, Node.Inside, Node.kept_title]
    exact ⟨titled, inside original listed, contents.kept⟩
  have readable : Listing.Readable ((Node.keptIn 8 children).flatMap Node.nodes) := by
    intro node member
    obtain ⟨titled, within, contents⟩ := below node member
    exact ⟨titled, within, contents.recognizable⟩
  have again := generate_narrow outline.settings (Node.sizeIn (Node.keptIn 8 children) + 1)
    (narrow_rereadIn outline.settings title 1 children) (by rw [Node.sizeIn_rereadIn]; exact fits)
  refine ⟨_, Program.parse_ofTree outline.settings fits heading readable, ?_⟩
  rw [withSettings, again, Program.render_reread wide tall title 1
    fun other member => (below other member).2.2]

/-- A menu that is too full, notes with long words, long lines and long runs of newlines, and code
with blank lines and colons. -/
def stableSample : Outline :=
  ⟨⟨4, 2, 8⟩, .menu "top".toList "Quit".toList
    [.note "a".toList "n".toList "one two  threefour\r\n five\r\r\n\n\n\nsix\nseven\neight\n".toList,
      .menu "b".toList "m".toList [.code "c".toList "k".toList ":ClrHome\r\n\n Goto AB\n \t\nStop".toList,
        .note "d".toList [] "\r\n\r\n\"a\" b".toList],
      .note "e".toList "3".toList [], .note "e".toList "4".toList "\r".toList,
      .code "e".toList "5".toList "\n\n".toList, .code "e".toList "6".toList "Lbl A\n:Disp \"B".toList,
      .menu "e".toList "7".toList [], .note "e".toList "8".toList "\n\n\n\n".toList,
      .menu "f".toList "9".toList [.note "g".toList "left out".toList []],
      .note "h".toList "10".toList "left out".toList], 3⟩

theorem generate_parse_stableSample :
    ∃ text, stableSample.generate = .ok text ∧
      (1 ≤ stableSample.settings.charsPerLine ∧ 1 ≤ stableSample.settings.linesPerScreen ∧
        (∀ node ∈ stableSample.root.nodes, node.Titled ∧ node.Stable) ∧
        ∀ node ∈ stableSample.root.nodes.tail, node.Inside) ∧
      ∃ copy, (parse text).result = .ok copy ∧
        (copy.withSettings stableSample.settings).generate = .ok text := by
  have stable : ∀ node ∈ stableSample.root.nodes, node.Titled ∧ node.Stable := by decide +kernel
  have inside : ∀ node ∈ stableSample.root.nodes.tail, node.Inside := by decide +kernel
  obtain ⟨text, generated⟩ : ∃ text, stableSample.generate = .ok text := by
    rw [generate, compile, stableSample, Program.compile_menu, if_pos (by decide +kernel)]
    exact ⟨_, rfl⟩
  exact ⟨text, generated, ⟨by decide, by decide, stable, inside⟩,
    generate_parse stableSample text (by decide) (by decide) generated stable inside⟩

end Outline

end CalcApp
