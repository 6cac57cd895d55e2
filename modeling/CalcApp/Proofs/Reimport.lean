import CalcApp.Proofs.MenuTree
import CalcApp.Proofs.RoundTrip

/-! Which trees come back from their program with the same kinds, titles and order. A code block
comes back unless its lines are those of another kind of page, and an entry unless its title is
that of a way out of a menu; nothing else is lost, whatever the contents and the settings are. -/

namespace CalcApp

namespace Node

mutual

/-- Kinds, titles and the order of children, with all ids and contents left empty. -/
def skeleton : Node → Node
  | .menu _ title children => .menu [] title (skeletonIn children)
  | .note _ title _ => .note [] title []
  | .code _ title _ => .code [] title []

def skeletonIn : List Node → List Node
  | [] => []
  | child :: rest => skeleton child :: skeletonIn rest

end

theorem recognizable_of_kind {node : Node} (plain : node.kind ≠ .code) : node.Recognizable := by
  cases node with
  | menu | note => trivial
  | code id title content => exact absurd rfl plain

theorem children_skeleton (node : Node) : node.skeleton.children = skeletonIn node.children := by
  cases node <;> simp [skeleton, children, skeletonIn]

theorem length_skeletonIn (nodes : List Node) : (skeletonIn nodes).length = nodes.length := by
  induction nodes with
  | nil => rw [skeletonIn]
  | cons child rest ih => rw [skeletonIn, List.length_cons, List.length_cons, ih]

mutual

theorem skeleton_reread (settings : Settings) (next : Nat) :
    (node : Node) → (node.reread settings next).skeleton = node.skeleton
  | .menu id title children => by
      have inner := skeletonIn_rereadIn settings (next + 1) children
      rw [reread, skeleton, skeleton, inner]
  | .note id title content => by rw [reread, skeleton, skeleton]
  | .code id title content => by rw [reread, skeleton, skeleton]

theorem skeletonIn_rereadIn (settings : Settings) (next : Nat) :
    (children : List Node) → skeletonIn (rereadIn settings next children) = skeletonIn children
  | [] => by rw [rereadIn]
  | child :: rest => by
      have first := skeleton_reread settings next child
      have others := skeletonIn_rereadIn settings (next + child.size) rest
      rw [rereadIn, skeletonIn, skeletonIn, first, others]

end

end Node

namespace Listing

theorem unfolds_listed {blocks : BlockMap} {name : Text} {target : Label} {rest : List Choice}
    {found : List Node} {met : List Label}
    (unfolds : blocks.Unfolds (Page.listed (⟨name, target⟩ :: rest)) found met)
    (count : found.length = rest.length + 1) :
    (name ≠ "Back".toList ∧ name ≠ "Quit".toList) ∧
      blocks.Unfolds (⟨name, target⟩ :: Page.listed rest) found met := by
  have few : (Page.listed rest).length ≤ rest.length := List.length_filter_le ..
  rw [Page.listed_cons] at unfolds
  split at unfolds
  · rename_i inside
    exact ⟨inside, unfolds⟩
  · have fewer := unfolds.length_le
    omega

theorem Readable.node {node : Node} (titled : node.Titled) (inside : node.Inside)
    (recognizable : node.Recognizable) (below : Readable (node.children.flatMap Node.nodes)) :
    Readable node.nodes := by
  intro other member
  rw [Node.nodes_eq] at member
  rcases List.mem_cons.mp member with rfl | deeper
  · exact ⟨titled, inside, recognizable⟩
  · exact below other deeper

theorem Readable.append {front back : List Node} (first : Readable front) (later : Readable back) :
    Readable (front ++ back) := by
  intro node member
  rcases List.mem_append.mp member with inside | after
  · exact first node inside
  · exact later node after

/-- A child that is read as a node with its skeleton is of a kind that its page shows, and its own
children are read from the entries of its page. -/
theorem unfolds_child {settings : Settings} {exit : Label} {listing : Listing} {menu : Label}
    {place : Nat} {child first : Node} {rest : List Choice} {others : List Node} {met : List Label}
    (own : listing.lookup (Program.labelOf place) = some (Page.readBack exit
      settings.linesPerScreen (Program.pageAt settings.charsPerLine menu place child)))
    (titled : ∀ node ∈ child.nodes, node.Titled)
    (unfolds : listing.blocks.Unfolds (⟨child.title, Program.labelOf place⟩ :: rest)
      (first :: others) met)
    (count : rest.length ≤ others.length) (alike : first.skeleton = child.skeleton) :
    child.Recognizable ∧
      (∃ inner, listing.blocks.Unfolds
        (Page.listed (Program.entriesAt (place + 1) child.children)) first.children inner) ∧
      ∃ after, listing.blocks.Unfolds rest others after := by
  cases unfolds with
  | quit _ later =>
      have fewer := later.length_le
      rw [List.length_cons] at fewer
      omega
  | note _ later =>
      cases child with
      | note id title content => exact ⟨trivial, ⟨[], .nil⟩, _, later⟩
      | menu | code =>
          rw [Node.skeleton, Node.skeleton] at alike
          cases alike
  | code block later =>
      cases child with
      | code id title content =>
          have read := Option.some.inj (own.symm.trans block)
          exact ⟨Page.recognizable_of_readBack read, ⟨[], .nil⟩, _, later⟩
      | menu | note =>
          rw [Node.skeleton, Node.skeleton] at alike
          cases alike
  | menu block inner later =>
      cases child with
      | menu id title children =>
          rw [Node.nodes_menu] at titled
          have quotable : '"' ∉ title := (titled _ (List.mem_cons_self ..)).1
          rw [Program.pageAt, readBack_entries settings exit (place + 1) _ quotable
            fun node member => titled node (List.mem_cons_of_mem _ member)] at own
          cases own.symm.trans block
          exact ⟨trivial, ⟨_, inner⟩, _, later⟩
      | note | code =>
          rw [Node.skeleton, Node.skeleton] at alike
          cases alike

theorem readable_of_unfolds (settings : Settings) (exit : Label) (listing : Listing) (menu : Label)
    (place : Nat) :
    (children : List Node) →
      Lists settings exit listing (Program.pagesIn settings.charsPerLine menu place children) →
      (∀ node ∈ children.flatMap Node.nodes, node.Titled) →
      (found : List Node) → (met : List Label) →
      listing.blocks.Unfolds (Page.listed (Program.entriesAt place children)) found met →
      Node.skeletonIn found = Node.skeletonIn children → Readable (children.flatMap Node.nodes)
  | [], _, _, _, _, _, _ => by
      intro node member
      cases member
  | child :: rest, listed, titled, [], _, _, same => by
      rw [Node.skeletonIn, Node.skeletonIn] at same
      cases same
  | child :: rest, listed, titled, first :: others, met, unfolds, same => by
      have size := Node.size_eq child
      rw [Node.skeletonIn, Node.skeletonIn] at same
      obtain ⟨alike, same⟩ := List.cons.inj same
      have count : others.length = (Program.entriesAt (place + child.size) rest).length := by
        rw [← Node.length_skeletonIn, same, Node.length_skeletonIn, Program.entriesAt_length]
      have few : (Page.listed (Program.entriesAt (place + child.size) rest)).length ≤
          (Program.entriesAt (place + child.size) rest).length := List.length_filter_le ..
      rw [Program.pagesIn, Program.pagesAt_eq] at listed
      rw [List.flatMap_cons] at titled ⊢
      have inner : ∀ node ∈ child.nodes, node.Titled := fun node member =>
        titled node (List.mem_append_left _ member)
      -- an entry that shows nothing, or none, would leave too few nodes for the children
      obtain ⟨inside, unfolds⟩ := unfolds_listed unfolds (congrArg (· + 1) count)
      obtain ⟨recognizable, ⟨_, deeper⟩, _, after⟩ := unfolds_child
        (listed _ (List.mem_append_left _ (List.mem_cons_self ..))) inner unfolds (by omega) alike
      have below := readable_of_unfolds settings exit listing (Program.labelOf place) (place + 1)
        child.children
        (fun page member => listed page (List.mem_append_left _ (.tail _ member)))
        (fun node member => inner node (Node.mem_nodes_of_below member))
        first.children _ deeper
        (by rw [← Node.children_skeleton, alike, Node.children_skeleton])
      have later := readable_of_unfolds settings exit listing menu (place + child.size) rest
        (fun page member => listed page (List.mem_append_right _ member))
        (fun node member => titled node (List.mem_append_right _ member)) others _ after same
      exact (Readable.node (inner child (Node.mem_nodes_self child)) inside recognizable
        below).append later
termination_by children => Node.sizeIn children
decreasing_by
  all_goals
    rw [Node.sizeIn_cons]
    omega

end Listing

namespace Program

variable {title : Text} {children : List Node}

/-- The root menu is read as the root unless one of its entries is taken for a way back. -/
theorem root?_ofTree (settings : Settings) (heading : '"' ∉ title)
    (titled : ∀ node ∈ children.flatMap Node.nodes, node.Titled)
    (onward : ∀ child ∈ children, child.title ≠ "Back".toList) :
    (ofTree settings title children).listing.root? =
      some (labelOf 0, title, Page.listed (entriesAt 2 children)) := by
  have unreturned : Page.returning (entriesAt 2 children) = [] := by
    apply Page.returning_eq_nil
    intro entry member
    obtain ⟨child, listed, same⟩ := title_of_mem_entriesAt member
    rw [← same]
    exact onward child listed
  show Listing.root? ((labelOf 0, Page.readBack (labelOf 1) settings.linesPerScreen
    (.menu title (entriesAt 2 children) none)) :: _) = _
  rw [Listing.readBack_entries settings (labelOf 1) 2 none heading titled, unreturned]
  rfl

theorem readBack_below {settings : Settings} {parent : Label} {place : Nat} {page : Label × Page}
    (titled : ∀ node ∈ children.flatMap Node.nodes, node.Titled)
    (plain : ∀ node ∈ children.flatMap Node.nodes, node.kind ≠ .code)
    (member : page ∈ pagesIn settings.charsPerLine parent place children) (exit : Label)
    (name : Text) (entries : List Choice) :
    page.2.readBack exit settings.linesPerScreen ≠ .menu name entries none := by
  obtain ⟨node, above, index, within, rfl⟩ := mem_pagesIn parent place children member
  intro read
  dsimp only at read
  cases node with
  | menu id heading below =>
      rw [Node.nodes_menu] at within
      have quotable : '"' ∉ heading := (titled _ (within (List.mem_cons_self ..))).1
      rw [pageAt, Listing.readBack_entries settings exit _ _ quotable
        fun other listed => titled other (within (List.mem_cons_of_mem _ listed))] at read
      cases read
  | note id heading content =>
      rw [pageAt, Page.readBack_note] at read
      cases read
  | code id heading content => exact plain _ (within (Node.mem_nodes_self _)) rfl

/-- Without code, a root is only found if no entry of the root menu is taken for a way back. -/
theorem onward_of_root? {settings : Settings} {top : Label × Text × List Choice}
    (heading : '"' ∉ title) (titled : ∀ node ∈ children.flatMap Node.nodes, node.Titled)
    (plain : ∀ node ∈ children.flatMap Node.nodes, node.kind ≠ .code)
    (found : (ofTree settings title children).listing.root? = some top) :
    ∀ child ∈ children, child.title ≠ "Back".toList := by
  obtain ⟨⟨label, page⟩, member, same⟩ := List.mem_map.mp (Listing.mem_of_root? found)
  have read : page.readBack (labelOf 1) settings.linesPerScreen = .menu top.2.1 top.2.2 none :=
    congrArg Prod.snd same
  rcases List.mem_cons.mp member with root | member
  · -- only the root menu has its way out to the quit page, so an entry could name its parent
    cases root
    rw [Listing.readBack_entries settings (labelOf 1) 2 none heading titled, Option.none_or] at read
    have unreturned := (Block.menu.inj read).2.2
    rw [Option.map_eq_none_iff, List.getLast?_eq_none_iff, Page.returning,
      List.filter_eq_nil_iff] at unreturned
    intro child listed back
    have name : child.title ∈ (entriesAt 2 children).map Choice.name := by
      rw [entriesAt_names]
      exact List.mem_map_of_mem listed
    obtain ⟨entry, held, named⟩ := List.mem_map.mp name
    exact unreturned entry held (by simp [named, back])
  rcases List.mem_cons.mp member with quit | below
  · cases quit
    cases read
  · exact absurd read (readBack_below titled plain below _ _ _)

end Program

namespace Outline

/-- The program of the outline is read as an outline with the same kinds, titles and order. -/
def ComesBack (outline : Outline) : Prop :=
  ∃ text copy, outline.generate = .ok text ∧ (parse text).result = .ok copy ∧
    copy.root.skeleton = outline.root.skeleton

/-- A program is generated, and the outline comes back exactly if all its nodes are readable,
provided that no other page than the root menu is read as the root. -/
theorem comesBack_iff_readable (outline : Outline) (menu : outline.root.isMenu = true)
    (small : outline.root.size ≤ 675)
    (titled : ∀ node ∈ outline.root.nodes, node.Narrow ∧ node.Titled)
    (root : ∀ top, (Program.ofTree outline.settings outline.root.title
        outline.root.children).listing.root? = some top →
      top = (Program.labelOf 0, outline.root.title,
        Page.listed (Program.entriesAt 2 outline.root.children))) :
    (∃ text, outline.generate = .ok text) ∧
      (outline.ComesBack ↔ Listing.Readable (outline.root.children.flatMap Node.nodes)) := by
  obtain ⟨settings, node, nextId⟩ := outline
  cases node with
  | menu id title children =>
      have heading : '"' ∉ title ∧ Text.OneLine title := (titled _ (Node.mem_nodes_self _)).2
      have fits : Node.sizeIn children + 2 ≤ 676 := by
        have size := Node.size_menu id title children
        dsimp only at small
        omega
      have text := generate_narrow settings nextId (fun node member => (titled node member).1) fits
      dsimp only at titled root ⊢
      rw [Node.nodes_menu] at titled
      have below := fun node member => (titled node (List.mem_cons_of_mem _ member)).2
      refine ⟨⟨_, text⟩, ?_, ?_⟩
      · rintro ⟨_, copy, generated, read, same⟩
        cases text.symm.trans generated
        rw [Program.parse_render settings fits heading.2 below] at read
        obtain ⟨label, name, entries, found, met, last, top, _, rfl, unfolds, _⟩ :=
          Listing.outline_ok read
        cases root _ top
        rw [Node.skeleton, Node.skeleton] at same
        have pages := Program.ofTree_distinct settings title fits
        exact Listing.readable_of_unfolds settings (Program.labelOf 1) _ (Program.labelOf 0) 2
          children (fun page member => Program.lookup_listing pages (.tail _ (.tail _ member)))
          below found met unfolds (Node.menu.inj same).2.2
      · intro readable
        refine ⟨_, _, text, Program.parse_ofTree settings fits heading readable, ?_⟩
        rw [Node.skeleton, Node.skeleton, Node.skeletonIn_rereadIn]
  | note id title content => cases menu
  | code id title content => cases menu

/-- Whatever the contents and the settings are, an outline without reserved titles comes back
exactly if each of its code blocks is taken for code. -/
theorem comesBack_iff_recognizable (outline : Outline) (menu : outline.root.isMenu = true)
    (small : outline.root.size ≤ 675)
    (titled : ∀ node ∈ outline.root.nodes, node.Narrow ∧ node.Titled)
    (inside : ∀ node ∈ outline.root.nodes.tail, node.Inside) :
    (∃ text, outline.generate = .ok text) ∧
      (outline.ComesBack ↔ ∀ node ∈ outline.root.nodes, node.Recognizable) := by
  have heading := (titled _ (Node.mem_nodes_self _)).2
  have below := fun node member => (titled node (Node.mem_nodes_of_below member)).2
  rw [Node.nodes_eq, List.tail_cons] at inside
  have top := Program.root?_ofTree outline.settings heading.1 below fun child listed =>
    (inside child (Node.mem_nodes_of_mem listed)).1
  obtain ⟨generated, back⟩ := comesBack_iff_readable outline menu small titled
    fun other found => Option.some.inj (found.symm.trans top)
  refine ⟨generated, back.trans ⟨?_, ?_⟩⟩
  · intro readable node member
    rw [Node.nodes_eq] at member
    rcases List.mem_cons.mp member with rfl | listed
    · apply Node.recognizable_of_kind
      rw [of_decide_eq_true menu]
      decide
    · exact (readable node listed).2.2
  · intro recognizable node member
    exact ⟨below node member, inside node member, recognizable node (Node.mem_nodes_of_below member)⟩

/-- Code that almost starts like a menu, a note or the quit page, on a screen without room. -/
def nearMisses : Outline :=
  ⟨⟨0, 0, 8⟩, .menu "top".toList "Quit".toList
    [.code "a".toList "1".toList "ClrHome\nMenu(\"cut\", \"off\nPause \"\"".toList,
      .menu "b".toList "2".toList [.note "c".toList "3".toList "\n\n\n".toList,
        .code "d".toList "4".toList " :Stop\nClrHome".toList],
      .code "e".toList "5".toList "Pause \"\"\rStop\r\nDisp \"A".toList], 9⟩

theorem comesBack_iff_recognizable_nearMisses :
    (nearMisses.root.isMenu = true ∧ nearMisses.root.size ≤ 675 ∧
      (∀ node ∈ nearMisses.root.nodes, node.Narrow ∧ node.Titled) ∧
      ∀ node ∈ nearMisses.root.nodes.tail, node.Inside) ∧
    (∀ node ∈ nearMisses.root.nodes, node.Recognizable) ∧ nearMisses.ComesBack := by
  have small : nearMisses.root.size ≤ 675 := by decide +kernel
  have titled : ∀ node ∈ nearMisses.root.nodes, node.Narrow ∧ node.Titled := by decide +kernel
  have inside : ∀ node ∈ nearMisses.root.nodes.tail, node.Inside := by decide +kernel
  have recognizable : ∀ node ∈ nearMisses.root.nodes, node.Recognizable := by decide +kernel
  have back := (comesBack_iff_recognizable nearMisses rfl small titled inside).2
  exact ⟨⟨rfl, small, titled, inside⟩, recognizable, back.mpr recognizable⟩

def lookAlikes : Outline :=
  ⟨{}, .menu rootId "Main Menu".toList
    [.code (itemId 1) "End".toList "Stop".toList,
      .code (itemId 2) "Hello".toList "ClrHome\nDisp \"HELLO\"".toList], 3⟩

/-- The first code block is lost, and the second one comes back as a note. -/
theorem lookAlikes_not_comesBack :
    (lookAlikes.root.isMenu = true ∧ lookAlikes.root.size ≤ 675 ∧
      (∀ node ∈ lookAlikes.root.nodes, node.Narrow ∧ node.Titled) ∧
      ∀ node ∈ lookAlikes.root.nodes.tail, node.Inside) ∧ ¬ lookAlikes.ComesBack := by
  have kinds : (lookAlikes.generate.toOption.bind fun text => (parse text).result.toOption.map
      fun copy => copy.root.children.map Node.kind) = some [.note] := by decide +kernel
  refine ⟨⟨rfl, by decide +kernel, by decide +kernel, by decide +kernel⟩, ?_⟩
  rintro ⟨text, copy, generated, read, same⟩
  rw [generated] at kinds
  have alone : (parse text).result.toOption.map (fun copy => copy.root.children.map Node.kind) =
      some [.note] := kinds
  rw [read] at alone
  have kept : copy.root.children.length = 2 := by
    rw [← Node.length_skeletonIn, ← Node.children_skeleton, same]
    rfl
  have count := congrArg List.length (Option.some.inj alone)
  rw [List.length_map, kept] at count
  cases count

/-- An outline of menus and notes comes back exactly if no title below its root is that of a way
out of a menu. -/
theorem comesBack_iff_inside (outline : Outline) (menu : outline.root.isMenu = true)
    (small : outline.root.size ≤ 675)
    (titled : ∀ node ∈ outline.root.nodes, node.Narrow ∧ node.Titled)
    (plain : ∀ node ∈ outline.root.nodes, node.kind ≠ .code) :
    (∃ text, outline.generate = .ok text) ∧
      (outline.ComesBack ↔ ∀ node ∈ outline.root.nodes.tail, node.Inside) := by
  have heading := (titled _ (Node.mem_nodes_self _)).2
  have below := fun node member => (titled node (Node.mem_nodes_of_below member)).2
  have kinds := fun node member => plain node (Node.mem_nodes_of_below member)
  obtain ⟨generated, back⟩ := comesBack_iff_readable outline menu small titled (by
    intro other found
    have onward := Program.onward_of_root? heading.1 below kinds found
    exact Option.some.inj (found.symm.trans (Program.root?_ofTree _ heading.1 below onward)))
  rw [Node.nodes_eq, List.tail_cons]
  refine ⟨generated, back.trans ⟨?_, ?_⟩⟩
  · intro readable node member
    exact (readable node member).2.1
  · intro inside node member
    exact ⟨below node member, inside node member, Node.recognizable_of_kind (kinds node member)⟩

def plainMenus : Outline :=
  ⟨⟨3, 1, 8⟩, .menu "top".toList "Back".toList
    [.menu "a".toList "back".toList [.note "b".toList [] "one two\n\nthree".toList],
      .note "c".toList "Back ".toList [], .menu "d".toList "Quit\\".toList []], 1⟩

theorem comesBack_iff_inside_plainMenus :
    (plainMenus.root.isMenu = true ∧ plainMenus.root.size ≤ 675 ∧
      (∀ node ∈ plainMenus.root.nodes, node.Narrow ∧ node.Titled) ∧
      ∀ node ∈ plainMenus.root.nodes, node.kind ≠ .code) ∧
    (∀ node ∈ plainMenus.root.nodes.tail, node.Inside) ∧ plainMenus.ComesBack := by
  have small : plainMenus.root.size ≤ 675 := by decide +kernel
  have titled : ∀ node ∈ plainMenus.root.nodes, node.Narrow ∧ node.Titled := by decide +kernel
  have plain : ∀ node ∈ plainMenus.root.nodes, node.kind ≠ .code := by decide +kernel
  have inside : ∀ node ∈ plainMenus.root.nodes.tail, node.Inside := by decide +kernel
  have back := (comesBack_iff_inside plainMenus rfl small titled plain).2
  exact ⟨⟨rfl, small, titled, plain⟩, inside, back.mpr inside⟩

def namedBack : Outline :=
  ⟨{}, .menu rootId "Main Menu".toList [.note (itemId 1) "Back".toList "Pain".toList], 2⟩

/-- The root menu is taken for one below the note, so that no root is found. -/
theorem namedBack_not_comesBack :
    (namedBack.root.isMenu = true ∧ namedBack.root.size ≤ 675 ∧
      (∀ node ∈ namedBack.root.nodes, node.Narrow ∧ node.Titled ∧ ',' ∉ node.title) ∧
      ∀ node ∈ namedBack.root.nodes, node.kind ≠ .code) ∧ ¬ namedBack.ComesBack := by
  have lost : (namedBack.generate.toOption.map fun text => (parse text).result.map Outline.nextId) =
      some (.error .rootMenuNotFound) := by decide +kernel
  refine ⟨⟨rfl, by decide +kernel, by decide +kernel, by decide +kernel⟩, ?_⟩
  rintro ⟨text, copy, generated, read, _⟩
  rw [generated] at lost
  have failed : (parse text).result.map Outline.nextId = .error .rootMenuNotFound :=
    Option.some.inj lost
  rw [read] at failed
  cases failed

end Outline

end CalcApp
