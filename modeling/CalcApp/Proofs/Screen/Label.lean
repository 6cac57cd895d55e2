import CalcApp.Proofs.Node.Find
import CalcApp.Proofs.Preorder
import CalcApp.Proofs.Screen

namespace CalcApp

namespace Program

@[simp] theorem labelOf_val (label : Label) : labelOf label.index.val = label := by
  have bound := label.index.isLt
  exact congrArg Label.mk (Fin.ext (Nat.mod_eq_of_lt bound))

/-- The label of the page for the node at a pre-order place: the quit page comes after the root. -/
def pageLabel (place : Nat) : Label := labelOf (if place = 0 then 0 else place + 1)

theorem mem_of_page? {program : Program} {label : Label} {page : Page}
    (found : program.page? label = some page) : (label, page) ∈ program.pages := by
  obtain ⟨front, back, split, _⟩ := List.lookup_eq_some_iff.mp found
  rw [split]
  simp

theorem Shows.of_children {charsPerLine place : Nat} {tree node : Node} {page : Page}
    (shows : Shows charsPerLine tree place node page) (holds : node.children ≠ []) :
    ∃ title entries parent, page = .menu title entries parent ∧ node.title = title ∧
      entries.map Choice.name = node.children.map Node.title ∧
      entries.map Choice.target =
        (places (place + 1) node.children).map fun child => labelOf (child + 1) := by
  cases node with
  | menu id title children =>
      cases page with
      | menu shown entries parent =>
          obtain ⟨heading, names, targets, _⟩ := shows
          refine ⟨shown, entries, parent, rfl, heading.symm, names, ?_⟩
          have labels := congrArg (List.map labelOf) targets
          rw [List.map_map, List.map_map] at labels
          calc
            _ = entries.map (labelOf ∘ fun entry => entry.target.index.val) :=
              List.map_congr_left fun entry _ => (labelOf_val entry.target).symm
            _ = _ := labels
      | note items parent => exact shows.elim
      | code lines parent => exact shows.elim
      | quit => exact shows.elim
  | note id title content => exact absurd rfl holds
  | code id title content => exact absurd rfl holds

theorem places_ids {tree node : Node} {place : Nat} (found : tree.nodes[place]? = some node)
    (index : Nat) :
    (places (place + 1) node.children)[index]?.map (fun child => tree.ids[child]?) =
      (node.children.map Node.id)[index]?.map some := by
  have stand := congrArg (List.map (Option.map Node.id)) (places_children found)
  have here := congrArg (fun places => places[index]?) stand
  simpa [Function.comp_def, ← Node.nodes_map_id] using here

namespace InPreorder

variable {settings : Settings} {tree : Node} {program : Program}

theorem page_at (ordered : InPreorder settings tree program) {place : Nat} {node : Node}
    (found : tree.nodes[place]? = some node) :
    (pageLabel place).index.val = (if place = 0 then 0 else place + 1) ∧
      ∃ page, program.page? (pageLabel place) = some page ∧
        Shows settings.charsPerLine tree place node page := by
  cases place with
  | zero =>
      obtain ⟨first, page, held, shows⟩ := ordered.root
      have label : pageLabel 0 = program.root := by rw [pageLabel, if_pos rfl, ← first, labelOf_val]
      rw [Node.nodes_eq, List.getElem?_cons_zero] at found
      cases found
      rw [label, if_pos rfl]
      exact ⟨first, page, held, shows⟩
  | succ later =>
      obtain ⟨label, page, index, held, shows⟩ := ordered.node _ node (Nat.succ_pos later) found
      have same : pageLabel (later + 1) = label := by
        rw [pageLabel, if_neg (Nat.succ_ne_zero later), ← index, labelOf_val]
      rw [same, if_neg (Nat.succ_ne_zero later)]
      exact ⟨index, page, held, shows⟩

end InPreorder

end Program

namespace Screen

open Program

section

variable {settings : Settings} {root : Node} {program : Program}

theorem first_label (ordered : InPreorder settings root.kept program) :
    program.blocks.head?.bind label? = some (pageLabel 0) := by
  have labels := ordered.labels
  rw [List.range_succ_eq_map] at labels
  cases pages : program.pages with
  | nil =>
      rw [pages] at labels
      cases labels
  | cons page rest =>
      rw [pages, List.map_cons] at labels
      have first : page.1 = pageLabel 0 := by
        rw [pageLabel, if_pos rfl, ← (List.cons.inj labels).1, labelOf_val]
      rw [blocks, pages, List.map_cons, List.head?_cons, Option.bind_some, label?_block, first]

/-- One step down: a menu's page is read, and its choices lead to the pages of the children. -/
theorem choice_at (ordered : InPreorder settings root.kept program)
    (titled : ∀ node ∈ root.kept.nodes, '"' ∉ node.title)
    (spaced : ∀ page ∈ program.pages, program.Spaced page.2) {place : Nat} {node : Node}
    (found : root.kept.nodes[place]? = some node) (holds : node.children ≠ []) (index : Nat) :
    ((findIn program.blocks (pageLabel place)).bind fun code => (menu? code).bind fun menu =>
      menu.choices.dropLast[index]?.map Choice.target) =
      (places (place + 1) node.children)[index]?.map fun child => labelOf (child + 1) := by
  obtain ⟨_, page, held, shows⟩ := ordered.page_at found
  have code : findIn program.blocks (pageLabel place) =
      some (program.block (pageLabel place) page) := by
    rw [blocks, findIn_blocks, ← page?, held, Option.map_some]
  have listed := List.mem_of_getElem? found
  obtain ⟨title, entries, parent, rfl, heading, names, targets⟩ := shows.of_children holds
  have plain : '"' ∉ title := heading ▸ titled node listed
  have quotable : ∀ entry ∈ entries, '"' ∉ entry.name := by
    intro entry member
    have name : entry.name ∈ node.children.map Node.title := names ▸ List.mem_map_of_mem member
    obtain ⟨child, inside, same⟩ := List.mem_map.mp name
    rw [← same]
    exact titled child (Node.mem_nodes_of_child listed inside)
  have menu := menu?_block program (pageLabel place) plain quotable (spaced _ (mem_of_page? held))
  rw [code, Option.bind_some, menu, Option.bind_some, List.dropLast_concat, ← List.getElem?_map,
    targets, List.getElem?_map]

/-- The right answer for an id: the label of the page for the node that has it, if it is kept. -/
def Answers (root : Node) (id : Text) (answer : Option Label) : Prop :=
  (∀ place, root.kept.ids[place]? = some id → answer = some (pageLabel place)) ∧
    (id ∉ root.kept.ids → answer = none)

theorem answers_none {id : Text} (absent : id ∉ root.kept.ids) : Answers root id none :=
  ⟨fun _ found => absurd (List.mem_of_getElem? found) absent, fun _ => rfl⟩

theorem answers_some {id : Text} {place : Nat} (distinct : root.ids.Nodup)
    (known : root.kept.ids[place]? = some id) : Answers root id (some (pageLabel place)) := by
  have once := distinct.sublist (Node.kept_ids_sublist root)
  constructor
  · intro other found
    have bound := (List.getElem?_eq_some_iff.mp known).1
    rw [(List.getElem?_inj bound once).mp (known.trans found.symm)]
  · exact fun absent => absurd (List.mem_of_getElem? known) absent

theorem answers_child (distinct : root.ids.Nodup) (ordered : InPreorder settings root.kept program)
    (titled : ∀ node ∈ root.kept.nodes, '"' ∉ node.title)
    (spaced : ∀ page ∈ program.pages, program.Spaced page.2) {id : Text} {parent : Node}
    {index : Nat} {above : Option Label} (own : root.id ≠ id) (member : parent ∈ root.nodes)
    (held : (parent.children.map Node.id)[index]? = some id) (answer : Answers root parent.id above) :
    Answers root id (above.bind fun label => (findIn program.blocks label).bind fun code =>
      (menu? code).bind fun menu => menu.choices.dropLast[index]?.map Choice.target) := by
  have listed := Node.mem_kept_ids_iff distinct member held
  by_cases shown : parent.kept ∈ root.kept.nodes
  · obtain ⟨place, stands⟩ := List.getElem?_of_mem shown
    have known : root.kept.ids[place]? = some parent.id := by
      rw [← Node.nodes_map_id, List.getElem?_map, stands, Option.map_some, Node.kept_id]
    have inside := places_ids stands index
    rw [Node.kept_childIds, List.getElem?_take, held] at inside
    have holds : parent.kept.children ≠ [] := by
      rw [Node.kept_children, ne_eq, List.map_eq_nil_iff, List.take_eq_nil_iff]
      intro none
      rw [none.resolve_left (by decide)] at held
      cases held
    rw [answer.1 place known, Option.bind_some, choice_at ordered titled spaced stands holds]
    by_cases room : index < 8
    · rw [if_pos room, Option.map_some, Option.map_eq_some_iff] at inside
      obtain ⟨child, found, known⟩ := inside
      -- labels skip the quit page for every place but the root's
      have below : child ≠ 0 := by
        intro first
        rw [first, Node.ids_eq, List.getElem?_cons_zero, Node.kept_id] at known
        exact own (Option.some.inj known)
      have right := answers_some distinct known
      rw [pageLabel, if_neg below] at right
      rw [found]
      exact right
    -- a child past the eighth has no choice, as the way out is not among those counted
    · rw [if_neg room, Option.map_none, Option.map_eq_none_iff] at inside
      rw [inside]
      exact answers_none fun kept => room (listed.mp kept).2
  · have absent : parent.id ∉ root.kept.ids := by
      intro inside
      obtain ⟨node, present, same⟩ := Node.exists_of_mem_ids inside
      obtain ⟨original, known, rfl⟩ := Node.mem_nodes_kept root present
      rw [Node.kept_id] at same
      exact shown (Node.eq_of_id distinct known member same ▸ present)
    rw [answer.2 absent]
    exact answers_none fun kept => shown (listed.mp kept).1

/-- The label that is found is that of the node's page; a node that was left out has none. -/
theorem labelIn?_blocks (distinct : root.ids.Nodup)
    (ordered : InPreorder settings root.kept program)
    (titled : ∀ node ∈ root.kept.nodes, '"' ∉ node.title)
    (spaced : ∀ page ∈ program.pages, program.Spaced page.2) (id : Text) :
    Answers root id (labelIn? program.blocks root id) := by
  fun_induction labelIn? program.blocks root id with
  | case1 =>
      rw [first_label ordered]
      apply answers_some distinct
      rw [Node.ids_eq, List.getElem?_cons_zero, Node.kept_id]
  | case2 id own missing =>
      apply answers_none
      intro kept
      have inside := (Node.kept_ids_sublist root).subset kept
      rw [Node.ids_eq, List.mem_cons] at inside
      rcases inside with same | below
      · exact own same.symm
      · exact Node.not_mem_of_findParent? root missing below
  | case3 id own parent index found _ ih =>
      obtain ⟨member, held⟩ := Node.mem_of_findParent? root found
      exact answers_child distinct ordered titled spaced own member held ih

end

/-- The preview agrees with the compiler. The label it finds for a node that is kept is the one
under which the program has the node's page; for the id of no such node it finds none. -/
theorem label_eq_compiled (outline : Outline) (text : Text) (distinct : outline.root.ids.Nodup)
    (titled : ∀ node ∈ outline.root.nodes, '"' ∉ node.title ∧ '\n' ∉ node.title)
    (generated : outline.generate = .ok text) :
    ∃ program, outline.compile.result = .ok program ∧ program.render = text ∧
      (∀ place node, outline.root.kept.nodes[place]? = some node →
        ∃ label page, labelFor? text outline.root node.id = some label ∧
          label.index.val = (if place = 0 then 0 else place + 1) ∧
          program.page? label = some page ∧
          Shows outline.settings.charsPerLine outline.root.kept place node page) ∧
      ∀ id, id ∉ outline.root.kept.ids → labelFor? text outline.root id = none := by
  obtain ⟨program, compiled, rfl⟩ := Outcome.map_eq_ok generated
  obtain ⟨id, title, children, root, fits, rfl⟩ := compile_ok compiled
  have ordered := ofTree_inPreorder outline.settings id title fits
  have kept : outline.root.kept = .menu id title (Node.keptIn 8 children) := by rw [root, Node.kept]
  rw [← kept] at ordered
  have plain : ∀ node ∈ outline.root.kept.nodes, '"' ∉ node.title ∧ '\n' ∉ node.title := by
    intro node member
    obtain ⟨original, listed, rfl⟩ := Node.mem_nodes_kept outline.root member
    rw [Node.kept_title]
    exact titled original listed
  have heading : '\n' ∉ outline.root.kept.title := (plain _ (Node.mem_nodes_self _)).2
  have below : ∀ other ∈ (Node.keptIn 8 children).flatMap Node.nodes, '\n' ∉ other.title := by
    intro other member
    apply And.right
    apply plain
    rw [kept]
    exact Node.mem_nodes_of_below member
  rw [kept, Node.title] at heading
  have spaced := ofTree_allTexts outline.settings (p := ('\n' ∉ ·)) (fun _ whole => whole.1) heading
    below
  have found := labelIn?_blocks distinct ordered (fun node member => (plain node member).1) spaced
  rw [← sections_render spaced] at found
  refine ⟨_, compiled, rfl, ?_, fun id absent => (found id).2 absent⟩
  intro place node here
  obtain ⟨index, page, held, shows⟩ := ordered.page_at here
  have known : outline.root.kept.ids[place]? = some node.id := by
    rw [← Node.nodes_map_id, List.getElem?_map, here, Option.map_some]
  exact ⟨pageLabel place, page, (found node.id).1 place known, index, held, shows⟩

def fullShelf : Outline :=
  ⟨{}, .menu "top".toList "Shelf, \r:".toList
    [.note "n".toList "Back".toList "Lbl AA\n\n:Menu(\"x\",\"y\",AB)".toList,
      .menu "m".toList "Lbl AC".toList
        ("abcdefgh".toList.map (fun c => .code [c] [c] "\nLbl AC".toList) ++
          [.menu "i".toList "I".toList [.note "j".toList "J".toList []]]),
      .code "z".toList [] []], 1⟩

theorem label_eq_compiled_fullShelf :
    fullShelf.root.ids.Nodup ∧
      (∀ node ∈ fullShelf.root.nodes, '"' ∉ node.title ∧ '\n' ∉ node.title) ∧
      ∃ text, fullShelf.generate = .ok text ∧
        (∃ label, labelFor? text fullShelf.root "h".toList = some label ∧ label.index.val = 11) ∧
        (∃ label, labelFor? text fullShelf.root "z".toList = some label ∧ label.index.val = 12) ∧
        labelFor? text fullShelf.root "j".toList = none := by
  have distinct : fullShelf.root.ids.Nodup := by decide +kernel
  have titled : ∀ node ∈ fullShelf.root.nodes, '"' ∉ node.title ∧ '\n' ∉ node.title := by
    decide +kernel
  obtain ⟨text, generated⟩ : ∃ text, fullShelf.generate = .ok text := by
    rw [Outline.generate, Outline.compile, fullShelf, compile_menu, if_pos (by decide +kernel)]
    exact ⟨_, rfl⟩
  obtain ⟨program, _, _, shown, absent⟩ := label_eq_compiled fullShelf text distinct titled generated
  have named : ∀ place id, fullShelf.root.kept.ids[place + 1]? = some id →
      ∃ label, labelFor? text fullShelf.root id = some label ∧ label.index.val = place + 2 := by
    intro place id known
    rw [← Node.nodes_map_id, List.getElem?_map, Option.map_eq_some_iff] at known
    obtain ⟨node, here, rfl⟩ := known
    obtain ⟨label, _, found, index, _⟩ := shown (place + 1) node here
    exact ⟨label, found, index⟩
  exact ⟨distinct, titled, text, generated, named 9 _ (by decide +kernel),
    named 10 _ (by decide +kernel), absent _ (by decide +kernel)⟩

end Screen

end CalcApp
