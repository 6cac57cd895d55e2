import CalcApp.Proofs.Compile

namespace CalcApp

namespace Node

mutual

theorem nodes_split {node : Node} :
    (root : Node) → {place : Nat} → root.nodes[place]? = some node →
      ∃ front back, root.nodes = front ++ node.nodes ++ back ∧ front.length = place
  | .menu id title children, place, found => by
      rw [nodes_menu] at found ⊢
      cases place with
      | zero =>
          have same : Node.menu id title children = node := by simpa using found
          exact ⟨[], [], by simp [← same], rfl⟩
      | succ later =>
          obtain ⟨front, back, split, length⟩ := nodesIn_split children (by simpa using found)
          exact ⟨.menu id title children :: front, back, by simp [split], by simp [length]⟩
  | .note id title content, place, found => by
      obtain ⟨rfl, same⟩ : place = 0 ∧ Node.note id title content = node := by
        simpa [List.getElem?_singleton] using found
      exact ⟨[], [], by simp [← same], rfl⟩
  | .code id title content, place, found => by
      obtain ⟨rfl, same⟩ : place = 0 ∧ Node.code id title content = node := by
        simpa [List.getElem?_singleton] using found
      exact ⟨[], [], by simp [← same], rfl⟩

theorem nodesIn_split {node : Node} :
    (children : List Node) → {place : Nat} → (children.flatMap nodes)[place]? = some node →
      ∃ front back, children.flatMap nodes = front ++ node.nodes ++ back ∧ front.length = place
  | [], place, found => by simp at found
  | child :: rest, place, found => by
      rw [List.flatMap_cons] at found ⊢
      by_cases inside : place < child.nodes.length
      · rw [List.getElem?_append_left inside] at found
        obtain ⟨front, back, split, length⟩ := nodes_split child found
        exact ⟨front, back ++ rest.flatMap nodes, by simp [split], length⟩
      · rw [List.getElem?_append_right (by omega)] at found
        obtain ⟨front, back, split, length⟩ := nodesIn_split rest found
        refine ⟨child.nodes ++ front, back, by simp [split], ?_⟩
        rw [List.length_append, length]
        omega

end

end Node

namespace Program

def places (place : Nat) : List Node → List Nat
  | [] => []
  | child :: rest => place :: places (place + child.size) rest

theorem places_succ (place : Nat) (children : List Node) :
    places (place + 1) children = (places place children).map (· + 1) := by
  induction children generalizing place with
  | nil => rfl
  | cons child rest ih =>
      have shift : place + 1 + child.size = place + child.size + 1 := by omega
      simp only [places, List.map_cons, shift, ih]

theorem places_nodes (front back : List Node) (children : List Node) :
    (places front.length children).map
        (fun place => (front ++ children.flatMap Node.nodes ++ back)[place]?) =
      children.map some := by
  induction children generalizing front with
  | nil => rfl
  | cons child rest ih =>
      have first : (front ++ (child :: rest).flatMap Node.nodes ++ back)[front.length]? =
          some child := by
        rw [List.flatMap_cons, Node.nodes_eq child]
        simp
      have others := ih (front ++ child.nodes)
      rw [List.length_append] at others
      rw [places, List.map_cons, first, List.map_cons, Node.size]
      simpa using others

theorem places_children {tree node : Node} {place : Nat} (found : tree.nodes[place]? = some node) :
    (places (place + 1) node.children).map (fun child => tree.nodes[child]?) =
      node.children.map some := by
  obtain ⟨front, back, split, length⟩ := Node.nodes_split tree found
  have whole : tree.nodes = (front ++ [node]) ++ node.children.flatMap Node.nodes ++ back := by
    rw [split, Node.nodes_eq node]
    simp
  have stand := places_nodes (front ++ [node]) back node.children
  rw [← whole] at stand
  simpa [length] using stand

theorem entriesAt_indices (place : Nat) (children : List Node)
    (fits : place + Node.sizeIn children ≤ 676) :
    (entriesAt place children).map (fun entry => entry.target.index.val) =
      places place children := by
  induction children generalizing place with
  | nil => rfl
  | cons child rest ih =>
      rw [Node.sizeIn_cons] at fits
      have positive := Node.size_pos child
      have first : (labelOf place).index.val = place := labelOf_index (by omega)
      have others := ih (place + child.size) (by omega)
      simp only [entriesAt, places, List.map_cons, first, others]

mutual

theorem pagesAt_getElem? (charsPerLine : Nat) {found : Node} :
    (node : Node) → (parent : Label) → (place : Nat) → {offset : Nat} →
      node.nodes[offset]? = some found →
      ∃ above, (pagesAt charsPerLine parent place node)[offset]? =
        some (labelOf (place + offset), pageAt charsPerLine above (place + offset) found)
  | .menu id title children, parent, place, offset, listed => by
      rw [Node.nodes_menu] at listed
      rw [pagesAt]
      cases offset with
      | zero =>
          have same : Node.menu id title children = found := by simpa using listed
          exact ⟨parent, by simp [← same]⟩
      | succ later =>
          have below : (children.flatMap Node.nodes)[later]? = some found := by simpa using listed
          have inner := pagesIn_getElem? charsPerLine children (labelOf place) (place + 1) below
          have shift : place + 1 + later = place + (later + 1) := by omega
          rw [shift] at inner
          simpa using inner
  | .note id title content, parent, place, offset, listed => by
      obtain ⟨rfl, same⟩ : offset = 0 ∧ Node.note id title content = found := by
        simpa [List.getElem?_singleton] using listed
      exact ⟨parent, by simp [← same, pagesAt]⟩
  | .code id title content, parent, place, offset, listed => by
      obtain ⟨rfl, same⟩ : offset = 0 ∧ Node.code id title content = found := by
        simpa [List.getElem?_singleton] using listed
      exact ⟨parent, by simp [← same, pagesAt]⟩

theorem pagesIn_getElem? (charsPerLine : Nat) {found : Node} :
    (children : List Node) → (parent : Label) → (place : Nat) → {offset : Nat} →
      (children.flatMap Node.nodes)[offset]? = some found →
      ∃ above, (pagesIn charsPerLine parent place children)[offset]? =
        some (labelOf (place + offset), pageAt charsPerLine above (place + offset) found)
  | [], parent, place, offset, listed => by simp at listed
  | child :: rest, parent, place, offset, listed => by
      have length : (pagesAt charsPerLine parent place child).length = child.nodes.length := by
        have labels := congrArg List.length (pagesAt_labels charsPerLine parent place child)
        simpa [Node.size] using labels
      rw [List.flatMap_cons] at listed
      rw [pagesIn]
      by_cases inside : offset < child.nodes.length
      · rw [List.getElem?_append_left inside] at listed
        rw [List.getElem?_append_left (by omega)]
        exact pagesAt_getElem? charsPerLine child parent place listed
      · rw [List.getElem?_append_right (by omega)] at listed
        rw [List.getElem?_append_right (by omega), length]
        have later := pagesIn_getElem? charsPerLine rest parent (place + child.size) listed
        have shift : place + child.size + (offset - child.nodes.length) = place + offset := by
          rw [Node.size]
          omega
        rwa [shift] at later

end

/-- The page for the node at the pre-order place `place` of a tree. The entries of a menu lead to
its children, each of which has the label one after its place, since the quit page has the second
label. -/
def Shows (charsPerLine : Nat) (tree : Node) (place : Nat) : Node → Page → Prop
  | .menu _ title children, .menu shown entries _ =>
    shown = title ∧ entries.map Choice.name = children.map Node.title ∧
      entries.map (fun entry => entry.target.index.val) =
        (places (place + 1) children).map (· + 1) ∧
      (places (place + 1) children).map (fun child => tree.nodes[child]?) = children.map some
  | .note _ _ content, .note items _ => items = Note.paginate content charsPerLine
  | .code _ _ content, .code lines _ => lines = Text.split '\n' (Text.unifyNewlines content)
  | _, _ => False

structure InPreorder (settings : Settings) (tree : Node) (program : Program) : Prop where
  count : program.pages.length = tree.size + 1
  labels : program.pages.map (fun page => page.1.index.val) = List.range (tree.size + 1)
  root : program.root.index.val = 0 ∧
    ∃ page, program.page? program.root = some page ∧ Shows settings.charsPerLine tree 0 tree page
  quit : program.quit.index.val = 1 ∧ program.page? program.quit = some .quit
  node : ∀ place node, 0 < place → tree.nodes[place]? = some node →
    ∃ label page, label.index.val = place + 1 ∧ program.page? label = some page ∧
      Shows settings.charsPerLine tree place node page

theorem pageAt_shows (charsPerLine : Nat) {tree node : Node} {place : Nat} (above : Label)
    (found : tree.nodes[place]? = some node) (fits : tree.size + 1 ≤ 676) :
    Shows charsPerLine tree place node (pageAt charsPerLine above (place + 1) node) := by
  cases node with
  | menu id title children =>
      have stand := places_children found
      obtain ⟨front, back, split, length⟩ := Node.nodes_split tree found
      have total : tree.size = place + (Node.sizeIn children + 1) + back.length := by
        rw [Node.size, split, List.length_append, List.length_append, length, ← Node.size,
          Node.size_menu]
      have targets := entriesAt_indices (place + 2) children (by omega)
      rw [places_succ] at targets
      exact ⟨rfl, entriesAt_names _ _, targets, stand⟩
  | note id title content => rfl
  | code id title content => rfl

theorem ofTree_inPreorder (settings : Settings) (id title : Text) {children : List Node}
    (fits : Node.sizeIn children + 2 ≤ 676) :
    InPreorder settings (.menu id title children) (ofTree settings title children) := by
  have distinct := ofTree_distinct settings title fits
  have enough : (Node.menu id title children).size + 1 ≤ 676 := by
    rw [Node.size_menu]
    exact fits
  have first : (Node.menu id title children).nodes[0]? = some (.menu id title children) := by simp
  constructor
  · rw [Node.size_menu]
    exact ofTree_length settings title children
  · rw [Node.size_menu]
    exact ofTree_indices settings title fits
  · refine ⟨rfl, .menu title (entriesAt 2 children) none, ?_, ?_⟩
    · exact lookup_of_mem distinct (by simp [ofTree])
    · exact pageAt_shows settings.charsPerLine (labelOf 0) first enough
  · exact ⟨rfl, lookup_of_mem distinct (by simp [ofTree])⟩
  · intro place node positive found
    obtain ⟨later, rfl⟩ : ∃ later, place = later + 1 := ⟨place - 1, by omega⟩
    have below : (children.flatMap Node.nodes)[later]? = some node := by simpa using found
    obtain ⟨above, page⟩ := pagesIn_getElem? settings.charsPerLine children (labelOf 0) 2 below
    have inside : later < Node.sizeIn children := (List.getElem?_eq_some_iff.mp below).1
    have shift : 2 + later = later + 1 + 1 := by omega
    rw [shift] at page
    refine ⟨_, _, labelOf_index (by omega), lookup_of_mem distinct ?_,
      pageAt_shows _ above found enough⟩
    have member := List.mem_of_getElem? page
    simp [ofTree, member]

/-- What compiling a tree gives: only a menu can be compiled, a label is needed for each kept node
and for the quit page, and with labels enough there is a page for each of them in pre-order. The
newlines of code are unified by the laws of `Text.unifiesNewlines_iff`. -/
theorem compile_in_preorder (settings : Settings) (root : Node) :
    (root.isMenu = false → (compile settings root).result = .error .invalidRoot) ∧
      (root.isMenu = true →
        ((compile settings root).result = .error (.capacityExceeded 676) ↔
          676 < root.kept.size + 1) ∧
        (root.kept.size + 1 ≤ 676 → ∃ program, (compile settings root).result = .ok program ∧
          InPreorder settings root.kept program)) := by
  cases root with
  | menu id title children =>
      refine ⟨by simp [Node.isMenu, Node.kind], fun _ => ⟨?_, ?_⟩⟩
      · rw [compile_menu, Node.kept, Node.size_menu]
        by_cases fits : Node.sizeIn (Node.keptIn 8 children) + 2 ≤ 676
        · have below : ¬ 676 < Node.sizeIn (Node.keptIn 8 children) + 1 + 1 := by omega
          simp [fits, below]
        · have above : 676 < Node.sizeIn (Node.keptIn 8 children) + 1 + 1 := by omega
          simp [fits, above]
      · intro fits
        rw [Node.kept, Node.size_menu] at fits
        refine ⟨_, by rw [compile_menu, if_pos fits], ?_⟩
        rw [Node.kept]
        exact ofTree_inPreorder settings id title fits
  | note id title content => exact ⟨fun _ => rfl, by simp [Node.isMenu, Node.kind]⟩
  | code id title content => exact ⟨fun _ => rfl, by simp [Node.isMenu, Node.kind]⟩

def overfullTree : Node :=
  .menu "top".toList "T".toList (.note "a".toList "A".toList "first\r\nsecond".toList ::
    .menu "b".toList "B".toList (List.replicate 9 (.code "c".toList "C".toList ":Goto AA".toList)) ::
    List.replicate 8 (.menu "d".toList "D".toList []))

theorem compile_in_preorder_overfullTree :
    overfullTree.isMenu = true ∧ overfullTree.kept.size + 1 = 18 ∧
      ∃ program, (compile {} overfullTree).result = .ok program ∧ InPreorder {} overfullTree.kept program := by
  have size : overfullTree.kept.size + 1 = 18 := by decide +kernel
  have compiled := ((compile_in_preorder {} overfullTree).2 rfl).2 (by omega)
  exact ⟨rfl, size, compiled⟩

end Program

end CalcApp
