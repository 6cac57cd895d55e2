import CalcApp.Proofs.Node.First

/-! A tree as the list of its entries in pre-order, each a node without its children at its depth.
A place divides this list into the entries before it and the entries behind it, and every operation
that looks for an id touches only what stands in the first place with this id. -/

namespace CalcApp.Node

/-- A node without its children, at its depth in a tree. -/
structure Entry where
  depth : Nat
  id : Text
  title : Text
  kind : Kind
  content : Option Text
  deriving DecidableEq

def Entry.revised (revision : Revision) (entry : Entry) : Entry :=
  { entry with
    title := revision.title.getD entry.title
    content := entry.content.map revision.content.getD }

def entry (depth : Nat) (node : Node) : Entry :=
  ⟨depth, node.id, node.title, node.kind, node.content?⟩

def entries (depth : Nat) (node : Node) : List Entry :=
  (node.preorder depth).map fun (depth, node) => node.entry depth

def entriesIn (depth : Nat) (nodes : List Node) : List Entry := nodes.flatMap (entries depth)

theorem map_preorderIn (depth : Nat) (nodes : List Node) :
    ((preorderIn depth nodes).map fun (depth, node) => node.entry depth) =
      entriesIn depth nodes := by
  induction nodes with
  | nil => rfl
  | cons node rest ih =>
      rw [preorderIn, List.map_append, ih]
      rfl

theorem entries_eq (depth : Nat) (node : Node) :
    node.entries depth = node.entry depth :: entriesIn (depth + 1) node.children := by
  cases node with
  | menu id title children =>
      rw [entries, preorder, List.map_cons, map_preorderIn]
      rfl
  | note id title content => rfl
  | code id title content => rfl

@[simp] theorem entriesIn_append (depth : Nat) (front back : List Node) :
    entriesIn depth (front ++ back) = entriesIn depth front ++ entriesIn depth back :=
  List.flatMap_append

@[simp] theorem entriesIn_singleton (depth : Nat) (node : Node) :
    entriesIn depth [node] = node.entries depth :=
  List.flatMap_singleton ..

theorem entriesIn_map_id (depth : Nat) (nodes : List Node) :
    (entriesIn depth nodes).map Entry.id = idsIn nodes := by
  rw [← map_preorderIn, ← flatMap_nodes_map_id, ← preorderIn_snd depth, List.map_map, List.map_map]
  rfl

def leading (depth : Nat) : List Shelf → List Entry
  | [] => []
  | shelf :: inner =>
    ⟨depth, shelf.id, shelf.title, .menu, none⟩ :: entriesIn (depth + 1) shelf.front ++
      leading (depth + 1) inner

def trailing (depth : Nat) : List Shelf → List Entry
  | [] => []
  | shelf :: inner => trailing (depth + 1) inner ++ entriesIn (depth + 1) shelf.back

theorem entriesIn_nest (depth : Nat) (shelves : List Shelf) (nodes : List Node) :
    entriesIn depth (nest shelves nodes) =
      leading depth shelves ++ entriesIn (depth + shelves.length) nodes ++ trailing depth shelves := by
  induction shelves generalizing depth with
  | nil => rw [nest, leading, trailing, List.nil_append, List.append_nil, List.length_nil, Nat.add_zero]
  | cons shelf inner ih =>
      have deeper : depth + 1 + inner.length = depth + (shelf :: inner).length := by
        rw [List.length_cons]
        omega
      rw [nest, entriesIn_singleton, entries_eq, Shelf.hold, Node.children, entriesIn_append,
        entriesIn_append, ih, deeper, leading, trailing]
      simp only [List.cons_append, List.append_assoc]
      rfl

theorem leading_map_id (depth : Nat) (shelves : List Shelf) :
    (leading depth shelves).map Entry.id = shelves.flatMap Shelf.lead := by
  induction shelves generalizing depth with
  | nil => rfl
  | cons shelf inner ih =>
      rw [leading, List.map_append, List.map_cons, entriesIn_map_id, ih, List.flatMap_cons, Shelf.lead]

variable {target : Text} {shelves : List Shelf} {root node : Node} {nodes : List Node}

theorem entries_place (place : [root] = nest shelves nodes) :
    root.entries 0 =
      leading 0 shelves ++ entriesIn shelves.length nodes ++ trailing 0 shelves := by
  rw [← entriesIn_singleton, place, entriesIn_nest, Nat.zero_add]

theorem entries_addChild {index : Nat} {item changed : Node} (depth : Nat)
    (added : addChild index item node = .ok changed) :
    changed.entries depth = node.entry depth ::
      (entriesIn (depth + 1) (node.children.take index) ++ item.entries (depth + 1) ++
        entriesIn (depth + 1) (node.children.drop index)) := by
  cases node with
  | menu id title children =>
      cases added
      rw [entries_eq, Node.children, List.append_cons, entriesIn_append, entriesIn_append,
        entriesIn_singleton]
      rfl
  | note id title content => cases added
  | code id title content => cases added

theorem addChild_error {index : Nat} {item : Node} (leaf : node.isMenu = false) :
    addChild index item node = .error (.notAMenu node.id) := by
  cases node with
  | menu id title children => cases leaf
  | note id title content => rfl
  | code id title content => rfl

theorem revise_error {revision : Revision} (given : revision.content.isSome = true)
    (isMenu : node.isMenu = true) : revise revision node = .error (.noContent node.id) := by
  cases node with
  | menu id title children => exact if_pos given
  | note id title content => cases isMenu
  | code id title content => cases isMenu

theorem revise_ok {revision : Revision}
    (allowed : ¬ (revision.content.isSome = true ∧ node.isMenu = true)) :
    ∃ changed, revise revision node = .ok changed ∧ ∀ depth, changed.entries depth =
      (node.entry depth).revised revision :: entriesIn (depth + 1) node.children := by
  cases node with
  | menu id title children =>
      have absent : ¬ revision.content.isSome = true := fun given => allowed ⟨given, rfl⟩
      exact ⟨_, if_neg absent, fun depth => entries_eq depth _⟩
  | note id title content => exact ⟨_, rfl, fun depth => rfl⟩
  | code id title content => exact ⟨_, rfl, fun depth => rfl⟩

theorem findParent?_of_not_mem (absent : target ∉ root.ids) : root.findParent? target = none := by
  cases root with
  | menu id title children =>
      rw [ids, List.mem_cons, not_or] at absent
      rw [findParent?, findParentIn?_of_not_mem absent.2]
  | note id title content => rfl
  | code id title content => rfl

theorem edit_of_not_mem {change : Node → Except TreeError Node} (absent : target ∉ root.ids) :
    root.edit target change = .error (.nodeNotFound target) := by
  rw [edit, editAt?_of_not_mem root absent]
  rfl

structure Missed (root : Node) (target : Text) : Prop where
  absent : target ∉ root.ids
  find : root.find? target = none
  parent : root.findParent? target = none
  extract : root.extract target = (root, none)
  update : ∀ revision, root.update target revision = .error (.nodeNotFound target)
  insert : ∀ index item, root.insert target index item = .error (.nodeNotFound target)

theorem missed_of_not_mem (absent : target ∉ root.ids) : Missed root target where
  absent := absent
  find := find?_of_not_mem absent
  parent := findParent?_of_not_mem absent
  extract := by rw [Node.extract, strip?_of_not_mem absent]
  update := fun _ => edit_of_not_mem absent
  insert := fun _ _ => edit_of_not_mem absent

/-- Every operation reaches the node in a place, where it is the first one with the id in pre-order,
and leaves the entries before and behind the place as they are. -/
structure Reached (root : Node) (target : Text) (shelves : List Shelf) (node : Node) : Prop where
  place : [root] = nest shelves [node]
  listed : root.entries 0 = leading 0 shelves ++
    node.entry shelves.length :: entriesIn (shelves.length + 1) node.children ++ trailing 0 shelves
  named : node.id = target
  first : ∀ entry ∈ leading 0 shelves, entry.id ≠ target
  find : root.find? target = some node
  parent : target ≠ root.id → ∃ outer shelf, shelves = outer ++ [shelf] ∧
    root.findParent? target = some (shelf.hold [node], shelf.front.length) ∧
    (shelf.hold [node]).children[shelf.front.length]? = some node
  extract : target ≠ root.id → ∃ without, root.extract target = (without, some node) ∧
    without.entries 0 = leading 0 shelves ++ trailing 0 shelves
  update : ∀ revision : Revision, ¬ (revision.content.isSome = true ∧ node.isMenu = true) →
    ∃ edited, root.update target revision = .ok edited ∧ edited.entries 0 = leading 0 shelves ++
      (node.entry shelves.length).revised revision ::
        entriesIn (shelves.length + 1) node.children ++ trailing 0 shelves
  noContent : ∀ revision : Revision, root.update target revision = .error (.noContent target) ↔
    revision.content.isSome = true ∧ node.isMenu = true
  insert : node.isMenu = true → ∀ index item,
    ∃ edited, root.insert target index item = .ok edited ∧ edited.entries 0 = leading 0 shelves ++
      node.entry shelves.length ::
        (entriesIn (shelves.length + 1) (node.children.take index) ++
          item.entries (shelves.length + 1) ++
          entriesIn (shelves.length + 1) (node.children.drop index)) ++ trailing 0 shelves
  notAMenu : node.isMenu = false → ∀ index item,
    root.insert target index item = .error (.notAMenu target)

namespace First

variable (first : First target shelves node root)
include first

theorem entries_edit {change : Node → Except TreeError Node} {changed : Node}
    (changes : change node = .ok changed) :
    ∃ edited, root.edit target change = .ok edited ∧ edited.entries 0 =
      leading 0 shelves ++ changed.entries shelves.length ++ trailing 0 shelves := by
  obtain ⟨place, rfl, unmet⟩ := first
  obtain ⟨edited, done, place'⟩ := edit_place place unmet changes
  refine ⟨edited, done, ?_⟩
  rw [entries_place place', entriesIn_singleton]

theorem edit_error {change : Node → Except TreeError Node} {cause : TreeError}
    (refused : change node = .error cause) : root.edit target change = .error cause := by
  obtain ⟨place, rfl, unmet⟩ := first
  exact edit_place_error place unmet refused

theorem id_ne_of_leading : ∀ entry ∈ leading 0 shelves, entry.id ≠ target := by
  intro entry member same
  apply first.unmet
  rw [← leading_map_id 0, ← same]
  exact List.mem_map_of_mem member

theorem update_ok {revision : Revision}
    (allowed : ¬ (revision.content.isSome = true ∧ node.isMenu = true)) :
    ∃ edited, root.update target revision = .ok edited ∧ edited.entries 0 = leading 0 shelves ++
      (node.entry shelves.length).revised revision ::
        entriesIn (shelves.length + 1) node.children ++ trailing 0 shelves := by
  obtain ⟨changed, revised, same⟩ := revise_ok allowed
  obtain ⟨edited, done, listed⟩ := first.entries_edit revised
  exact ⟨edited, done, same shelves.length ▸ listed⟩

theorem update_noContent_iff (revision : Revision) :
    root.update target revision = .error (.noContent target) ↔
      revision.content.isSome = true ∧ node.isMenu = true := by
  constructor
  · intro refused
    by_contra allowed
    obtain ⟨edited, done, _⟩ := first.update_ok allowed
    cases refused.symm.trans done
  · rintro ⟨given, isMenu⟩
    have refused := revise_error given isMenu
    rw [first.named] at refused
    exact first.edit_error refused

theorem extract_entries (below : target ≠ root.id) :
    ∃ without, root.extract target = (without, some node) ∧
      without.entries 0 = leading 0 shelves ++ trailing 0 shelves := by
  obtain ⟨outer, shelf, rfl⟩ := first.exists_shelf below
  obtain ⟨without, taken, adds⟩ := first.extract
  refine ⟨without, taken, ?_⟩
  rw [entries_place adds.empty]
  exact congrArg (· ++ _) (List.append_nil _)

theorem reached : Reached root target shelves node where
  place := first.place
  listed := by rw [entries_place first.place, entriesIn_singleton, entries_eq]
  named := first.named
  first := first.id_ne_of_leading
  find := first.find?
  parent := by
    intro below
    obtain ⟨outer, shelf, rfl⟩ := first.exists_shelf below
    refine ⟨outer, shelf, rfl, first.findParent?, ?_⟩
    rw [Shelf.hold, Node.children, List.append_assoc, List.getElem?_append_right (Nat.le_refl _),
      Nat.sub_self]
    rfl
  extract := first.extract_entries
  update := fun _ => first.update_ok
  noContent := first.update_noContent_iff
  insert := by
    intro isMenu index item
    obtain ⟨changed, added⟩ := addChild_isMenu isMenu index item
    rw [← entries_addChild _ added]
    exact first.entries_edit added
  notAMenu := by
    intro leaf index item
    have refused : addChild index item node = _ := addChild_error leaf
    rw [first.named] at refused
    exact first.edit_error refused

end First

/-- All operations on a tree mean the same node by an id: either none finds it, or all reach the
first node with it in pre-order and change nothing else. -/
theorem operations_reach_first (root : Node) (target : Text) :
    Missed root target ∨ ∃ shelves node, Reached root target shelves node := by
  by_cases listed : target ∈ root.ids
  · obtain ⟨shelves, node, first⟩ := exists_first root listed
    exact .inr ⟨shelves, node, first.reached⟩
  · exact .inl (missed_of_not_mem listed)

/-- A menu goes out with the note in it that has the same id; a later note with the id stays. -/
example : (Node.menu ['r'] [] [.menu ['a'] [] [.note ['a'] [] []], .note ['a'] [] []]).extract ['a'] =
    (.menu ['r'] [] [.note ['a'] [] []], some (.menu ['a'] [] [.note ['a'] [] []])) := rfl

end CalcApp.Node
