import CalcApp.Proofs.Node.Gap

namespace CalcApp.Node

/-- A node with an id stands in a place of a tree, and no node before it in pre-order has the id. -/
structure First (target : Text) (shelves : List Shelf) (node root : Node) : Prop where
  place : [root] = nest shelves [node]
  named : node.id = target
  unmet : target ∉ shelves.flatMap Shelf.lead

variable {target : Text} {shelves : List Shelf} {shelf : Shelf} {root node item without : Node}

mutual

theorem exists_first :
    (root : Node) → target ∈ root.ids → ∃ shelves node, First target shelves node root
  | .menu id title children, listed => by
      by_cases same : id = target
      · exact ⟨[], _, rfl, same, List.not_mem_nil⟩
      · rw [ids, List.mem_cons] at listed
        obtain ⟨front, shelves, node, back, rfl, named, before, unmet⟩ :=
          exists_firstIn children (listed.resolve_left (Ne.symm same))
        refine ⟨⟨id, title, front, back⟩ :: shelves, node, rfl, named, ?_⟩
        rw [List.flatMap_cons, Shelf.lead, List.mem_append, List.mem_cons, not_or, not_or]
        exact ⟨⟨Ne.symm same, before⟩, unmet⟩
  | .note id title content, listed => by
      rw [ids, List.mem_singleton] at listed
      exact ⟨[], _, rfl, listed.symm, List.not_mem_nil⟩
  | .code id title content, listed => by
      rw [ids, List.mem_singleton] at listed
      exact ⟨[], _, rfl, listed.symm, List.not_mem_nil⟩

theorem exists_firstIn :
    (children : List Node) → target ∈ idsIn children →
      ∃ front shelves node back, children = front ++ nest shelves [node] ++ back ∧
        node.id = target ∧ target ∉ idsIn front ∧ target ∉ shelves.flatMap Shelf.lead
  | [], listed => by
      rw [idsIn] at listed
      cases listed
  | child :: rest, listed => by
      -- the id is looked for in the whole of a child before the next child is looked at
      by_cases inside : target ∈ child.ids
      · obtain ⟨shelves, node, place, named, unmet⟩ := exists_first child inside
        refine ⟨[], shelves, node, rest, ?_, named, ?_, unmet⟩
        · rw [← place]
          rfl
        · rw [idsIn]
          exact List.not_mem_nil
      · rw [idsIn, List.mem_append] at listed
        obtain ⟨front, shelves, node, back, rfl, named, before, unmet⟩ :=
          exists_firstIn rest (listed.resolve_left inside)
        refine ⟨child :: front, shelves, node, back, rfl, named, ?_, unmet⟩
        rw [idsIn, List.mem_append, not_or]
        exact ⟨inside, before⟩

end

theorem find?_self (node : Node) : node.find? node.id = some node := by
  cases node <;> rw [find?] <;> exact if_pos rfl

theorem findIn?_append (front back : List Node) :
    findIn? target (front ++ back) = (findIn? target front).or (findIn? target back) := by
  induction front with
  | nil =>
      rw [List.nil_append, findIn?]
      rfl
  | cons child rest ih => rw [List.cons_append, findIn?, findIn?, ih, Option.or_assoc]

theorem find?_hold {nodes : List Node} (unmet : target ∉ shelf.lead)
    (found : findIn? target nodes = some node) : (shelf.hold nodes).find? target = some node := by
  rw [Shelf.lead, List.mem_cons, not_or] at unmet
  rw [Shelf.hold, find?, if_neg (Ne.symm unmet.1), findIn?_append, findIn?_append,
    findIn?_of_not_mem unmet.2, found]
  rfl

theorem findIn?_singleton (node : Node) : findIn? target [node] = node.find? target := by
  rw [findIn?, findIn?, Option.or_none]

theorem findIn?_nest (unmet : node.id ∉ shelves.flatMap Shelf.lead) :
    findIn? node.id (nest shelves [node]) = some node := by
  induction shelves with
  | nil => rw [nest, findIn?_singleton, find?_self]
  | cons shelf inner ih =>
      rw [List.flatMap_cons, List.mem_append, not_or] at unmet
      rw [nest, findIn?_singleton, find?_hold unmet.1 (ih unmet.2)]

theorem findParentIn?_append (holder : Node) (start : Nat) (front back : List Node) :
    findParentIn? target holder start (front ++ back) =
      (findParentIn? target holder start front).or
        (findParentIn? target holder (start + front.length) back) := by
  induction front generalizing start with
  | nil =>
      rw [List.nil_append, findParentIn?]
      rfl
  | cons child rest ih =>
      have shift : start + 1 + rest.length = start + (child :: rest).length := by
        rw [List.length_cons]
        omega
      rw [List.cons_append, findParentIn?, findParentIn?, ih, shift]
      split
      · rfl
      · rw [Option.or_assoc]

theorem findParent?_hold (unmet : target ∉ shelf.lead) (node : Node) :
    (shelf.hold [node]).findParent? target =
      findParentIn? target (shelf.hold [node]) shelf.front.length (node :: shelf.back) := by
  rw [Shelf.lead, List.mem_cons, not_or] at unmet
  rw [Shelf.hold, findParent?, List.append_assoc, findParentIn?_append,
    findParentIn?_of_not_mem unmet.2, Nat.zero_add]
  rfl

theorem exists_next (shelves : List Shelf) (shelf : Shelf) (nodes : List Node) :
    ∃ next, nest (shelves ++ [shelf]) nodes = [next] ∧
      next.id ∈ (shelves ++ [shelf]).flatMap Shelf.lead := by
  cases shelves with
  | nil => exact ⟨shelf.hold nodes, rfl, List.mem_append_left _ shelf.id_mem_lead⟩
  | cons outer inner => exact ⟨_, rfl, List.mem_append_left _ outer.id_mem_lead⟩

/-- The search goes down the menus that lead to the node, none of which has its id. -/
theorem findParent?_nest (place : [root] = nest (shelves ++ [shelf]) [node])
    (unmet : node.id ∉ (shelves ++ [shelf]).flatMap Shelf.lead) :
    root.findParent? node.id = some (shelf.hold [node], shelf.front.length) := by
  induction shelves generalizing root with
  | nil =>
      rw [List.nil_append, List.flatMap_singleton] at unmet
      cases place
      rw [nest, findParent?_hold unmet, findParentIn?, if_pos rfl]
  | cons outer inner ih =>
      rw [List.cons_append, List.flatMap_cons, List.mem_append, not_or] at unmet
      obtain ⟨next, below, met⟩ := exists_next inner shelf [node]
      -- the menu in the gap is on the way to the node, so that the search enters it
      have other : next.id ≠ node.id := fun same => unmet.2 (same ▸ met)
      cases place
      rw [List.append_eq, below, findParent?_hold unmet.1, findParentIn?, if_neg other,
        ih below.symm unmet.2]
      rfl

namespace First

theorem find? (first : First target shelves node root) : root.find? target = some node := by
  obtain ⟨place, rfl, unmet⟩ := first
  rw [← findIn?_singleton, place, findIn?_nest unmet]

theorem findParent? (first : First target (shelves ++ [shelf]) node root) :
    root.findParent? target = some (shelf.hold [node], shelf.front.length) := by
  obtain ⟨place, rfl, unmet⟩ := first
  exact findParent?_nest place unmet

theorem extract (first : First target (shelves ++ [shelf]) node root) :
    ∃ without, root.extract target = (without, some node) ∧
      Adds (shelves ++ [shelf]) node without root := by
  obtain ⟨place, rfl, unmet⟩ := first
  exact extract_place place unmet

theorem exists_shelf (first : First target shelves node root) (below : target ≠ root.id) :
    ∃ outer shelf, shelves = outer ++ [shelf] := by
  rcases List.eq_nil_or_concat shelves with rfl | ⟨outer, shelf, rfl⟩
  · obtain ⟨place, named, _⟩ := first
    cases place
    exact absurd named.symm below
  · exact ⟨outer, shelf, List.concat_eq_append⟩

end First

theorem addChild_front (shelf : Shelf) (item : Node) :
    addChild shelf.front.length item (shelf.hold []) = .ok (shelf.hold [item]) := by
  rw [Shelf.hold, addChild, List.append_nil, List.take_left, List.drop_left, Shelf.hold,
    List.append_assoc, List.singleton_append]

theorem Adds.insert_back (adds : Adds (shelves ++ [shelf]) item without root)
    (distinct : without.ids.Nodup) :
    without.insert shelf.id shelf.front.length item = .ok root := by
  obtain ⟨empty, filled⟩ := adds
  rw [nest_concat] at empty filled
  obtain ⟨edited, done, place⟩ :=
    edit_place empty (unmet_of_nodup distinct empty) (addChild_front shelf item)
  rw [← filled] at place
  cases place
  exact done

/-- Where ids differ, taking an item out undoes putting it in, and putting it in again undoes taking
it out. -/
theorem insert_extract_inverse (root : Node) (distinct : root.ids.Nodup) :
    (∀ menu ∈ root.nodes, menu.isMenu = true → ∀ (index : Nat) (item : Node),
      item.ids.Disjoint root.ids →
        ∃ edited parent, root.insert menu.id index item = .ok edited ∧
          edited.extract item.id = (root, some item) ∧
          edited.findParent? item.id = some (parent, min index menu.children.length) ∧
          edited.find? menu.id = some parent) ∧
    (∀ target ∈ root.ids, target ≠ root.id →
      ∃ parent index without item, root.findParent? target = some (parent, index) ∧
        root.extract target = (without, some item) ∧
        item.ids.Disjoint without.ids ∧ root.ids.Perm (item.ids ++ without.ids) ∧
        without.insert parent.id index item = .ok root) := by
  constructor
  · intro menu member isMenu index item apart
    obtain ⟨shelves, shelf, edited, done, adds, rfl, front⟩ :=
      adds_insert_at distinct member isMenu index item
    have fresh : item.id ∉ root.ids := apart item.id_mem_own
    have first : First item.id (shelves ++ [shelf]) item edited :=
      ⟨adds.filled, rfl, adds.unmet fresh⟩
    have outer : First shelf.id shelves (shelf.hold [item]) edited := by
      have empty := adds.empty
      have filled := adds.filled
      rw [nest_concat] at empty filled
      exact ⟨filled, rfl, unmet_of_nodup distinct empty⟩
    have number : shelf.front.length = min index (shelf.hold []).children.length := by
      rw [front, List.length_take]
    exact ⟨edited, shelf.hold [item], done, adds.extract fresh, number ▸ first.findParent?,
      outer.find?⟩
  · intro target listed below
    obtain ⟨shelves, node, first⟩ := exists_first root listed
    obtain ⟨outer, shelf, rfl⟩ := first.exists_shelf below
    obtain ⟨without, taken, adds⟩ := first.extract
    exact ⟨shelf.hold [node], shelf.front.length, without, node, first.findParent?, taken,
      adds.disjoint distinct, adds.perm, adds.insert_back (adds.nodup distinct)⟩

def innerMenu : Node := .menu ['b'] [] [.note ['c'] [] [], .note ['d'] [] []]

def outerMenu : Node := .menu ['r'] [] [.note ['a'] [] [], innerMenu, .note ['e'] [] []]

theorem insert_extract_inverse_outerMenu :
    outerMenu.ids.Nodup ∧
      (∃ edited parent, outerMenu.insert ['b'] 9 (.note ['n'] [] []) = .ok edited ∧
        edited.extract ['n'] = (outerMenu, some (.note ['n'] [] [])) ∧
        edited.findParent? ['n'] = some (parent, 2) ∧ edited.find? ['b'] = some parent) ∧
      ∃ parent index without item, outerMenu.findParent? ['b'] = some (parent, index) ∧
        outerMenu.extract ['b'] = (without, some item) ∧ item.ids.Disjoint without.ids ∧
        outerMenu.ids.Perm (item.ids ++ without.ids) ∧
        without.insert parent.id index item = .ok outerMenu := by
  have distinct : outerMenu.ids.Nodup := by decide
  have member : innerMenu ∈ outerMenu.nodes := by simp [outerMenu, innerMenu]
  have apart : (Node.note ['n'] [] []).ids.Disjoint outerMenu.ids :=
    List.singleton_disjoint.mpr (by decide)
  obtain ⟨inserts, extracts⟩ := insert_extract_inverse outerMenu distinct
  exact ⟨distinct, inserts innerMenu member rfl 9 _ apart, extracts ['b'] (by decide) (by decide)⟩

end CalcApp.Node
