import CalcApp.Proofs.Node.Gap
import CalcApp.Proofs.Node.Placement
import CalcApp.Proofs.Session

namespace CalcApp

theorem split_of_getElem? {α : Type} {row : List α} {index : Nat} {x : α}
    (held : row[index]? = some x) : ∃ front back, row = front ++ x :: back ∧ front.length = index := by
  obtain ⟨bound, same⟩ := List.getElem?_eq_some_iff.mp held
  refine ⟨row.take index, row.drop (index + 1), ?_, List.length_take_of_le (Nat.le_of_lt bound)⟩
  rw [← same, List.getElem_cons_drop, List.take_append_drop]

namespace Node

variable {root item earlier later edited : Node} {shelves : List Shelf} {dragged target : Text}
  {position : Position} {max : Nat} {place : Placement}

theorem childIds_hold (shelf : Shelf) (nodes : List Node) : (shelf.hold nodes).childIds =
    shelf.front.map Node.id ++ nodes.map Node.id ++ shelf.back.map Node.id := by
  rw [childIds, Shelf.hold, Node.children, List.map_append, List.map_append]

theorem Adds.exists_node {node : Node} (adds : Adds shelves item earlier later)
    (fresh : item.id ∉ earlier.ids) (member : node ∈ later.nodes) (other : node.id ∉ item.ids) :
    ∃ old ∈ earlier.nodes, old.id = node.id ∧ old.isMenu = node.isMenu ∧
      old.childIds = node.childIds.erase item.id := by
  rcases (mem_nodes_nest adds.filled).mp member with within | beside | ⟨outer, shelf, inner, split, rfl⟩
  · rw [List.flatMap_singleton] at within
    exact absurd (id_mem_ids within) other
  · have kept : node ∈ earlier.nodes := (mem_nodes_nest adds.empty).mpr (.inr (.inl beside))
    have absent : item.id ∉ node.childIds := fun listed => fresh (childIds_subset kept listed)
    exact ⟨node, kept, rfl, rfl, (List.erase_of_not_mem absent).symm⟩
  · have kept : shelf.hold (nest inner []) ∈ earlier.nodes :=
      (mem_nodes_nest adds.empty).mpr (.inr (.inr ⟨outer, shelf, inner, split, rfl⟩))
    have absent : item.id ∉ (shelf.hold (nest inner [])).childIds :=
      fun listed => fresh (childIds_subset kept listed)
    refine ⟨_, kept, rfl, rfl, ?_⟩
    rw [childIds_hold] at absent ⊢
    rw [childIds_hold]
    cases inner with
    | nil =>
        -- the item itself stands in the gap
        rw [nest, List.map_nil, List.append_nil, List.mem_append, not_or] at absent
        rw [nest, nest, List.append_assoc, List.append_assoc, List.erase_append_right _ absent.1,
          List.map_singleton, List.singleton_append, List.erase_cons_head, List.map_nil,
          List.nil_append]
    | cons next below =>
        have same : (nest (next :: below) [item]).map Node.id =
            (nest (next :: below) []).map Node.id := rfl
        rw [same, List.erase_of_not_mem absent]

/-- A place that is named by a target outside the item is named in the tree without the item too. -/
theorem Adds.exists_place (adds : Adds shelves item earlier later) (distinct : later.ids.Nodup)
    (outside : target ∉ item.ids) (found : later.place? target position = some place) :
    ∃ old, earlier.place? target position = some old ∧ old.parent.id = place.parent.id ∧
      old.parent.isMenu = place.parent.isMenu ∧
      old.parent.childIds = place.parent.childIds.erase item.id := by
  have fresh : item.id ∉ earlier.ids := adds.disjoint distinct (id_mem_own item)
  obtain ⟨member, named⟩ := (place?_eq_some_iff distinct).mp found
  split at named
  · rename_i inside
    obtain ⟨named, _⟩ := named
    obtain ⟨old, kept, same, kind, children⟩ := adds.exists_node fresh member (named ▸ outside)
    refine ⟨lastPlace old, ?_, same, kind, children⟩
    rw [place?_eq_some_iff (adds.nodup distinct), if_pos inside]
    exact ⟨kept, same.trans named, (List.length_map _).symm⟩
  · rename_i beside
    obtain ⟨index, held, _⟩ := named
    have listed := List.mem_of_getElem? held
    have apart : place.parent.id ∉ item.ids := by
      intro part
      obtain ⟨inner, within, same⟩ := exists_of_mem_ids part
      have whole : item.nodes ⊆ later.nodes := fun node inside =>
        (mem_nodes_nest adds.filled).mpr (.inl (by rwa [List.flatMap_singleton]))
      rw [eq_of_id distinct (whole within) member same] at within
      exact outside (childIds_subset within listed)
    obtain ⟨old, kept, same, kind, children⟩ := adds.exists_node fresh member apart
    have other : target ≠ item.id := fun same => outside (same ▸ id_mem_own item)
    obtain ⟨shifted, held'⟩ := List.mem_iff_getElem?.mp ((List.mem_erase_of_ne other).mpr listed)
    rw [← children] at held'
    refine ⟨⟨old, shifted + position.offset⟩, ?_, same, kind, children⟩
    rw [place?_eq_some_iff (adds.nodup distinct), if_neg beside]
    exact ⟨kept, shifted, held', rfl⟩

/-- In a tree without the item, a place takes it if there is room in its menu. -/
theorem resolvePlacement_of_not_mem (distinct : root.ids.Nodup) (absent : dragged ∉ root.ids) :
    root.resolvePlacement dragged target position max = some place ↔
      dragged ≠ target ∧ root.place? target position = some place ∧ place.parent.isMenu = true ∧
        place.parent.childIds.length < max := by
  rw [resolvePlacement_eq_some_iff distinct, find?_of_not_mem absent, Placement.takes, Bool.and_eq_true, hasRoom_eq]
  constructor
  · rintro ⟨other, _, found, isMenu, room⟩
    have member := ((place?_eq_some_iff distinct).mp found).1
    refine ⟨other, found, isMenu, room.resolve_right ?_⟩
    exact fun held => absent (childIds_subset member held)
  · rintro ⟨other, found, isMenu, room⟩
    refine ⟨other, ?_, found, isMenu, .inl room⟩
    rintro _ ⟨⟩

theorem filled_of_insert {parent : Text} {index : Nat}
    (done : root.insert parent index item = .ok edited) :
    ∃ menu filled, root.find? parent = some menu ∧ filled ∈ edited.nodes ∧ filled.id = menu.id ∧
      filled.childIds = menu.childIds.take index ++ item.id :: menu.childIds.drop index := by
  obtain ⟨menu, filled, search, added, member, _⟩ := remains_edit done
  refine ⟨menu, filled, search, member, ?_⟩
  cases menu with
  | menu id title children =>
      cases added
      refine ⟨rfl, ?_⟩
      rw [childIds, childIds, Node.children, Node.children, List.map_append, List.map_cons,
        List.map_take, List.map_drop]
  | note id title content => cases added
  | code id title content => cases added

/-- The dragged node stands where a position says, seen from the target. -/
def Stands (root : Node) (dragged target : Text) : Position → Prop
  | .before => ∃ menu index, root.findParent? dragged = some (menu, index) ∧
      root.findParent? target = some (menu, index + 1)
  | .after => ∃ menu index, root.findParent? target = some (menu, index) ∧
      root.findParent? dragged = some (menu, index + 1)
  | .inside => ∃ menu, root.find? target = some menu ∧ menu.childIds.getLast? = some dragged

theorem stands_of_insert (distinct : root.ids.Nodup) (distinct' : edited.ids.Nodup)
    (found : root.place? target position = some place)
    (done : root.insert place.parent.id place.index item = .ok edited) :
    edited.Stands item.id target position := by
  obtain ⟨menu, filled, search, member, named, children⟩ := filled_of_insert done
  obtain ⟨listed, reached⟩ := (place?_eq_some_iff distinct).mp found
  obtain ⟨known, same⟩ := mem_of_find? root search
  obtain rfl : menu = place.parent := eq_of_id distinct known listed same
  cases position with
  | inside =>
      obtain ⟨aimed, last⟩ := reached
      rw [last, List.take_length, List.drop_length] at children
      refine ⟨filled, (find?_eq_some_iff distinct').mpr ⟨member, named.trans aimed⟩, ?_⟩
      rw [children, List.getLast?_concat]
  | before =>
      obtain ⟨index, held, number⟩ := reached
      obtain ⟨front, back, whole, rfl⟩ := split_of_getElem? held
      rw [number, Position.offset, Nat.add_zero, whole, List.take_left, List.drop_left] at children
      refine ⟨filled, front.length, ?_, ?_⟩
      · rw [findParent?_eq_some_iff distinct', ← childIds, children]
        exact ⟨member, by simp⟩
      · rw [findParent?_eq_some_iff distinct', ← childIds, children]
        exact ⟨member, by simp⟩
  | after =>
      obtain ⟨index, held, number⟩ := reached
      obtain ⟨front, back, whole, rfl⟩ := split_of_getElem? held
      have ahead : front ++ target :: back = (front ++ [target]) ++ back := by simp
      have length : (front ++ [target]).length = front.length + 1 := by simp
      rw [number, Position.offset, whole, ahead, ← length, List.take_left, List.drop_left] at children
      refine ⟨filled, front.length, ?_, ?_⟩
      · rw [findParent?_eq_some_iff distinct', ← childIds, children]
        exact ⟨member, by simp⟩
      · rw [findParent?_eq_some_iff distinct', ← childIds, children]
        exact ⟨member, by simp⟩

end Node

namespace Outline

variable {outline after : Outline} {dragged target : Text} {position : Position}

theorem exists_taken {root : Node} (distinct : root.ids.Nodup) (listed : dragged ∈ root.ids)
    (other : dragged ≠ root.id) :
    ∃ shelves without item, root.find? dragged = some item ∧ item.id = dragged ∧
      root.extract dragged = (without, some item) ∧ Node.Adds shelves item without root ∧
      without.ids.Nodup ∧ dragged ∉ without.ids := by
  obtain ⟨item, member, rfl⟩ := Node.exists_of_mem_ids listed
  obtain ⟨shelves, place⟩ := Node.exists_nest root member
  rcases List.eq_nil_or_concat shelves with rfl | ⟨outer, shelf, rfl⟩
  · cases place
    exact absurd rfl other
  · rw [List.concat_eq_append] at place
    obtain ⟨without, taken, adds⟩ := Node.extract_nest distinct place
    exact ⟨_, without, item, (Node.find?_eq_some_iff distinct).mpr ⟨member, rfl⟩, rfl, taken, adds,
      adds.nodup distinct, adds.disjoint distinct item.id_mem_own⟩

/-- A move takes a node out of the tree with all that is below it, and puts it where the position
says. Everything else stays as it is: taking the node out again leaves the same tree. -/
theorem moveItem_carries_subtree (outline after : Outline) (dragged target : Text)
    (position : Position) (distinct : outline.root.ids.Nodup)
    (done : outline.moveItem dragged target position = .ok after) :
    after.settings = outline.settings ∧ after.nextId = outline.nextId ∧
      (outline.root.extract dragged).2.isSome ∧
      after.root.extract dragged = outline.root.extract dragged ∧
      after.root.Stands dragged target position := by
  obtain ⟨other, known, _, _, without, item, place, root, taken, found, inserted, rfl⟩ :=
    moveItem_ok done
  obtain ⟨moved, search⟩ := Option.isSome_iff_exists.mp known
  obtain ⟨member, named⟩ := Node.mem_of_find? outline.root search
  obtain ⟨_, _, _, _, same, taken', _, distinct', fresh⟩ :=
    exists_taken distinct (named ▸ Node.id_mem_ids member) other.symm
  cases taken.symm.trans taken'
  subst same
  obtain ⟨shelves, shelf, _, adds⟩ := Node.adds_of_insert distinct' inserted
  have distinct'' : root.ids.Nodup := by
    have permuted := ((Node.grows_insert inserted).swap (Node.grows_extract taken)).ids
    exact permuted.nodup_iff.mp distinct
  have reached := ((Node.resolvePlacement_of_not_mem distinct' fresh).mp found).2.1
  refine ⟨rfl, rfl, ?_, ?_, Node.stands_of_insert distinct' distinct'' reached inserted⟩
  · rw [taken]
    rfl
  · rw [taken]
    exact adds.extract fresh

def menuAndNote : Outline :=
  new {} (.menu rootId "Main Menu".toList [.menu (itemId 1) "A".toList
    [.note (itemId 2) "B".toList "x".toList], .note (itemId 3) "C".toList "y".toList])

theorem moveItem_carries_subtree_menuAndNote :
    menuAndNote.root.ids.Nodup ∧ ∃ after,
      menuAndNote.moveItem (itemId 1) (itemId 3) .after = .ok after ∧
      after.root.extract (itemId 1) = menuAndNote.root.extract (itemId 1) ∧
      after.root.Stands (itemId 1) (itemId 3) .after := by
  have distinct : menuAndNote.root.ids.Nodup := by decide
  have done : menuAndNote.moveItem (itemId 1) (itemId 3) .after =
      .ok (new {} (.menu rootId "Main Menu".toList [.note (itemId 3) "C".toList "y".toList,
        .menu (itemId 1) "A".toList [.note (itemId 2) "B".toList "x".toList]])) := rfl
  obtain ⟨_, _, _, rest, stands⟩ := moveItem_carries_subtree _ _ _ _ _ distinct done
  exact ⟨distinct, _, done, rest, stands⟩

/-- Once a node is taken out, a menu has room if it had room or held the node, and was not too full. -/
theorem length_erase_lt_iff {ids : List Text} {limit : Nat} :
    (ids.erase dragged).length < limit ↔
      (ids.length < limit ∨ dragged ∈ ids) ∧ (dragged ∈ ids → ids.length ≤ limit) := by
  by_cases held : dragged ∈ ids
  · have some := List.length_pos_of_mem held
    rw [List.length_erase_of_mem held]
    simp only [held, or_true, true_and, forall_const]
    omega
  · simp [List.erase_of_not_mem held, held]

/-- A node may be moved if it may be placed, unless the menu at the place already holds it and is
too full: such a menu has no room left for the node once it is taken out. -/
theorem moveItem_succeeds_iff (outline : Outline) (dragged target : Text) (position : Position)
    (distinct : outline.root.ids.Nodup) (listed : dragged ∈ outline.root.ids)
    (aimed : target ∈ outline.root.ids) (other : dragged ≠ outline.root.id) :
    (∃ after, outline.moveItem dragged target position = .ok after) ↔
      ∃ place, outline.root.resolvePlacement dragged target position
          outline.settings.maxItemsPerMenu = some place ∧
        (dragged ∈ place.parent.childIds →
          place.parent.childIds.length ≤ outline.settings.maxItemsPerMenu) := by
  obtain ⟨shelves, without, item, search, named, taken, adds, distinct', fresh⟩ :=
    exists_taken distinct listed other
  constructor
  · rintro ⟨after, done⟩
    obtain ⟨_, _, _, allowed, _, _, spot, _, taken', again, _, _⟩ := moveItem_ok done
    cases taken.symm.trans taken'
    obtain ⟨place, found⟩ := Option.isSome_iff_exists.mp allowed
    refine ⟨place, found, ?_⟩
    intro held
    obtain ⟨_, outside, reached, _⟩ := (Node.resolvePlacement_eq_some_iff distinct).mp found
    obtain ⟨old, reached', _, _, children⟩ := adds.exists_place distinct (outside item search) reached
    obtain ⟨_, same, _, room⟩ := (Node.resolvePlacement_of_not_mem distinct' fresh).mp again
    cases reached'.symm.trans same
    rw [children, named, length_erase_lt_iff] at room
    exact room.2 held
  · rintro ⟨place, found, few⟩
    obtain ⟨differ, outside, reached, takes⟩ := (Node.resolvePlacement_eq_some_iff distinct).mp found
    rw [Placement.takes, Bool.and_eq_true, Node.hasRoom_eq] at takes
    obtain ⟨isMenu, space⟩ := takes
    obtain ⟨old, reached', _, kind, children⟩ :=
      adds.exists_place distinct (outside item search) reached
    have room : old.parent.childIds.length < outline.settings.maxItemsPerMenu := by
      rw [children, named, length_erase_lt_iff]
      exact ⟨space, few⟩
    have again := (Node.resolvePlacement_of_not_mem distinct' fresh).mpr
      ⟨differ, reached', kind.trans isMenu, room⟩
    have kept := ((Node.place?_eq_some_iff distinct').mp reached').1
    obtain ⟨_, edited, inserted, _⟩ :=
      Node.adds_insert distinct' kept (kind.trans isMenu) old.index item
    obtain ⟨goal, member, rfl⟩ := Node.exists_of_mem_ids aimed
    have present := (Node.find?_eq_some_iff distinct).mpr ⟨member, rfl⟩
    refine ⟨outline.withRoot edited, ?_⟩
    simp only [moveItem, if_neg (Ne.symm other), search, present, found, taken, again, inserted,
      Option.isNone_some, Bool.false_eq_true, if_false]
    rfl

def threeNotes (limit : Nat) : Outline :=
  new { maxItemsPerMenu := limit } (.menu rootId "Main Menu".toList
    [.note (itemId 1) "A".toList [], .note (itemId 2) "B".toList [], .note (itemId 3) "C".toList []])

theorem moveItem_succeeds_iff_threeNotes :
    (∃ after, (threeNotes 3).moveItem (itemId 1) (itemId 2) .after = .ok after) ∧
      ¬ ∃ after, (threeNotes 2).moveItem (itemId 1) (itemId 2) .after = .ok after := by
  constructor
  · rw [moveItem_succeeds_iff (threeNotes 3) (itemId 1) (itemId 2) .after (by decide) (by decide)
      (by decide) (by decide)]
    exact ⟨_, rfl, by decide⟩
  · rw [moveItem_succeeds_iff (threeNotes 2) (itemId 1) (itemId 2) .after (by decide) (by decide)
      (by decide) (by decide)]
    rintro ⟨place, found, few⟩
    cases found
    revert few
    decide

/-- Not every node that may be placed may be moved: the check of the place passes a menu that holds
the node, however full it is, and the move does not. -/
theorem placement_not_moved :
    ¬ ∀ (outline : Outline) (dragged target : Text) (position : Position),
      outline.root.ids.Nodup → dragged ∈ outline.root.ids → target ∈ outline.root.ids →
      dragged ≠ outline.root.id →
      ((∃ after, outline.moveItem dragged target position = .ok after) ↔
        (outline.root.resolvePlacement dragged target position
          outline.settings.maxItemsPerMenu).isSome) := by
  intro agree
  have refused : (threeNotes 2).moveItem (itemId 1) (itemId 2) .after =
      .error (.illegalPlacement (itemId 1) (itemId 2) .after) := rfl
  obtain ⟨after, done⟩ := (agree (threeNotes 2) (itemId 1) (itemId 2) .after (by decide) (by decide)
    (by decide) (by decide)).mpr (by decide)
  cases refused.symm.trans done

end Outline

end CalcApp
