import CalcApp.Proofs.Node.Gap

/-! Room beside a node. A menu that is full gets room for an item when others are taken out, but a
node that is to stay keeps the menus that hold it. Whether room can be made is settled by the tree
as it is: no edit that keeps the node makes room where there was none. -/

namespace CalcApp.Node

/-- Room for an item can be made without taking out the node with an id. A menu that holds the node
keeps one child for it, and any other menu can be emptied. -/
def RoomBeside (limit : Nat) (target : Text) (root : Node) : Prop :=
  ∃ menu ∈ root.nodes, menu.isMenu = true ∧ 0 < limit ∧ (target ∈ idsIn menu.children → 1 < limit)

instance (limit : Nat) (target : Text) (root : Node) : Decidable (root.RoomBeside limit target) :=
  inferInstanceAs (Decidable (∃ menu ∈ root.nodes, _))

variable {limit : Nat} {target : Text} {root menu item earlier later edited : Node}
  {shelves : List Shelf} {old new : List Node}

theorem roomBeside_of_limit (isMenu : root.isMenu = true) (wide : 1 < limit) :
    root.RoomBeside limit target :=
  ⟨root, mem_nodes_self root, isMenu, by omega, fun _ => wide⟩

theorem roomBeside_of_room (member : menu ∈ root.nodes) (isMenu : menu.isMenu = true)
    (room : menu.children.length < limit) : root.RoomBeside limit target := by
  refine ⟨menu, member, isMenu, by omega, ?_⟩
  intro held
  have positive : 0 < menu.children.length := by
    apply List.length_pos_iff.mpr
    intro none
    rw [none, idsIn] at held
    cases held
  omega

theorem RoomBeside.nest (room : earlier.RoomBeside limit target)
    (place : [earlier] = nest shelves old) (place' : [later] = nest shelves new)
    (kept : target ∈ idsIn new → target ∈ idsIn old)
    (inner : ∀ menu ∈ old.flatMap nodes, ∃ other ∈ new.flatMap nodes,
      other.isMenu = menu.isMenu ∧ other.children = menu.children) :
    later.RoomBeside limit target := by
  obtain ⟨menu, member, isMenu, positive, spare⟩ := room
  rcases (mem_nodes_nest place).mp member with within | beside | ⟨outer, shelf, below, split, rfl⟩
  · obtain ⟨other, listed, kind, same⟩ := inner menu within
    refine ⟨other, (mem_nodes_nest place').mpr (.inl listed), kind.trans isMenu, positive, ?_⟩
    rw [same]
    exact spare
  · exact ⟨menu, (mem_nodes_nest place').mpr (.inr (.inl beside)), isMenu, positive, spare⟩
  · refine ⟨shelf.hold (Node.nest below new), ?_, rfl, positive, ?_⟩
    · exact (mem_nodes_nest place').mpr (.inr (.inr ⟨outer, shelf, below, split, rfl⟩))
    · intro held
      exact spare (mem_below_hold.mpr ((mem_below_hold.mp held).imp_right kept))

theorem Adds.roomBeside (adds : Adds shelves item earlier later) (other : target ∉ item.ids)
    (room : earlier.RoomBeside limit target) : later.RoomBeside limit target := by
  apply room.nest adds.empty adds.filled
  · intro listed
    rw [idsIn_singleton] at listed
    exact absurd listed other
  · intro menu member
    cases member

theorem revise_keeps {revision : Revision} {node changed : Node}
    (revised : revise revision node = .ok changed) :
    changed.id = node.id ∧ changed.isMenu = node.isMenu ∧ changed.children = node.children := by
  cases node with
  | menu id title children =>
      rw [revise] at revised
      split at revised
      · cases revised
      · cases revised
        exact ⟨rfl, rfl, rfl⟩
  | note id title content =>
      cases revised
      exact ⟨rfl, rfl, rfl⟩
  | code id title content =>
      cases revised
      exact ⟨rfl, rfl, rfl⟩

theorem roomBeside_of_update {id : Text} {revision : Revision} (distinct : root.ids.Nodup)
    (done : root.update id revision = .ok edited) (room : edited.RoomBeside limit target) :
    root.RoomBeside limit target := by
  obtain ⟨shelves, node, changed, _, revised, place, place'⟩ := nest_of_edit distinct done
  obtain ⟨named, kind, children⟩ := revise_keeps revised
  apply room.nest place' place
  · rw [idsIn_singleton, idsIn_singleton, ids_eq, ids_eq, named, children]
    exact fun listed => listed
  · intro menu member
    rw [List.flatMap_singleton, nodes_eq, children] at member
    rw [List.flatMap_singleton]
    rcases List.mem_cons.mp member with rfl | below
    · exact ⟨node, mem_nodes_self node, kind.symm, children.symm⟩
    · exact ⟨menu, mem_nodes_of_below below, rfl, rfl⟩

/-- A node stays as it is when an item is put in, or it is or holds the menu that takes the item. -/
theorem Adds.mem_or_leads {outer : List Shelf} {shelf : Shelf} {node : Node}
    (adds : Adds (outer ++ [shelf]) item earlier later) (member : node ∈ earlier.nodes) :
    node ∈ later.nodes ∨ shelf.id ∈ node.ids := by
  rcases (mem_nodes_nest adds.empty).mp member with none | beside | ⟨upper, top, inner, split, rfl⟩
  · cases none
  · exact .inl ((mem_nodes_nest adds.filled).mpr (.inr (.inl beside)))
  · right
    have last := congrArg List.getLast? split
    rw [List.getLast?_concat, List.getLast?_append_cons] at last
    have listed : shelf ∈ top :: inner := List.mem_of_getLast? last.symm
    have place : [top.hold (Node.nest inner [])] = Node.nest (top :: inner) [] := rfl
    apply (perm_ids_nest place).symm.subset
    exact List.mem_append_left _ (List.mem_flatMap.mpr ⟨shelf, listed, shelf.id_mem_ids⟩)

/-- Room beside a node was there before an item was moved into a menu that has room. With a limit of
one, the item left that menu empty, or the menu was empty before. -/
theorem roomBeside_of_move {outer outer' : List Shelf} {shelf shelf' : Shelf} {without : Node}
    (distinct : root.ids.Nodup) (isMenu : root.isMenu = true)
    (taken : Adds (outer ++ [shelf]) item without root)
    (put : Adds (outer' ++ [shelf']) item without edited)
    (few : (shelf'.hold []).children.length < limit) (room : edited.RoomBeside limit target) :
    root.RoomBeside limit target := by
  by_cases wide : 1 < limit
  · exact roomBeside_of_limit isMenu wide
  obtain ⟨menu, member, kind, positive, spare⟩ := room
  rcases (mem_nodes_nest put.filled).mp member with
    within | ⟨other, listed, beside⟩ | ⟨upper, other, inner, split, rfl⟩
  · exact ⟨menu, (mem_nodes_nest taken.filled).mpr (.inl within), kind, positive, spare⟩
  · have kept : menu ∈ without.nodes :=
      (mem_nodes_nest put.empty).mpr (.inr (.inl ⟨other, listed, beside⟩))
    rcases taken.mem_or_leads kept with before | above
    · exact ⟨menu, before, kind, positive, spare⟩
    rcases taken.mem_or_leads (hold_mem_nodes put.empty) with before | same
    · exact roomBeside_of_room before rfl few
    -- the item went back where it was, so that the menu above that place holds it again
    · have empty : (shelf'.hold []).children = [] := List.eq_nil_of_length_eq_zero (by omega)
      rw [ids_eq, empty, idsIn, List.mem_singleton] at same
      rw [same] at above
      exact absurd above (id_not_mem_of_beside (taken.nodup distinct) put.empty listed beside)
  · have outside : target ∉ item.ids := by
      intro held
      rw [← idsIn_singleton] at held
      exact wide (spare (mem_below_hold.mpr (.inr held)))
    apply taken.roomBeside outside
    refine ⟨other.hold (nest inner []), ?_, rfl, positive, ?_⟩
    · exact (mem_nodes_nest put.empty).mpr (.inr (.inr ⟨upper, other, inner, split, rfl⟩))
    · intro held
      apply spare
      rw [mem_below_hold] at held ⊢
      exact held.imp_right fun none => absurd none List.not_mem_nil

/-- Of the children of a full menu, one can go and leave a node where it is. -/
theorem exists_item_apart (distinct : menu.ids.Nodup) (isMenu : menu.isMenu = true)
    (positive : 0 < limit) (full : limit ≤ menu.children.length)
    (spare : target ∈ idsIn menu.children → 1 < limit) :
    ∃ shelf item, menu = Shelf.hold shelf [item] ∧ target ∉ item.ids := by
  cases menu with
  | menu id title children =>
      rw [ids, List.nodup_cons] at distinct
      rw [Node.children] at full spare
      match children with
      | [] =>
          rw [List.length_nil] at full
          omega
      | [only] =>
          refine ⟨⟨id, title, [], []⟩, only, rfl, ?_⟩
          intro held
          rw [idsIn_singleton] at spare
          have := spare held
          rw [List.length_singleton] at full
          omega
      | first :: second :: others =>
          by_cases held : target ∈ first.ids
          · refine ⟨⟨id, title, [first], others⟩, second, rfl, ?_⟩
            rw [idsIn, idsIn, List.nodup_append'] at distinct
            intro again
            exact distinct.2.2.2 held (List.mem_append_left _ again)
          · exact ⟨⟨id, title, [], second :: others⟩, first, rfl, held⟩
  | note id title content => cases isMenu
  | code id title content => cases isMenu

theorem exists_extract (distinct : root.ids.Nodup) (listed : target ∈ root.ids)
    (member : menu ∈ root.nodes) (isMenu : menu.isMenu = true) (positive : 0 < limit)
    (full : limit ≤ menu.children.length) (spare : target ∈ idsIn menu.children → 1 < limit) :
    ∃ id without removed smaller, root.id ≠ id ∧ root.extract id = (without, some removed) ∧
      without.ids.Nodup ∧ target ∈ without.ids ∧ smaller ∈ without.nodes ∧
      smaller.isMenu = true ∧ smaller.children.length < menu.children.length ∧
      (target ∈ idsIn smaller.children → 1 < limit) := by
  obtain ⟨shelves, place⟩ := exists_nest root member
  have own : menu.ids.Nodup := by
    have all := (perm_ids_nest place).nodup_iff.mp distinct
    rw [idsIn_singleton] at all
    exact (List.nodup_append'.mp all).2.1
  obtain ⟨shelf, item, rfl, apart⟩ := exists_item_apart own isMenu positive full spare
  rw [← nest_concat] at place
  obtain ⟨without, taken, adds⟩ := extract_nest distinct place
  refine ⟨item.id, without, item, shelf.hold [], ?_, taken, adds.nodup distinct, ?_, ?_, rfl, ?_, ?_⟩
  · rw [adds.id_eq]
    intro same
    apply adds.disjoint distinct (id_mem_own item)
    rw [← same]
    exact id_mem_own without
  · exact (List.mem_append.mp (adds.perm.subset listed)).resolve_left apart
  · exact hold_mem_nodes adds.empty
  · simp [Shelf.hold, Node.children]
  · intro held
    apply spare
    rw [(shelf.perm_below_hold _).mem_iff, List.mem_append] at held ⊢
    exact held.imp_right fun none => absurd none List.not_mem_nil

end CalcApp.Node
