import CalcApp.Proofs.Node
import Mathlib.Data.List.Perm.Basic

namespace CalcApp.Node

theorem id_mem_ids {node root : Node} (member : node ∈ root.nodes) : node.id ∈ root.ids := by
  rw [← nodes_map_id]
  exact List.mem_map_of_mem member

theorem exists_of_mem_ids {root : Node} {target : Text} (member : target ∈ root.ids) :
    ∃ node ∈ root.nodes, node.id = target := by
  rw [← nodes_map_id] at member
  exact List.mem_map.mp member

theorem eq_of_id {first second root : Node} (distinct : root.ids.Nodup)
    (member : first ∈ root.nodes) (other : second ∈ root.nodes) (same : first.id = second.id) :
    first = second := by
  rw [← nodes_map_id] at distinct
  exact List.inj_on_of_nodup_map distinct member other same

mutual

theorem nodes_subset_of_mem {node : Node} :
    (root : Node) → node ∈ root.nodes → node.nodes ⊆ root.nodes
  | .menu id title children, member => by
      rw [nodes_menu] at member ⊢
      rcases List.mem_cons.mp member with rfl | below
      · rw [nodes_menu]
        exact List.Subset.refl _
      · exact List.subset_cons_of_subset _ (nodes_subset_of_mem_flatMap children below)
  | .note id title content, member => by
      rw [nodes_note] at member ⊢
      rw [List.mem_singleton.mp member, nodes_note]
      exact List.Subset.refl _
  | .code id title content, member => by
      rw [nodes_code] at member ⊢
      rw [List.mem_singleton.mp member, nodes_code]
      exact List.Subset.refl _

theorem nodes_subset_of_mem_flatMap {node : Node} :
    (children : List Node) → node ∈ children.flatMap nodes → node.nodes ⊆ children.flatMap nodes
  | [], member => by cases member
  | child :: rest, member => by
      rw [List.flatMap_cons] at member ⊢
      rcases List.mem_append.mp member with first | later
      · exact List.subset_append_of_subset_left _ (nodes_subset_of_mem child first)
      · exact List.subset_append_of_subset_right _ (nodes_subset_of_mem_flatMap rest later)

end

theorem mem_nodes_of_child {child parent root : Node} (member : parent ∈ root.nodes)
    (held : child ∈ parent.children) : child ∈ root.nodes := by
  apply nodes_subset_of_mem root member
  exact mem_nodes_of_below (mem_nodes_of_mem held)

mutual

theorem mem_of_find? {target : Text} {found : Node} :
    (node : Node) → node.find? target = some found → found ∈ node.nodes ∧ found.id = target
  | .menu id title children, search => by
      rw [find?] at search
      split at search
      · rename_i same
        cases search
        exact ⟨mem_nodes_self _, same⟩
      · obtain ⟨below, same⟩ := mem_of_findIn? children search
        exact ⟨mem_nodes_of_below below, same⟩
  | .note id title content, search => by
      rw [find?] at search
      split at search
      · rename_i same
        cases search
        exact ⟨mem_nodes_self _, same⟩
      · cases search
  | .code id title content, search => by
      rw [find?] at search
      split at search
      · rename_i same
        cases search
        exact ⟨mem_nodes_self _, same⟩
      · cases search

theorem mem_of_findIn? {target : Text} {found : Node} :
    (children : List Node) → findIn? target children = some found →
      found ∈ children.flatMap nodes ∧ found.id = target
  | [], search => by
      rw [findIn?] at search
      cases search
  | child :: rest, search => by
      rw [findIn?, Option.or_eq_some_iff] at search
      rw [List.flatMap_cons]
      rcases search with first | ⟨_, later⟩
      · obtain ⟨inside, same⟩ := mem_of_find? child first
        exact ⟨List.mem_append_left _ inside, same⟩
      · obtain ⟨inside, same⟩ := mem_of_findIn? rest later
        exact ⟨List.mem_append_right _ inside, same⟩

end

mutual

theorem not_mem_of_find? {target : Text} :
    (node : Node) → node.find? target = none → target ∉ node.ids
  | .menu id title children, missing => by
      rw [find?] at missing
      split at missing
      · cases missing
      · rename_i other
        have below := not_mem_of_findIn? children missing
        rw [ids, List.mem_cons, not_or]
        exact ⟨fun same => other same.symm, below⟩
  | .note id title content, missing => by
      rw [find?] at missing
      split at missing
      · cases missing
      · rename_i other
        rw [ids, List.mem_singleton]
        exact fun same => other same.symm
  | .code id title content, missing => by
      rw [find?] at missing
      split at missing
      · cases missing
      · rename_i other
        rw [ids, List.mem_singleton]
        exact fun same => other same.symm

theorem not_mem_of_findIn? {target : Text} :
    (children : List Node) → findIn? target children = none → target ∉ idsIn children
  | [], _ => by
      rw [idsIn]
      exact List.not_mem_nil
  | child :: rest, missing => by
      rw [findIn?, Option.or_eq_none_iff] at missing
      have first := not_mem_of_find? child missing.1
      have later := not_mem_of_findIn? rest missing.2
      rw [idsIn, List.mem_append, not_or]
      exact ⟨first, later⟩

end

theorem findIn?_of_not_mem {target : Text} {children : List Node} (absent : target ∉ idsIn children) :
    findIn? target children = none := by
  cases search : findIn? target children with
  | none => rfl
  | some found =>
      obtain ⟨member, rfl⟩ := mem_of_findIn? children search
      rw [← flatMap_nodes_map_id] at absent
      exact absurd (List.mem_map_of_mem member) absent

theorem find?_of_not_mem {root : Node} {target : Text} (absent : target ∉ root.ids) :
    root.find? target = none := by
  cases search : root.find? target with
  | none => rfl
  | some found =>
      obtain ⟨member, rfl⟩ := mem_of_find? root search
      exact absurd (id_mem_ids member) absent

theorem find?_eq_some_iff {root node : Node} {target : Text} (distinct : root.ids.Nodup) :
    root.find? target = some node ↔ node ∈ root.nodes ∧ node.id = target := by
  constructor
  · exact mem_of_find? root
  · rintro ⟨member, rfl⟩
    cases search : root.find? node.id with
    | none => exact absurd (id_mem_ids member) (not_mem_of_find? root search)
    | some found =>
        obtain ⟨listed, same⟩ := mem_of_find? root search
        rw [eq_of_id distinct listed member same]

mutual

theorem mem_of_findParent? {target : Text} {parent : Node} {index : Nat} :
    (node : Node) → node.findParent? target = some (parent, index) →
      parent ∈ node.nodes ∧ (parent.children.map Node.id)[index]? = some target
  | .menu id title children, search => by
      rw [findParent?] at search
      rw [nodes_menu]
      rcases mem_of_findParentIn? children search with ⟨rfl, place, rfl, held⟩ | ⟨below, held⟩
      · exact ⟨.head _, by simpa [Node.children] using held⟩
      · exact ⟨.tail _ below, held⟩
  | .note id title content, search => by
      rw [findParent?] at search
      cases search
  | .code id title content, search => by
      rw [findParent?] at search
      cases search

theorem mem_of_findParentIn? {target : Text} {holder parent : Node} {start index : Nat} :
    (children : List Node) → findParentIn? target holder start children = some (parent, index) →
      (parent = holder ∧ ∃ place, index = start + place ∧
        (children.map Node.id)[place]? = some target) ∨
      (parent ∈ children.flatMap nodes ∧ (parent.children.map Node.id)[index]? = some target)
  | [], search => by
      rw [findParentIn?] at search
      cases search
  | child :: rest, search => by
      rw [findParentIn?] at search
      rw [List.flatMap_cons]
      split at search
      · rename_i same
        cases search
        exact .inl ⟨rfl, 0, rfl, by simp [same]⟩
      · rcases Option.or_eq_some_iff.mp search with inside | ⟨_, later⟩
        · obtain ⟨below, held⟩ := mem_of_findParent? child inside
          exact .inr ⟨List.mem_append_left _ below, held⟩
        · rcases mem_of_findParentIn? rest later with ⟨same, place, shift, held⟩ | ⟨below, held⟩
          · exact .inl ⟨same, place + 1, by omega, by simpa using held⟩
          · exact .inr ⟨List.mem_append_right _ below, held⟩

end

theorem findParentIn?_of_not_mem {target : Text} {holder : Node} {children : List Node} {start : Nat}
    (absent : target ∉ idsIn children) : findParentIn? target holder start children = none := by
  cases search : findParentIn? target holder start children with
  | none => rfl
  | some found =>
      have listed : target ∈ (children.flatMap nodes).map Node.id := by
        rcases mem_of_findParentIn? children search with ⟨_, place, _, held⟩ | ⟨below, held⟩
        · obtain ⟨child, member, named⟩ := List.mem_map.mp (List.mem_of_getElem? held)
          exact named ▸ List.mem_map_of_mem (mem_nodes_of_mem member)
        · obtain ⟨child, member, named⟩ := List.mem_map.mp (List.mem_of_getElem? held)
          have inside := nodes_subset_of_mem_flatMap children below
          exact named ▸ List.mem_map_of_mem (inside (mem_nodes_of_below (mem_nodes_of_mem member)))
      rw [flatMap_nodes_map_id] at listed
      exact absurd listed absent

mutual

/-- Every node below the root is the child of one node of the tree. -/
theorem perm_childIds :
    (root : Node) → (root.nodes.flatMap fun node => node.children.map Node.id).Perm
      (idsIn root.children)
  | .menu id title children => by
      rw [nodes_menu, List.flatMap_cons]
      exact perm_childIdsIn children
  | .note id title content => by
      rw [nodes_note, List.flatMap_singleton]
      exact .refl _
  | .code id title content => by
      rw [nodes_code, List.flatMap_singleton]
      exact .refl _

theorem perm_childIdsIn :
    (children : List Node) → (children.map Node.id ++
      (children.flatMap nodes).flatMap fun node => node.children.map Node.id).Perm (idsIn children)
  | [] => by
      rw [idsIn]
      exact .refl _
  | child :: rest => by
      have first := perm_childIds child
      have others := perm_childIdsIn rest
      rw [List.map_cons, List.flatMap_cons, List.flatMap_append, idsIn, ids_eq, List.cons_append,
        List.cons_append]
      apply List.Perm.cons
      refine List.Perm.trans ?_ (first.append others)
      rw [← List.append_assoc, ← List.append_assoc]
      exact List.perm_append_comm.append_right _

end

theorem place_eq_of_id {root first second : Node} {target : Text} {i j : Nat}
    (distinct : root.ids.Nodup) (member : first ∈ root.nodes) (other : second ∈ root.nodes)
    (held : (first.children.map Node.id)[i]? = some target)
    (held' : (second.children.map Node.id)[j]? = some target) : first = second ∧ i = j := by
  have below : (root.nodes.flatMap fun node => node.children.map Node.id).Nodup := by
    rw [(perm_childIds root).nodup_iff]
    rw [ids_eq] at distinct
    exact distinct.of_cons
  obtain rfl : first = second :=
    part_unique below member other (List.mem_of_getElem? held) (List.mem_of_getElem? held')
  refine ⟨rfl, ?_⟩
  obtain ⟨bound, _⟩ := List.getElem?_eq_some_iff.mp held
  have once := (List.nodup_flatMap.mp below).1 first member
  exact (List.getElem?_inj bound once).mp (held.trans held'.symm)

theorem mem_idsIn_iff {root : Node} {target : Text} :
    target ∈ idsIn root.children ↔
      ∃ parent ∈ root.nodes, ∃ index : Nat, (parent.children.map Node.id)[index]? = some target := by
  rw [← (perm_childIds root).mem_iff, List.mem_flatMap]
  simp only [List.mem_iff_getElem?]

theorem findParent?_eq_some_iff {root parent : Node} {target : Text} {index : Nat}
    (distinct : root.ids.Nodup) :
    root.findParent? target = some (parent, index) ↔
      parent ∈ root.nodes ∧ (parent.children.map Node.id)[index]? = some target := by
  constructor
  · exact mem_of_findParent? root
  · rintro ⟨member, held⟩
    cases search : root.findParent? target with
    | none =>
        have below : target ∈ idsIn root.children := mem_idsIn_iff.mpr ⟨parent, member, index, held⟩
        exact absurd below (not_mem_of_findParent? root search)
    | some found =>
        obtain ⟨listed, held'⟩ := mem_of_findParent? root search
        obtain ⟨same, place⟩ := place_eq_of_id distinct listed member held' held
        rw [← same, ← place]

theorem kept_childIds (node : Node) :
    node.kept.children.map Node.id = (node.children.map Node.id).take 8 := by
  rw [kept_children, List.map_map, List.map_take]
  exact congrArg _ (List.map_congr_left fun child _ => kept_id child)

/-- A node is kept if the menu that holds it is, and has room for it. -/
theorem mem_kept_ids_iff {root parent : Node} {target : Text} {index : Nat}
    (distinct : root.ids.Nodup) (member : parent ∈ root.nodes)
    (held : (parent.children.map Node.id)[index]? = some target) :
    target ∈ root.kept.ids ↔ parent.kept ∈ root.kept.nodes ∧ index < 8 := by
  constructor
  · intro listed
    have below : target ∈ idsIn root.children := mem_idsIn_iff.mpr ⟨parent, member, index, held⟩
    rw [ids_eq] at distinct listed
    have inside : target ∈ idsIn root.kept.children := by
      apply (List.mem_cons.mp listed).resolve_left
      intro same
      rw [kept_id] at same
      exact (List.nodup_cons.mp distinct).1 (same ▸ below)
    obtain ⟨menu, shown, place, found⟩ := mem_idsIn_iff.mp inside
    obtain ⟨original, known, rfl⟩ := mem_nodes_kept root shown
    rw [kept_childIds, List.getElem?_take] at found
    split at found
    · rename_i room
      rw [← ids_eq] at distinct
      obtain ⟨rfl, rfl⟩ := place_eq_of_id distinct known member found held
      exact ⟨shown, room⟩
    · cases found
  · rintro ⟨shown, room⟩
    have found : (parent.kept.children.map Node.id)[index]? = some target := by
      rw [kept_childIds, List.getElem?_take, if_pos room, held]
    rw [ids_eq]
    exact List.mem_cons_of_mem _ (mem_idsIn_iff.mpr ⟨_, shown, index, found⟩)

end CalcApp.Node
