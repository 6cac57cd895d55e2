import CalcApp.Node.Placement
import CalcApp.Proofs.Event
import CalcApp.Proofs.Node.Find

namespace CalcApp.Node

/-- No node of `later` has more children than a node of `earlier` with its id. -/
def Remains (earlier later : List Node) : Prop :=
  ∀ node ∈ later, ∃ old ∈ earlier, old.id = node.id ∧ node.children.length ≤ old.children.length

namespace Remains

variable {earlier middle later : List Node}

theorem of_subset (subset : later ⊆ earlier) : Remains earlier later :=
  fun node member => ⟨node, subset member, rfl, Nat.le_refl _⟩

theorem trans (first : Remains earlier middle) (second : Remains middle later) :
    Remains earlier later := by
  intro node member
  obtain ⟨between, listed, same, fewer⟩ := second node member
  obtain ⟨old, held, same', fewer'⟩ := first between listed
  exact ⟨old, held, same'.trans same, Nat.le_trans fewer fewer'⟩

theorem mono (subset : earlier ⊆ middle) (remains : Remains earlier later) :
    Remains middle later := (of_subset subset).trans remains

theorem widen {added : List Node} (subset : earlier ⊆ middle)
    (remains : Remains (added ++ earlier) later) : Remains (added ++ middle) later := by
  apply remains.mono
  apply List.append_subset.mpr
  exact ⟨List.subset_append_left _ _, List.subset_append_of_subset_right _ subset⟩

theorem append {front back : List Node} (first : Remains earlier front)
    (second : Remains earlier back) : Remains earlier (front ++ back) := by
  intro node member
  rcases List.mem_append.mp member with before | after
  · exact first node before
  · exact second node after

theorem cons {old node : Node} (held : old ∈ earlier) (same : old.id = node.id)
    (fewer : node.children.length ≤ old.children.length) (remains : Remains earlier later) :
    Remains earlier (node :: later) := by
  intro other member
  rcases List.mem_cons.mp member with rfl | below
  · exact ⟨old, held, same, fewer⟩
  · exact remains other below

end Remains

mutual

theorem remains_strip? {target : Text} {stripped removed : Node} :
    (node : Node) → strip? target node = some (stripped, removed) →
      Remains node.nodes stripped.nodes ∧ removed ∈ node.nodes ∧ removed.id = target
  | .menu id title children, taken => by
      rw [strip?, Option.map_eq_some_iff] at taken
      obtain ⟨⟨rest, gone⟩, inside, same⟩ := taken
      cases same
      obtain ⟨remains, fewer, member, named⟩ := remains_stripIn? children inside
      rw [nodes_menu, nodes_menu]
      refine ⟨?_, .tail _ member, named⟩
      apply Remains.cons (List.mem_cons_self ..)
      · rfl
      · exact fewer
      · exact remains.mono (List.subset_cons_self ..)
  | .note _ _ _, taken => by
      rw [strip?] at taken
      cases taken
  | .code _ _ _, taken => by
      rw [strip?] at taken
      cases taken

theorem remains_stripIn? {target : Text} {rest : List Node} {removed : Node} :
    (children : List Node) → stripIn? target children = some (rest, removed) →
      Remains (children.flatMap nodes) (rest.flatMap nodes) ∧ rest.length ≤ children.length ∧
        removed ∈ children.flatMap nodes ∧ removed.id = target
  | [], taken => by
      rw [stripIn?] at taken
      cases taken
  | child :: others, taken => by
      rw [stripIn?] at taken
      rw [List.flatMap_cons]
      split at taken
      · rename_i same
        cases taken
        refine ⟨.of_subset (List.subset_append_right _ _), Nat.le_succ _, ?_, same⟩
        exact List.mem_append_left _ (mem_nodes_self _)
      · split at taken
        · rename_i stripped gone inside
          cases taken
          obtain ⟨remains, member, named⟩ := remains_strip? child inside
          rw [List.flatMap_cons]
          refine ⟨?_, Nat.le_refl _, List.mem_append_left _ member, named⟩
          apply Remains.append
          · exact remains.mono (List.subset_append_left _ _)
          · exact .of_subset (List.subset_append_right _ _)
        · rw [Option.map_eq_some_iff] at taken
          obtain ⟨⟨left, gone⟩, later, same⟩ := taken
          cases same
          obtain ⟨remains, fewer, member, named⟩ := remains_stripIn? others later
          rw [List.flatMap_cons]
          refine ⟨?_, Nat.succ_le_succ fewer, List.mem_append_right _ member, named⟩
          apply Remains.append
          · exact .of_subset (List.subset_append_left _ _)
          · exact remains.mono (List.subset_append_right _ _)

end

theorem remains_extract {root without removed : Node} {target : Text}
    (taken : root.extract target = (without, some removed)) :
    Remains root.nodes without.nodes ∧ removed ∈ root.nodes ∧ removed.id = target := by
  rw [extract] at taken
  split at taken
  · rename_i found
    cases taken
    exact remains_strip? root found
  · cases taken

section Change

variable {target : Text} {change : Node → Except TreeError Node}

mutual

theorem find?_of_editAt? :
    (node : Node) → editAt? target change node = none → node.find? target = none
  | .menu id title children, missing => by
      rw [editAt?] at missing
      rw [find?]
      split at missing
      · cases missing
      · rename_i other
        rw [if_neg other]
        exact findIn?_of_editIn? children (Option.map_eq_none_iff.mp missing)
  | .note id title content, missing => by
      rw [editAt?] at missing
      rw [find?]
      split at missing
      · cases missing
      · rename_i other
        rw [if_neg other]
  | .code id title content, missing => by
      rw [editAt?] at missing
      rw [find?]
      split at missing
      · cases missing
      · rename_i other
        rw [if_neg other]

theorem findIn?_of_editIn? :
    (children : List Node) → editIn? target change children = none → findIn? target children = none
  | [], _ => by rw [findIn?]
  | child :: rest, missing => by
      rw [editIn?] at missing
      split at missing
      · cases missing
      · rename_i absent
        have first := find?_of_editAt? child absent
        have later := findIn?_of_editIn? rest (Option.map_eq_none_iff.mp missing)
        rw [findIn?, first, later]
        rfl

end

mutual

/-- The first node with the id is changed, and all others stay or have a changed child. -/
theorem remains_editAt? {edited : Node} :
    (node : Node) → editAt? target change node = some (.ok edited) →
      ∃ found changed, node.find? target = some found ∧ change found = .ok changed ∧
        changed ∈ edited.nodes ∧ Remains (changed.nodes ++ node.nodes) edited.nodes
  | .menu id title children, done => by
      rw [editAt?] at done
      rw [find?]
      split at done
      · rename_i same
        rw [if_pos same]
        exact ⟨_, edited, rfl, Option.some.inj done, mem_nodes_self _,
          .of_subset (List.subset_append_left _ _)⟩
      · rename_i other
        rw [if_neg other]
        rw [Option.map_eq_some_iff] at done
        obtain ⟨result, inside, same⟩ := done
        obtain ⟨others, rfl, rfl⟩ := Outcome.map_eq_ok same
        obtain ⟨found, changed, search, applied, member, length, remains⟩ :=
          remains_editIn? children inside
        refine ⟨found, changed, search, applied, mem_nodes_of_below member, ?_⟩
        rw [nodes_menu, nodes_menu]
        apply Remains.cons (List.mem_append_right _ (List.mem_cons_self ..))
        · rfl
        · exact Nat.le_of_eq length
        · exact remains.widen (List.subset_cons_self ..)
  | .note id title content, done => by
      rw [editAt?] at done
      rw [find?]
      split at done
      · rename_i same
        rw [if_pos same]
        exact ⟨_, edited, rfl, Option.some.inj done, mem_nodes_self _,
          .of_subset (List.subset_append_left _ _)⟩
      · cases done
  | .code id title content, done => by
      rw [editAt?] at done
      rw [find?]
      split at done
      · rename_i same
        rw [if_pos same]
        exact ⟨_, edited, rfl, Option.some.inj done, mem_nodes_self _,
          .of_subset (List.subset_append_left _ _)⟩
      · cases done

theorem remains_editIn? {edited : List Node} :
    (children : List Node) → editIn? target change children = some (.ok edited) →
      ∃ found changed, findIn? target children = some found ∧ change found = .ok changed ∧
        changed ∈ edited.flatMap nodes ∧ edited.length = children.length ∧
        Remains (changed.nodes ++ children.flatMap nodes) (edited.flatMap nodes)
  | [], done => by
      rw [editIn?] at done
      cases done
  | child :: rest, done => by
      rw [editIn?] at done
      rw [findIn?, List.flatMap_cons]
      split at done
      · rename_i result inside
        obtain ⟨other, rfl, rfl⟩ := Outcome.map_eq_ok (Option.some.inj done)
        obtain ⟨found, changed, search, applied, member, remains⟩ := remains_editAt? child inside
        rw [List.flatMap_cons, search]
        refine ⟨found, changed, rfl, applied, List.mem_append_left _ member, rfl, ?_⟩
        rw [← List.append_assoc]
        apply Remains.append
        · exact remains.mono (List.subset_append_left _ _)
        · exact .of_subset (List.subset_append_right _ _)
      · rename_i absent
        rw [Option.map_eq_some_iff] at done
        obtain ⟨result, later, same⟩ := done
        obtain ⟨others, rfl, rfl⟩ := Outcome.map_eq_ok same
        obtain ⟨found, changed, search, applied, member, length, remains⟩ :=
          remains_editIn? rest later
        rw [List.flatMap_cons, find?_of_editAt? child absent, search]
        refine ⟨found, changed, rfl, applied, List.mem_append_right _ member, ?_, ?_⟩
        · exact congrArg (· + 1) length
        · apply Remains.append
          · exact .of_subset (List.subset_append_of_subset_right _ (List.subset_append_left _ _))
          · exact remains.widen (List.subset_append_right _ _)

end

theorem remains_edit {root edited : Node} (done : root.edit target change = .ok edited) :
    ∃ found changed, root.find? target = some found ∧ change found = .ok changed ∧
      changed ∈ edited.nodes ∧ Remains (changed.nodes ++ root.nodes) edited.nodes := by
  rw [edit] at done
  cases result : editAt? target change root with
  | none =>
      rw [result] at done
      cases done
  | some outcome =>
      rw [result] at done
      exact remains_editAt? root (result.trans (congrArg some done))

end Change

/-- An item that is put in stands in the menu with the id, which has one child more than before. -/
theorem remains_insert {root item edited : Node} {parent : Text} {index : Nat}
    (done : root.insert parent index item = .ok edited) :
    ∃ menu filled, root.find? parent = some menu ∧ filled ∈ edited.nodes ∧ item ∈ filled.children ∧
      filled.id = parent ∧ filled.children.length = menu.children.length + 1 ∧
      Remains (filled :: item.nodes ++ root.nodes) edited.nodes := by
  obtain ⟨menu, filled, search, added, member, remains⟩ := remains_edit done
  obtain ⟨listed, named⟩ := mem_of_find? root search
  refine ⟨menu, filled, search, member, ?_⟩
  cases menu with
  | menu id title children =>
      cases added
      have whole : children.flatMap nodes =
          (children.take index).flatMap nodes ++ (children.drop index).flatMap nodes := by
        rw [← List.flatMap_append, List.take_append_drop]
      have below : children.flatMap nodes ⊆ root.nodes :=
        fun _ member => nodes_subset_of_mem root listed (mem_nodes_of_below member)
      rw [whole] at below
      obtain ⟨front, back⟩ := List.append_subset.mp below
      refine ⟨List.mem_append_right _ (List.mem_cons_self ..), named, ?_, ?_⟩
      · simp only [Node.children, List.length_append, List.length_cons, List.length_take,
          List.length_drop]
        omega
      · apply remains.mono
        rw [nodes_menu, List.flatMap_append, List.flatMap_cons]
        apply List.append_subset.mpr
        refine ⟨?_, List.subset_append_right _ _⟩
        apply List.cons_subset_cons
        apply List.append_subset.mpr
        refine ⟨List.subset_append_of_subset_right _ front, ?_⟩
        apply List.append_subset.mpr
        exact ⟨List.subset_append_left _ _, List.subset_append_of_subset_right _ back⟩
  | note id title content => cases added
  | code id title content => cases added

theorem remains_update {root edited : Node} {target : Text} {revision : Revision}
    (done : root.update target revision = .ok edited) : Remains root.nodes edited.nodes := by
  obtain ⟨found, changed, search, revised, _, remains⟩ := remains_edit done
  have below := nodes_subset_of_mem root (mem_of_find? root search).1
  refine Remains.trans ?_ remains
  apply Remains.append ?_ (.of_subset (List.Subset.refl _))
  cases found with
  | menu id title children =>
      rw [revise] at revised
      split at revised
      · cases revised
      · cases revised
        rw [nodes_menu] at below ⊢
        apply Remains.cons (below (List.mem_cons_self ..))
        · rfl
        · exact Nat.le_refl _
        · exact .of_subset (List.cons_subset.mp below).2
  | note id title content =>
      cases revised
      rw [nodes_note] at below ⊢
      apply Remains.cons (below (List.mem_cons_self ..))
      · rfl
      · exact Nat.le_refl _
      · exact .of_subset (List.nil_subset _)
  | code id title content =>
      cases revised
      rw [nodes_code] at below ⊢
      apply Remains.cons (below (List.mem_cons_self ..))
      · rfl
      · exact Nat.le_refl _
      · exact .of_subset (List.nil_subset _)

theorem room_of_placeInside {max : Nat} {dragged : Text} {menu : Node} {place : Placement}
    (found : placeInside max dragged menu = some place) :
    place.parent = menu ∧ hasRoom max dragged menu = true := by
  rw [placeInside] at found
  split at found
  · rename_i allowed
    cases found
    rw [Bool.and_eq_true] at allowed
    exact ⟨rfl, allowed.2⟩
  · cases found

mutual

theorem room_of_locate? {max : Nat} {dragged target : Text} {position : Position}
    {place : Placement} :
    (node : Node) → locate? max dragged target position node = some place →
      place.parent ∈ node.nodes ∧ hasRoom max dragged place.parent = true
  | .menu id title children, found => by
      rw [locate?] at found
      rw [nodes_menu]
      split at found
      · obtain ⟨same, room⟩ := room_of_placeInside found
        rw [same]
        exact ⟨List.mem_cons_self .., room⟩
      · obtain ⟨member, room⟩ := room_of_locateIn? children found
        exact ⟨member, room⟩
  | .note _ _ _, found => by
      rw [locate?] at found
      cases found
  | .code _ _ _, found => by
      rw [locate?] at found
      cases found

theorem room_of_locateIn? {max : Nat} {dragged target : Text} {position : Position}
    {holder : Node} {start : Nat} {place : Placement} :
    (children : List Node) →
      locateIn? max dragged target position holder start children = some place →
      place.parent ∈ holder :: children.flatMap nodes ∧ hasRoom max dragged place.parent = true
  | [], found => by
      rw [locateIn?] at found
      cases found
  | child :: rest, found => by
      unfold locateIn? at found
      rw [List.flatMap_cons]
      split at found
      · split at found
        · obtain ⟨same, room⟩ := room_of_placeInside found
          rw [same]
          exact ⟨.tail _ (List.mem_append_left _ (mem_nodes_self _)), room⟩
        · split at found
          · rename_i room
            cases found
            exact ⟨List.mem_cons_self .., room⟩
          · cases found
        · split at found
          · rename_i room
            cases found
            exact ⟨List.mem_cons_self .., room⟩
          · cases found
      · rcases Option.or_eq_some_iff.mp found with inside | ⟨_, later⟩
        · obtain ⟨member, room⟩ := room_of_locate? child inside
          exact ⟨.tail _ (List.mem_append_left _ member), room⟩
        · obtain ⟨member, room⟩ := room_of_locateIn? rest later
          refine ⟨?_, room⟩
          apply List.cons_subset_cons _ _ member
          exact List.subset_append_right _ _

end

theorem room_of_resolvePlacement {root : Node} {dragged target : Text} {position : Position}
    {max : Nat} {place : Placement}
    (found : root.resolvePlacement dragged target position max = some place) :
    place.parent ∈ root.nodes ∧ hasRoom max dragged place.parent = true := by
  rw [resolvePlacement] at found
  split at found
  · cases found
  · split at found
    · cases found
    · exact room_of_locate? root found

end CalcApp.Node
