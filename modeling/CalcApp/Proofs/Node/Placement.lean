import CalcApp.Node.Placement
import CalcApp.Proofs.Node.Find

namespace CalcApp

def Position.offset : Position → Nat
  | .before => 0
  | .after => 1
  | .inside => 0

def Placement.takes (max : Nat) (dragged : Text) (place : Placement) : Bool :=
  place.parent.isMenu && place.parent.hasRoom max dragged

namespace Node

variable {root : Node} {target dragged : Text} {position : Position} {max : Nat}

def lastPlace (node : Node) : Placement := ⟨node, node.children.length⟩

/-- The place that a target and a position name, if there is such a target. -/
def place? (target : Text) (root : Node) : Position → Option Placement
  | .inside => (root.find? target).map lastPlace
  | position => (root.findParent? target).map fun held => ⟨held.1, held.2 + position.offset⟩

theorem place?_inside : root.place? target .inside = (root.find? target).map lastPlace := rfl

theorem place?_beside (beside : position ≠ .inside) : root.place? target position =
    (root.findParent? target).map fun held => ⟨held.1, held.2 + position.offset⟩ := by
  cases position with
  | before => rfl
  | after => rfl
  | inside => exact absurd rfl beside

theorem filter_or {α : Type} {first second : Option α} (p : α → Bool)
    (alone : first.isSome → second = none) :
    (first.or second).filter p = (first.filter p).or (second.filter p) := by
  cases first with
  | none => rfl
  | some found => rw [alone rfl, Option.or_none, Option.filter_none, Option.or_none]

mutual

theorem locate?_inside : (node : Node) → node.ids.Nodup →
    locate? max dragged target .inside node =
      ((node.find? target).map lastPlace).filter (Placement.takes max dragged)
  | .menu id title children, distinct => by
      rw [locate?, find?]
      by_cases same : id = target
      · rw [if_pos ⟨same, rfl⟩, if_pos same]
        rfl
      · rw [if_neg fun both => same both.1, if_neg same]
        exact locateIn?_inside children (List.nodup_cons.mp distinct).2
  | .note id title content, _ => by
      rw [locate?, find?]
      split <;> rfl
  | .code id title content, _ => by
      rw [locate?, find?]
      split <;> rfl

theorem locateIn?_inside {holder : Node} {start : Nat} :
    (children : List Node) → (idsIn children).Nodup →
    locateIn? max dragged target .inside holder start children =
      ((findIn? target children).map lastPlace).filter (Placement.takes max dragged)
  | [], _ => by
      rw [locateIn?, findIn?]
      rfl
  | child :: rest, distinct => by
      rw [idsIn, List.nodup_append'] at distinct
      obtain ⟨first, later, apart⟩ := distinct
      rw [locateIn?, findIn?]
      by_cases same : child.id = target
      · have found : child.find? target = some child :=
          (find?_eq_some_iff first).mpr ⟨mem_nodes_self child, same⟩
        rw [if_pos same, found]
        rfl
      · have alone : ((child.find? target).map lastPlace).isSome →
            (findIn? target rest).map lastPlace = none := by
          intro found
          rw [Option.isSome_map, Option.isSome_iff_exists] at found
          obtain ⟨inner, search⟩ := found
          obtain ⟨member, rfl⟩ := mem_of_find? child search
          rw [findIn?_of_not_mem (apart (id_mem_ids member))]
          rfl
        rw [if_neg same, locate?_inside child first, locateIn?_inside rest later, Option.map_or,
          filter_or _ alone]

end

mutual

theorem locate?_beside (beside : position ≠ .inside) : (node : Node) → node.ids.Nodup →
    locate? max dragged target position node =
      ((node.findParent? target).map fun held =>
        ⟨held.1, held.2 + position.offset⟩).filter (Placement.takes max dragged)
  | .menu id title children, distinct => by
      rw [locate?, if_neg fun both => beside both.2, findParent?]
      exact locateIn?_beside beside rfl children (List.nodup_cons.mp distinct).2
  | .note _ _ _, _ => by
      rw [locate?, findParent?]
      rfl
  | .code _ _ _, _ => by
      rw [locate?, findParent?]
      rfl

theorem locateIn?_beside {holder : Node} {start : Nat} (beside : position ≠ .inside)
    (isMenu : holder.isMenu = true) : (children : List Node) → (idsIn children).Nodup →
    locateIn? max dragged target position holder start children =
      ((findParentIn? target holder start children).map fun held =>
        ⟨held.1, held.2 + position.offset⟩).filter (Placement.takes max dragged)
  | [], _ => by
      rw [locateIn?, findParentIn?]
      rfl
  | child :: rest, distinct => by
      rw [idsIn, List.nodup_append'] at distinct
      obtain ⟨first, later, apart⟩ := distinct
      unfold locateIn? findParentIn?
      by_cases same : child.id = target
      · rw [if_pos same, if_pos same, Option.map_some, Option.filter_some, Placement.takes, isMenu,
          Bool.true_and]
        cases position with
        | before => rfl
        | after => rfl
        | inside => exact absurd rfl beside
      · have alone : ((child.findParent? target).map fun held =>
            (⟨held.1, held.2 + position.offset⟩ : Placement)).isSome →
            (findParentIn? target holder (start + 1) rest).map (fun held =>
              (⟨held.1, held.2 + position.offset⟩ : Placement)) = none := by
          intro found
          rw [Option.isSome_map, Option.isSome_iff_exists] at found
          obtain ⟨⟨menu, place⟩, search⟩ := found
          obtain ⟨member, held⟩ := mem_of_findParent? child search
          have inside : target ∈ child.ids := by
            rw [ids_eq]
            exact .tail _ (mem_idsIn_iff.mpr ⟨menu, member, place, held⟩)
          rw [findParentIn?_of_not_mem (apart inside)]
          rfl
        rw [if_neg same, if_neg same, locate?_beside beside child first,
          locateIn?_beside beside isMenu rest later, Option.map_or, filter_or _ alone]

end

theorem locate?_eq (distinct : root.ids.Nodup) : locate? max dragged target position root =
    (root.place? target position).filter (Placement.takes max dragged) := by
  by_cases beside : position = .inside
  · subst beside
    exact locate?_inside root distinct
  · rw [place?_beside beside]
    exact locate?_beside beside root distinct

/-- Where ids differ, an item may be dropped next to a target or in it if the menu there takes the
item, and if the target is neither the item nor a part of it. -/
theorem resolvePlacement_eq_some_iff {place : Placement} (distinct : root.ids.Nodup) :
    root.resolvePlacement dragged target position max = some place ↔
      dragged ≠ target ∧ (∀ item, root.find? dragged = some item → target ∉ item.ids) ∧
        root.place? target position = some place ∧ place.takes max dragged = true := by
  have outside : ((root.find? dragged).bind (find? target)).isSome = false ↔
      ∀ item, root.find? dragged = some item → target ∉ item.ids := by
    rw [Option.isSome_eq_false_iff, Option.isNone_iff_eq_none, Option.bind_eq_none_iff]
    constructor
    · intro absent item found
      exact not_mem_of_find? item (absent item found)
    · intro absent item found
      exact find?_of_not_mem (absent item found)
  rw [resolvePlacement, locate?_eq distinct]
  by_cases same : dragged = target
  · rw [if_pos same]
    constructor
    · rintro ⟨⟩
    · intro both
      exact absurd same both.1
  rw [if_neg same, ← outside]
  cases (root.find? dragged).bind (find? target) |>.isSome with
  | true =>
      rw [if_pos rfl]
      constructor
      · rintro ⟨⟩
      · rintro ⟨_, ⟨⟩, _⟩
  | false =>
      rw [if_neg Bool.false_ne_true, Option.filter_eq_some_iff]
      exact ⟨fun found => ⟨same, rfl, found⟩, fun both => both.2.2⟩

def childIds (node : Node) : List Text := node.children.map Node.id

theorem childIds_subset {node : Node} (member : node ∈ root.nodes) : node.childIds ⊆ root.ids := by
  intro id listed
  obtain ⟨child, held, rfl⟩ := List.mem_map.mp listed
  exact id_mem_ids (mem_nodes_of_child member held)

theorem hasRoom_eq (menu : Node) : menu.hasRoom max dragged = true ↔
    menu.childIds.length < max ∨ dragged ∈ menu.childIds := by
  rw [hasRoom, Bool.or_eq_true, decide_eq_true_eq, List.any_eq_true, childIds, List.length_map,
    List.mem_map]
  simp only [decide_eq_true_eq]

theorem place?_eq_some_iff {place : Placement} (distinct : root.ids.Nodup) :
    root.place? target position = some place ↔ place.parent ∈ root.nodes ∧
      if position = .inside then place.parent.id = target ∧ place.index = place.parent.childIds.length
      else ∃ index, place.parent.childIds[index]? = some target ∧
        place.index = index + position.offset := by
  obtain ⟨menu, number⟩ := place
  by_cases inside : position = .inside
  · subst inside
    rw [place?_inside, Option.map_eq_some_iff, if_pos rfl, childIds, List.length_map]
    constructor
    · rintro ⟨found, search, same⟩
      cases same
      obtain ⟨member, named⟩ := mem_of_find? root search
      exact ⟨member, named, rfl⟩
    · rintro ⟨member, named, last⟩
      refine ⟨menu, (find?_eq_some_iff distinct).mpr ⟨member, named⟩, ?_⟩
      exact congrArg (Placement.mk menu) last.symm
  · rw [place?_beside inside, Option.map_eq_some_iff, if_neg inside]
    constructor
    · rintro ⟨⟨found, index⟩, search, same⟩
      cases same
      obtain ⟨member, held⟩ := mem_of_findParent? root search
      exact ⟨member, index, held, rfl⟩
    · rintro ⟨member, index, held, rfl⟩
      exact ⟨(menu, index), (findParent?_eq_some_iff distinct).mpr ⟨member, held⟩, rfl⟩

/-- The place that a position names, seen from a target: the end of the target, if it is a menu, or
a place next to the target among the children of its parent, if it has one. -/
inductive Names (root : Node) (target : Text) : Position → Placement → Prop where
  | inside {menu : Node} (member : menu ∈ root.nodes) (named : menu.id = target)
      (isMenu : menu.isMenu = true) : Names root target .inside ⟨menu, menu.children.length⟩
  | before {menu : Node} {index : Nat} (below : target ≠ root.id) (member : menu ∈ root.nodes)
      (held : menu.childIds[index]? = some target) : Names root target .before ⟨menu, index⟩
  | after {menu : Node} {index : Nat} (below : target ≠ root.id) (member : menu ∈ root.nodes)
      (held : menu.childIds[index]? = some target) : Names root target .after ⟨menu, index + 1⟩

structure Droppable (root : Node) (dragged target : Text) (position : Position) (max : Nat)
    (place : Placement) : Prop where
  other : dragged ≠ target
  aimed : target ∈ root.ids
  outside : ∀ item ∈ root.nodes, item.id = dragged → target ∉ item.ids
  named : Names root target position place
  room : place.parent.children.length < max ∨ dragged ∈ place.parent.childIds

theorem isMenu_of_childIds {menu : Node} {index : Nat}
    (held : menu.childIds[index]? = some target) : menu.isMenu = true := by
  cases menu with
  | menu id title children => rfl
  | note id title content => cases held
  | code id title content => cases held

theorem ne_root_of_childIds {menu : Node} {index : Nat} (distinct : root.ids.Nodup)
    (member : menu ∈ root.nodes) (held : menu.childIds[index]? = some target) :
    target ≠ root.id := by
  rintro rfl
  rw [ids_eq] at distinct
  exact (List.nodup_cons.mp distinct).1 (mem_idsIn_iff.mpr ⟨menu, member, index, held⟩)

theorem names_iff {place : Placement} (distinct : root.ids.Nodup) :
    Names root target position place ↔
      root.place? target position = some place ∧ place.parent.isMenu = true := by
  rw [place?_eq_some_iff distinct]
  constructor
  · intro names
    cases names with
    | inside member named isMenu => exact ⟨⟨member, named, (List.length_map _).symm⟩, isMenu⟩
    | before _ member held => exact ⟨⟨member, _, held, rfl⟩, isMenu_of_childIds held⟩
    | after _ member held => exact ⟨⟨member, _, held, rfl⟩, isMenu_of_childIds held⟩
  · obtain ⟨menu, number⟩ := place
    rintro ⟨⟨member, reached⟩, isMenu⟩
    cases position with
    | inside =>
        obtain ⟨named, last⟩ := reached
        obtain rfl : number = menu.children.length := last.trans (List.length_map _)
        exact .inside member named isMenu
    | before =>
        obtain ⟨index, held, last⟩ := reached
        subst last
        exact .before (ne_root_of_childIds distinct member held) member held
    | after =>
        obtain ⟨index, held, last⟩ := reached
        subst last
        exact .after (ne_root_of_childIds distinct member held) member held

theorem Names.mem_ids {place : Placement} (names : Names root target position place) :
    target ∈ root.ids := by
  cases names with
  | inside member named _ => exact named ▸ id_mem_ids member
  | before _ member held => exact childIds_subset member (List.mem_of_getElem? held)
  | after _ member held => exact childIds_subset member (List.mem_of_getElem? held)

/-- Where ids differ, a place is given for an item exactly if the item may be dropped there; if it
may be dropped nowhere, none is given. -/
theorem resolvePlacement_iff_droppable (root : Node) (dragged target : Text) (position : Position)
    (max : Nat) (distinct : root.ids.Nodup) :
    (∀ place, root.resolvePlacement dragged target position max = some place ↔
      Droppable root dragged target position max place) ∧
    (root.resolvePlacement dragged target position max = none ↔
      ∀ place, ¬ Droppable root dragged target position max place) := by
  have given : ∀ place, root.resolvePlacement dragged target position max = some place ↔
      Droppable root dragged target position max place := by
    intro place
    have room : place.parent.hasRoom max dragged = true ↔
        place.parent.children.length < max ∨ dragged ∈ place.parent.childIds := by
      rw [hasRoom_eq, childIds, List.length_map]
    rw [resolvePlacement_eq_some_iff distinct, Placement.takes, Bool.and_eq_true, room]
    constructor
    · rintro ⟨other, outside, reached, isMenu, room⟩
      have named := (names_iff distinct).mpr ⟨reached, isMenu⟩
      refine ⟨other, named.mem_ids, ?_, named, room⟩
      intro item member same
      exact outside item ((find?_eq_some_iff distinct).mpr ⟨member, same⟩)
    · rintro ⟨other, _, outside, named, room⟩
      obtain ⟨reached, isMenu⟩ := (names_iff distinct).mp named
      refine ⟨other, ?_, reached, isMenu, room⟩
      intro item found
      obtain ⟨member, same⟩ := (find?_eq_some_iff distinct).mp found
      exact outside item member same
  refine ⟨given, ?_⟩
  rw [Option.eq_none_iff_forall_ne_some]
  exact forall_congr' fun place => not_congr (given place)

def drawer : Node :=
  .menu ['r'] [] [.menu ['a'] [] [.note ['b'] [] []], .note ['c'] [] []]

/-- With room for two items in a menu, the last note may go in front of the smaller menu or into it,
but the note of the smaller menu may not go next to the last one, and nothing goes into itself. -/
theorem resolvePlacement_iff_droppable_drawer :
    drawer.ids.Nodup ∧
      Droppable drawer ['c'] ['a'] .before 2 ⟨drawer, 0⟩ ∧
      Droppable drawer ['c'] ['a'] .inside 2 ⟨.menu ['a'] [] [.note ['b'] [] []], 1⟩ ∧
      (∀ place, ¬ Droppable drawer ['b'] ['c'] .after 2 place) ∧
      ∀ place, ¬ Droppable drawer ['a'] ['b'] .before 2 place := by
  have distinct : drawer.ids.Nodup := by decide
  refine ⟨distinct, ?_, ?_, ?_, ?_⟩
  · exact ((resolvePlacement_iff_droppable drawer ['c'] ['a'] .before 2 distinct).1 _).mp rfl
  · exact ((resolvePlacement_iff_droppable drawer ['c'] ['a'] .inside 2 distinct).1 _).mp rfl
  · exact (resolvePlacement_iff_droppable drawer ['b'] ['c'] .after 2 distinct).2.mp rfl
  · exact (resolvePlacement_iff_droppable drawer ['a'] ['b'] .before 2 distinct).2.mp rfl

end Node

end CalcApp
