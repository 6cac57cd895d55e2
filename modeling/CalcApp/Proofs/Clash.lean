import CalcApp.Proofs.Capacity
import CalcApp.Proofs.Node.Room

/-! Outlines that are made of a given tree. Their counter starts at one, whatever ids the tree has,
so that a new item may get an id that is in use. It does so as soon as there is room for an item
beside one that has the next number; an outline in which this cannot come about keeps all ids
apart. -/

namespace CalcApp.Outline

/-- The outlines that successful edits make of an outline, and how many items they add. -/
inductive Reaches (first : Outline) : Nat → Outline → Prop
  | start : Reaches first 0 first
  | add {adds : Nat} {last after : Outline} {parent id : Text} {kind : Kind}
      (reaches : Reaches first adds last) (done : last.addItem parent kind = .ok (after, id)) :
      Reaches first (adds + 1) after
  | delete {adds : Nat} {last after : Outline} {id : Text} (reaches : Reaches first adds last)
      (done : last.deleteItem id = .ok after) : Reaches first adds after
  | update {adds : Nat} {last after : Outline} {id : Text} {revision : Node.Revision}
      (reaches : Reaches first adds last) (done : last.updateItem id revision = .ok after) :
      Reaches first adds after
  | move {adds : Nat} {last after : Outline} {dragged target : Text} {position : Position}
      (reaches : Reaches first adds last)
      (done : last.moveItem dragged target position = .ok after) : Reaches first adds after

/-- Beside an item whose number is still to come there is no room for another one. -/
structure Unclashed (count adds : Nat) (outline : Outline) : Prop where
  menu : outline.root.isMenu = true
  distinct : outline.root.ids.Nodup
  next : outline.nextId = adds + 1
  ahead : ∀ number, adds < number → number ≤ count → itemId number ∈ outline.root.ids →
    ¬ outline.root.RoomBeside outline.settings.maxItemsPerMenu (itemId number)

namespace Unclashed

variable {count adds : Nat} {outline after : Outline}

theorem addItem {parent id : Text} {kind : Kind} (safe : Unclashed count adds outline)
    (more : adds < count) (few : count < 2 ^ 64 - 2)
    (done : outline.addItem parent kind = .ok (after, id)) : Unclashed count (adds + 1) after := by
  obtain ⟨menu, root, found, isMenu, room, rfl, inserted, rfl⟩ := addItem_ok done
  have unused : ∀ number, adds < number → number ≤ count → itemId number ∉ outline.root.ids := by
    intro number later within listed
    have member := (Node.mem_of_find? outline.root found).1
    exact safe.ahead number later within listed (Node.roomBeside_of_room member isMenu room)
  have grows := Node.grows_insert inserted
  rw [ids_freshItem, safe.next] at grows
  refine ⟨grows.isMenu.trans safe.menu, ?_, ?_, ?_⟩
  · rw [grows.ids.nodup_iff]
    exact List.nodup_cons.mpr ⟨unused _ (Nat.lt_succ_self adds) more, safe.distinct⟩
  · dsimp only
    rw [safe.next]
    exact Nat.mod_eq_of_lt (by omega)
  · intro number later within listed
    rcases List.mem_cons.mp (grows.ids.subset listed) with same | old
    · have := itemId_injective same
      omega
    · exact absurd old (unused number (by omega) within)

theorem withRoot {root : Node} (safe : Unclashed count adds outline)
    (menu : root.isMenu = true) (distinct : root.ids.Nodup) (fewer : root.ids ⊆ outline.root.ids)
    (before : ∀ target ∈ root.ids, root.RoomBeside outline.settings.maxItemsPerMenu target →
      outline.root.RoomBeside outline.settings.maxItemsPerMenu target) :
    Unclashed count adds (outline.withRoot root) where
  menu := menu
  distinct := distinct
  next := safe.next
  ahead := by
    intro number later within listed room
    exact safe.ahead number later within (fewer listed) (before _ listed room)

theorem deleteItem {id : Text} (safe : Unclashed count adds outline)
    (done : outline.deleteItem id = .ok after) : Unclashed count adds after := by
  obtain ⟨_, root, removed, taken, rfl⟩ := deleteItem_ok done
  have grows := Node.grows_extract taken
  obtain ⟨_, _, adds⟩ := Node.adds_of_extract safe.distinct taken
  refine safe.withRoot (grows.isMenu ▸ safe.menu) (adds.nodup safe.distinct) ?_ ?_
  · exact List.Subset.trans (List.subset_append_right _ _) adds.perm.symm.subset
  · intro target listed room
    exact adds.roomBeside (fun gone => adds.disjoint safe.distinct gone listed) room

theorem updateItem {id : Text} {revision : Node.Revision} (safe : Unclashed count adds outline)
    (done : outline.updateItem id revision = .ok after) : Unclashed count adds after := by
  obtain ⟨root, updated, rfl⟩ := updateItem_ok done
  have grows := Node.grows_update updated
  refine safe.withRoot (grows.isMenu.trans safe.menu) ?_ grows.ids.subset ?_
  · exact grows.ids.nodup_iff.mpr safe.distinct
  · exact fun _ _ room => Node.roomBeside_of_update safe.distinct updated room

theorem moveItem {dragged target : Text} {position : Position} (safe : Unclashed count adds outline)
    (done : outline.moveItem dragged target position = .ok after) : Unclashed count adds after := by
  obtain ⟨_, _, _, _, without, moved, place, root, taken, found, inserted, rfl⟩ := moveItem_ok done
  have grows := (Node.grows_extract taken).swap (Node.grows_insert inserted)
  obtain ⟨outer, shelf, removal⟩ := Node.adds_of_extract safe.distinct taken
  obtain ⟨outer', shelf', named, insertion⟩ :=
    Node.adds_of_insert (removal.nodup safe.distinct) inserted
  have few : (shelf'.hold []).children.length < outline.settings.maxItemsPerMenu := by
    have member := Node.hold_mem_nodes insertion.empty
    exact Node.length_lt_of_placement safe.distinct taken found member named
  refine safe.withRoot (grows.isMenu.trans safe.menu) ?_ grows.ids.subset ?_
  · exact grows.ids.nodup_iff.mpr safe.distinct
  · intro other _ room
    exact Node.roomBeside_of_move safe.distinct safe.menu removal insertion few room

end Unclashed

theorem Reaches.unclashed {first last : Outline} {count adds : Nat} (reaches : Reaches first adds last)
    (safe : Unclashed count 0 first) (few : count < 2 ^ 64 - 2) (within : adds ≤ count) :
    Unclashed count adds last := by
  induction reaches with
  | start => exact safe
  | add _ done ih => exact (ih (by omega)).addItem (by omega) few done
  | delete _ done ih => exact (ih within).deleteItem done
  | update _ done ih => exact (ih within).updateItem done
  | move _ done ih => exact (ih within).moveItem done

variable {first outline : Outline} {menu root : Node} {settings : Settings} {target : Text}

theorem Reaches.exists_room {adds : Nat} (reaches : Reaches first adds outline)
    (distinct : outline.root.ids.Nodup) (listed : target ∈ outline.root.ids)
    (room : outline.root.RoomBeside outline.settings.maxItemsPerMenu target) :
    ∃ root, Reaches first adds (outline.withRoot root) ∧ target ∈ root.ids ∧
      ∃ menu ∈ root.nodes, menu.isMenu = true ∧
        menu.children.length < outline.settings.maxItemsPerMenu := by
  obtain ⟨menu, member, isMenu, positive, spare⟩ := room
  induction size : menu.children.length using Nat.strong_induction_on generalizing outline menu with
  | _ length ih =>
      by_cases few : menu.children.length < outline.settings.maxItemsPerMenu
      · exact ⟨outline.root, reaches, listed, menu, member, isMenu, few⟩
      obtain ⟨id, without, removed, smaller, other, taken, distinct', listed', member', isMenu',
        less, spare'⟩ := Node.exists_extract distinct listed member isMenu positive (by omega) spare
      have done : outline.deleteItem id = .ok (outline.withRoot without) := by
        rw [Outline.deleteItem, if_neg other, taken]
      obtain ⟨last, there⟩ := ih _ (size ▸ less) (reaches.delete done) distinct' listed' smaller
        member' isMenu' positive spare' rfl
      exact ⟨last, there⟩

theorem addItem_of_room {next : Nat} (distinct : root.ids.Nodup) (member : menu ∈ root.nodes)
    (isMenu : menu.isMenu = true) (room : menu.children.length < settings.maxItemsPerMenu)
    (kind : Kind) :
    ∃ edited shelves, addItem ⟨settings, root, next⟩ menu.id kind =
        .ok (⟨settings, edited, (next + 1) % 2 ^ 64⟩, itemId next) ∧
      Node.Adds shelves (freshItem (itemId next) kind) root edited := by
  obtain ⟨shelves, edited, inserted, adds⟩ := Node.adds_insert distinct member isMenu
    menu.children.length (freshItem (itemId next) kind)
  refine ⟨edited, shelves, ?_, adds⟩
  have found := (Node.find?_eq_some_iff distinct).mpr ⟨member, rfl⟩
  have unlimited : ¬ settings.maxItemsPerMenu ≤ menu.children.length := by omega
  simp only [addItem, found, isMenu, if_neg unlimited, inserted]
  rfl

/-- Where there is room, an item can be added and deleted again and again, and each time the counter
goes up by one. So if ids stay apart, the numbers that it runs through are not in use. -/
theorem Reaches.again {count : Nat} (few : count < 2 ^ 64 - 2)
    (apart : ∀ adds last, Reaches first adds last → adds ≤ count → last.root.ids.Nodup)
    (reaches : Reaches first 0 ⟨settings, root, 1⟩) (member : menu ∈ root.nodes)
    (isMenu : menu.isMenu = true) (room : menu.children.length < settings.maxItemsPerMenu)
    (number : Nat) (within : number ≤ count) :
    Reaches first number ⟨settings, root, number + 1⟩ ∧
      (1 ≤ number → itemId number ∉ root.ids) := by
  induction number with
  | zero => exact ⟨reaches, fun positive => by omega⟩
  | succ number ih =>
      obtain ⟨there, _⟩ := ih (by omega)
      have distinct := apart number _ there (by omega)
      obtain ⟨edited, shelves, done, adds⟩ := addItem_of_room distinct member isMenu room .note
      have next : (number + 1 + 1) % 2 ^ 64 = number + 1 + 1 := Nat.mod_eq_of_lt (by omega)
      rw [next] at done
      have added := there.add done
      have fresh : itemId (number + 1) ∉ root.ids :=
        adds.disjoint (apart _ _ added within) (List.mem_singleton_self _)
      have deleted : deleteItem ⟨settings, edited, number + 1 + 1⟩ (itemId (number + 1)) =
          .ok ⟨settings, root, number + 1 + 1⟩ := by
        have other : edited.id ≠ itemId (number + 1) := by
          rw [adds.id_eq]
          intro same
          apply fresh
          rw [← same]
          exact root.id_mem_own
        have taken : edited.extract (itemId (number + 1)) = (root, some _) := adds.extract fresh
        rw [deleteItem, if_neg other, taken]
        rfl
      exact ⟨added.delete deleted, fun _ => fresh⟩

/-- In an outline that is made of a menu with distinct ids, edits that add up to `count` items keep
ids distinct if and only if no room for an item can be made beside a node that has one of the first
`count` numbers. -/
theorem edits_distinct_iff (settings : Settings) (root : Node) (count : Nat)
    (menu : root.isMenu = true) (distinct : root.ids.Nodup) (few : count < 2 ^ 64 - 2) :
    (∀ adds last, Reaches (new settings root) adds last → adds ≤ count →
      last.root.ids.Nodup) ↔
    ∀ number, 1 ≤ number → number ≤ count → itemId number ∈ root.ids →
      ¬ root.RoomBeside settings.maxItemsPerMenu (itemId number) := by
  constructor
  · intro apart number positive within listed room
    have begins : Reaches (new settings root) 0 (new settings root) := .start
    obtain ⟨smaller, there, kept, menu, member, isMenu, space⟩ :=
      begins.exists_room distinct listed room
    obtain ⟨_, unused⟩ := Reaches.again few apart there member isMenu space number within
    exact unused positive kept
  · intro ahead adds last reaches within
    have safe : Unclashed count 0 (new settings root) := ⟨menu, distinct, rfl, ahead⟩
    exact (reaches.unclashed safe few within).distinct

def holding (number : Nat) : Node :=
  .menu rootId "Main Menu".toList [.note (itemId number) "A".toList "x".toList]

/-- Beside an item with the number two, the first item that is added stays apart from it and the
second one does not; a menu for one item has no room beside it. -/
theorem edits_distinct_iff_holding :
    (holding 2).ids.Nodup ∧
    (∀ adds last, Reaches (new {} (holding 2)) adds last → adds ≤ 1 → last.root.ids.Nodup) ∧
    (¬ ∀ adds last, Reaches (new {} (holding 2)) adds last → adds ≤ 2 → last.root.ids.Nodup) ∧
    ∀ adds last, Reaches (new { maxItemsPerMenu := 1 } (holding 2)) adds last →
      adds ≤ 2 ^ 64 - 3 → last.root.ids.Nodup := by
  have distinct : (holding 2).ids.Nodup := by decide
  have second : ∀ number, itemId number ∈ (holding 2).ids → number = 2 := by
    intro number listed
    rcases List.mem_cons.mp listed with top | below
    · exact absurd top (itemId_ne_rootId number)
    · exact itemId_injective (List.mem_singleton.mp below)
  refine ⟨distinct, ?_, ?_, ?_⟩
  · rw [edits_distinct_iff {} (holding 2) 1 rfl distinct (by decide)]
    intro number _ within listed
    have := second number listed
    omega
  · rw [edits_distinct_iff {} (holding 2) 2 rfl distinct (by decide)]
    intro ahead
    exact ahead 2 (by decide) (by decide) (by decide) (by decide)
  · rw [edits_distinct_iff { maxItemsPerMenu := 1 } (holding 2) _ rfl distinct (by decide)]
    intro number _ _ listed
    rw [second number listed]
    decide

/-- Not every outline that is made of a menu with distinct ids keeps them distinct: an item with the
number one gets a second one beside it. -/
theorem new_not_distinct :
    ¬ ∀ (settings : Settings) (root : Node), root.isMenu = true → root.ids.Nodup →
      ∀ adds last, Reaches (new settings root) adds last → adds < 2 ^ 64 - 2 →
        last.root.ids.Nodup := by
  intro apart
  have done : (new {} (holding 1)).addItem rootId .note =
      .ok (⟨{}, .menu rootId "Main Menu".toList [.note (itemId 1) "A".toList "x".toList,
        freshItem (itemId 1) .note], 2⟩, itemId 1) := rfl
  have twice := apart {} (holding 1) rfl (by decide) 1 _ (Reaches.start.add done) (by decide)
  revert twice
  decide

end CalcApp.Outline
