import CalcApp.Proofs.Listing.Extent
import CalcApp.Proofs.MenuTree

namespace CalcApp

namespace Outline

theorem itemId_injective {first second : Nat} (same : itemId first = itemId second) :
    first = second := by
  have digits : Nat.toDigits 10 first = Nat.toDigits 10 second := List.append_cancel_left same
  calc
    first = Nat.ofDigitChars 10 (Nat.toDigits 10 first) 0 := Nat.ofDigitChars_ten_toDigits.symm
    _ = Nat.ofDigitChars 10 (Nat.toDigits 10 second) 0 := by rw [digits]
    _ = second := Nat.ofDigitChars_ten_toDigits

theorem itemId_ne_rootId (number : Nat) : itemId number ≠ rootId := by
  intro same
  have first := congrArg List.head? same
  cases first

theorem nodup_itemIds (start count : Nat) :
    (rootId :: (List.range' start count).map itemId).Nodup := by
  rw [List.nodup_cons, List.mem_map]
  constructor
  · rintro ⟨number, _, same⟩
    exact itemId_ne_rootId number same
  · exact List.Nodup.map (fun _ _ => itemId_injective) List.nodup_range'

end Outline

namespace Listing

/-- The items that are read below a menu take the numbers from the next one on, in pre-order. -/
theorem unfold_numbered {listing : Listing} (above : List Label) (menu : Label) (progress : Progress)
    (entries : List Choice) {nodes : List Node} {last : Progress}
    (read : (unfold listing above menu progress entries).result = .ok (nodes, last)) :
    Node.idsIn nodes = (List.range' progress.next (Node.sizeIn nodes)).map Outline.itemId ∧
      last.next = progress.next + Node.sizeIn nodes := by
  induction above, menu, progress, entries using unfold.induct listing generalizing nodes last with
  | case1 above menu progress =>
      rw [result_unfold_nil] at read
      cases read
      exact ⟨rfl, rfl⟩
  | case2 above menu progress name target rest missing =>
      rw [result_unfold_unknown missing] at read
      cases read
  | case3 above menu progress name target rest found ih =>
      rw [result_unfold_quit found] at read
      exact ih read
  | case4 above menu progress name target rest content parent found ih =>
      rw [result_unfold_note found] at read
      obtain ⟨later, readLater, same⟩ := Outcome.map_eq_ok read
      cases same
      obtain ⟨ids, next⟩ := ih readLater
      dsimp only at ids next ⊢
      rw [Node.idsIn, Node.ids, ids, next, Node.sizeIn_cons, Node.size_note, Nat.add_comm 1,
        List.range'_succ, List.map_cons]
      exact ⟨rfl, by omega⟩
  | case5 above menu progress name target rest content parent found ih =>
      rw [result_unfold_code found] at read
      obtain ⟨later, readLater, same⟩ := Outcome.map_eq_ok read
      cases same
      obtain ⟨ids, next⟩ := ih readLater
      dsimp only at ids next ⊢
      rw [Node.idsIn, Node.ids, ids, next, Node.sizeIn_cons, Node.size_code, Nat.add_comm 1,
        List.range'_succ, List.map_cons]
      exact ⟨rfl, by omega⟩
  | case6 above menu progress name target rest title entries parent found ihBelow ihLater =>
      rw [result_unfold_menu found] at read
      split at read
      · cases read
      · rename_i off
        split at read
        · cases read
        · obtain ⟨⟨children, inner⟩, readBelow, read⟩ := Outcome.bind_eq_ok read
          obtain ⟨later, readLater, same⟩ := Outcome.map_eq_ok read
          cases same
          obtain ⟨idsBelow, nextBelow⟩ := ihBelow off readBelow
          obtain ⟨ids, next⟩ := ihLater inner readLater
          dsimp only at idsBelow nextBelow ⊢
          have middle : inner.next = progress.next + (Node.sizeIn children + 1) := by
            rw [nextBelow]
            omega
          rw [Node.idsIn, Node.ids, idsBelow, ids, next, middle, Node.sizeIn_cons, Node.size_menu,
            ← List.range'_append_1, List.map_append, List.range'_succ, List.map_cons]
          exact ⟨rfl, by omega⟩

end Listing

namespace BlockMap

/-- The pages that the entries of some menus show, each as often as an entry leads to it. An entry
that leads to the quit page shows none. -/
def shown (blocks : BlockMap) (menus : List Label) : List Label :=
  (menus.flatMap blocks.targets).filter fun label => blocks label ≠ some .quit

end BlockMap

namespace Outline

/-- The items of an outline that is read from a text are shown by the entries of the menus that are
reached from its root. -/
theorem parse_shown {text : Text} {outline : Outline} (read : (parse text).result = .ok outline) :
    ∃ root menus, BlockMap.root? (Listing.labelled text) = some root ∧ menus.Nodup ∧
      (∀ label, label ∈ menus ↔ (BlockMap.last (Listing.labelled text)).isMenu label = true ∧
        (BlockMap.last (Listing.labelled text)).Reaches root label) ∧
      Node.sizeIn outline.root.children =
        ((BlockMap.last (Listing.labelled text)).shown menus).length := by
  rw [parse_result] at read
  rw [← Listing.root?_defineAll, ← Listing.blocks_defineAll]
  obtain ⟨label, title, entries, children, met, last, top, _, rfl, unfolds, once⟩ :=
    Listing.outline_ok read
  have found := Listing.blocks_root? (Listing.nodup_labels _) top
  refine ⟨label, label :: met, by rw [top]; rfl, once, ?_, ?_⟩
  · intro menu
    constructor
    · intro member
      refine ⟨?_, unfolds.reaches_of_mem found member⟩
      rcases List.mem_cons.mp member with rfl | below
      · exact BlockMap.isMenu_menu found
      · exact (List.mem_filter.mp (unfolds.perm.subset below)).2
    · rintro ⟨inner, reached⟩
      exact unfolds.mem_of_reaches found reached inner
  · rw [BlockMap.shown, ← BlockMap.allTargets_root found]
    exact unfolds.size_eq

theorem parse_sizeIn_le_entries {text : Text} {outline : Outline}
    (read : (parse text).result = .ok outline) :
    Node.sizeIn outline.root.children ≤ Listing.entryCount (Listing.labelled text) := by
  obtain ⟨root, menus, _, once, _, size⟩ := parse_shown read
  rw [← Listing.blocks_defineAll] at size
  calc
    Node.sizeIn outline.root.children ≤ (menus.flatMap (BlockMap.targets _)).length :=
      size ▸ List.length_filter_le _ _
    _ ≤ Listing.entryCount (Listing.defineAll [] (Listing.labelled text)) :=
      Listing.length_targets_le _ once
    _ ≤ Listing.entryCount [] + Listing.entryCount (Listing.labelled text) :=
      Listing.entryCount_defineAll_le _ _
    _ = Listing.entryCount (Listing.labelled text) := Nat.zero_add _

theorem parse_sizeIn_le {text : Text} {outline : Outline}
    (read : (parse text).result = .ok outline) :
    Node.sizeIn outline.root.children ≤ text.length :=
  Nat.le_trans (parse_sizeIn_le_entries read) (Listing.entryCount_labelled_le text)

theorem parse_numbered {text : Text} {outline : Outline} (read : (parse text).result = .ok outline) :
    outline.root.isMenu = true ∧ outline.root.id = rootId ∧
      Node.idsIn outline.root.children =
        (List.range' 1 (Node.sizeIn outline.root.children)).map itemId ∧
      outline.nextId = Node.sizeIn outline.root.children + 1 := by
  rw [parse_result] at read
  obtain ⟨label, title, entries, children, met, last, _, below, rfl, _, _⟩ :=
    Listing.outline_ok read
  obtain ⟨ids, next⟩ := Listing.unfold_numbered _ _ _ _ below
  exact ⟨rfl, rfl, ids, next.trans (Nat.add_comm _ _)⟩

/-- An outline that is read from a text of a size that exists has its items numbered from one on in
pre-order, and its counter stands right after the last of them, far below the largest word. Every
entry of a menu that is reached from the root has an item of its own, unless it leads to the quit
page. -/
theorem parse_numbers_items (text : Text) (outline : Outline) (short : text.byteSize < 2 ^ 63)
    (read : (parse text).result = .ok outline) :
    outline.root.isMenu = true ∧ outline.root.id = rootId ∧ outline.root.ids.Nodup ∧
      ∃ count, outline.root.nodes.length = count + 1 ∧
        outline.root.nodes.tail.map Node.id = (List.range' 1 count).map itemId ∧
        outline.nextId = count + 1 ∧ outline.nextId < 2 ^ 64 ∧
        ∃ root menus, BlockMap.root? (Listing.labelled text) = some root ∧ menus.Nodup ∧
          (∀ label, label ∈ menus ↔ (BlockMap.last (Listing.labelled text)).isMenu label = true ∧
            (BlockMap.last (Listing.labelled text)).Reaches root label) ∧
          count = ((BlockMap.last (Listing.labelled text)).shown menus).length := by
  obtain ⟨menu, root, ids, next⟩ := parse_numbered read
  have few := parse_sizeIn_le read
  have bytes := Text.length_le_byteSize text
  have below : outline.root.nodes.tail.map Node.id = Node.idsIn outline.root.children := by
    rw [Node.nodes_eq, List.tail_cons, Node.flatMap_nodes_map_id]
  refine ⟨menu, root, ?_, Node.sizeIn outline.root.children, Node.size_eq outline.root, ?_, next,
    by omega, parse_shown read⟩
  · rw [Node.ids_eq, root, ids]
    exact nodup_itemIds _ _
  · rw [below, ids]

def sharedPages : Text :=
  ("Lbl AA\nClrHome\nMenu(\"T\",\"A\",AC,\"S\",AD,\"L\",AB,\"B\",AC)\n\nLbl AB\nStop\n\n" ++
    "Lbl AC\nX\n\nLbl AD\nClrHome\nMenu(\"S\",\"L\",AB,\"C\",AC,\"Back\",AA)").toList

theorem parse_numbers_items_sharedPages :
    sharedPages.byteSize < 2 ^ 63 ∧ ∃ outline, (parse sharedPages).result = .ok outline ∧
      outline.root.nodes.tail.map Node.id = [itemId 1, itemId 2, itemId 3, itemId 4] ∧
      outline.root.nodes.tail.map Node.title = [['A'], ['S'], ['C'], ['B']] ∧
      outline.nextId = 5 := by
  have short : sharedPages.byteSize < 2 ^ 63 := by decide +kernel
  have titles : (parse sharedPages).result.toOption.map
      (fun outline => outline.root.nodes.tail.map Node.title) =
      some [['A'], ['S'], ['C'], ['B']] := by decide +kernel
  cases read : (parse sharedPages).result with
  | error cause =>
      rw [read] at titles
      cases titles
  | ok outline =>
      rw [read] at titles
      have named : outline.root.nodes.tail.map Node.title = _ := Option.some.inj titles
      obtain ⟨_, _, _, count, length, ids, next, _⟩ :=
        parse_numbers_items sharedPages outline short read
      have four : count = 4 := by
        have lengths := congrArg List.length named
        rw [List.length_map, List.length_tail, length] at lengths
        exact lengths
      rw [four] at ids next
      exact ⟨short, outline, rfl, ids, named, next⟩

end Outline

end CalcApp
