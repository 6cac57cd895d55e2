import CalcApp.Proofs.Identity
import CalcApp.Proofs.Node.Origin
import CalcApp.Proofs.Preorder

/-! How many children the menus of an edited outline have. An edit never takes a menu above the
limit of the settings, so that with a limit of at most eight every menu has room on its screen, and
nothing is left out when the outline is compiled. -/

namespace CalcApp

namespace Node

def childCount (root : Node) (id : Text) : Nat :=
  ((root.find? id).map fun node => node.children.length).getD 0

theorem childCount_of_mem {root node : Node} (distinct : root.ids.Nodup)
    (member : node ∈ root.nodes) : root.childCount node.id = node.children.length := by
  have found := (find?_eq_some_iff distinct).mpr ⟨member, rfl⟩
  rw [childCount, found]
  rfl

variable {limit : Nat} {before root edited item : Node} {nodes : List Node}

/-- No node has more children than a limit, or than the node with its id had before. -/
def Limited (limit : Nat) (before : Node) (nodes : List Node) : Prop :=
  ∀ node ∈ nodes, node.children.length ≤ max (before.childCount node.id) limit

theorem limited_of_remains (limit : Nat) (distinct : before.ids.Nodup)
    (remains : Remains before.nodes nodes) : Limited limit before nodes := by
  intro node member
  obtain ⟨old, held, same, fewer⟩ := remains node member
  rw [← same, childCount_of_mem distinct held]
  exact Nat.le_trans fewer (Nat.le_max_left _ _)

theorem Limited.remains {later : List Node} (limited : Limited limit before nodes)
    (remains : Remains nodes later) : Limited limit before later := by
  intro node member
  obtain ⟨old, held, same, fewer⟩ := remains node member
  rw [← same]
  exact Nat.le_trans fewer (limited old held)

theorem Limited.insert {parent : Text} {index : Nat} (limited : Limited limit before root.nodes)
    (inner : Limited limit before item.nodes)
    (room : ∀ menu, root.find? parent = some menu → menu.children.length < limit)
    (inserted : root.insert parent index item = .ok edited) :
    Limited limit before edited.nodes := by
  obtain ⟨menu, filled, search, _, _, _, length, remains⟩ := remains_insert inserted
  have few : filled.children.length ≤ limit := by
    rw [length]
    exact room menu search
  refine Limited.remains ?_ remains
  intro node member
  rcases List.mem_append.mp member with new | old
  · rcases List.mem_cons.mp new with rfl | inside
    · exact Nat.le_trans few (Nat.le_max_right _ _)
    · exact inner node inside
  · exact limited node old

theorem length_lt_of_hasRoom {max : Nat} {dragged : Text} {menu : Node} (absent : dragged ∉ root.ids)
    (member : menu ∈ root.nodes) (room : hasRoom max dragged menu = true) :
    menu.children.length < max := by
  rw [hasRoom, Bool.or_eq_true, decide_eq_true_eq, List.any_eq_true] at room
  rcases room with few | ⟨child, held, same⟩
  · exact few
  · rw [decide_eq_true_eq] at same
    have listed := id_mem_ids (mem_nodes_of_child member held)
    rw [same] at listed
    exact absurd listed absent

theorem length_lt_of_placement {max : Nat} {dragged target : Text} {position : Position}
    {without moved menu : Node} {place : Placement} (distinct : root.ids.Nodup)
    (taken : root.extract dragged = (without, some moved))
    (found : without.resolvePlacement dragged target position max = some place)
    (member : menu ∈ without.nodes) (same : menu.id = place.parent.id) :
    menu.children.length < max := by
  obtain ⟨_, _, named⟩ := remains_extract taken
  have all := (grows_extract taken).ids.nodup_iff.mp distinct
  rw [List.nodup_append'] at all
  obtain ⟨_, distinct', apart⟩ := all
  have absent : dragged ∉ without.ids := by
    apply apart
    rw [← named]
    exact id_mem_ids (mem_nodes_self moved)
  obtain ⟨listed, space⟩ := room_of_resolvePlacement found
  rw [eq_of_id distinct' member listed same]
  exact length_lt_of_hasRoom absent listed space

end Node

namespace Step

def isEdit : Step → Bool
  | .add _ _ | .delete _ | .update _ _ | .move _ _ _ => true
  | _ => false

/-- The menu is one that the step puts an item into: the one that it names, or the one that holds
the moved item afterwards. -/
def Receives : Step → Node → Prop
  | .add parent _, menu => menu.id = parent
  | .move dragged _ _, menu => dragged ∈ menu.children.map Node.id
  | _, _ => False

def Modest : Step → Prop
  | .settings limits => limits.maxItemsPerMenu ≤ 8
  | .parse _ | .regenerate => False
  | _ => True

instance : (next : Step) → Decidable next.Modest
  | .settings limits => inferInstanceAs (Decidable (limits.maxItemsPerMenu ≤ 8))
  | .parse _ | .regenerate => inferInstanceAs (Decidable False)
  | .add _ _ | .delete _ | .update _ _ | .move _ _ _ | .generate | .undo =>
    inferInstanceAs (Decidable True)

end Step

namespace Outline

variable {outline after : Outline}

def KeepsLimit (outline after : Outline) (receives : Node → Prop) : Prop :=
  Node.Limited outline.settings.maxItemsPerMenu outline.root after.root.nodes ∧
    ∀ menu ∈ after.root.nodes, receives menu →
      menu.children.length ≤ outline.settings.maxItemsPerMenu

theorem nodes_freshItem (id : Text) (kind : Kind) :
    (freshItem id kind).nodes = [freshItem id kind] ∧ (freshItem id kind).children = [] := by
  cases kind <;> simp [freshItem, Node.children]

theorem addItem_keepsLimit {parent id : Text} {kind : Kind} (distinct : outline.root.ids.Nodup)
    (done : outline.addItem parent kind = .ok (after, id)) :
    outline.KeepsLimit after fun menu => menu.id = parent := by
  obtain ⟨menu, root, found, _, few, _, inserted, rfl⟩ := addItem_ok done
  obtain ⟨alone, childless⟩ := nodes_freshItem id kind
  have same := Node.limited_of_remains outline.settings.maxItemsPerMenu distinct
    (.of_subset (List.Subset.refl _))
  have fresh : Node.Limited outline.settings.maxItemsPerMenu outline.root
      (freshItem id kind).nodes := by
    intro node member
    rw [alone] at member
    rw [List.mem_singleton.mp member, childless]
    exact Nat.zero_le _
  have room : ∀ other, outline.root.find? parent = some other →
      other.children.length < outline.settings.maxItemsPerMenu := by
    intro other search
    cases found.symm.trans search
    exact few
  refine ⟨same.insert fresh room inserted, ?_⟩
  intro node member named
  obtain ⟨_, filled, search, _, _, _, length, remains⟩ := Node.remains_insert inserted
  obtain ⟨old, held, kept, fewer⟩ := remains node member
  rcases List.mem_append.mp held with new | old
  · rcases List.mem_cons.mp new with rfl | inside
    · have := room _ search
      omega
    · rw [alone] at inside
      rw [List.mem_singleton.mp inside, childless] at fewer
      exact Nat.le_trans fewer (Nat.zero_le _)
  · have search := (Node.find?_eq_some_iff distinct).mpr ⟨old, kept.trans named⟩
    have := room _ search
    omega

theorem deleteItem_keepsLimit {id : Text} (distinct : outline.root.ids.Nodup)
    (done : outline.deleteItem id = .ok after) : outline.KeepsLimit after fun _ => False := by
  obtain ⟨_, root, removed, taken, rfl⟩ := deleteItem_ok done
  exact ⟨Node.limited_of_remains _ distinct (Node.remains_extract taken).1, fun _ _ none => none.elim⟩

theorem updateItem_keepsLimit {id : Text} {revision : Node.Revision}
    (distinct : outline.root.ids.Nodup) (done : outline.updateItem id revision = .ok after) :
    outline.KeepsLimit after fun _ => False := by
  obtain ⟨root, updated, rfl⟩ := updateItem_ok done
  exact ⟨Node.limited_of_remains _ distinct (Node.remains_update updated), fun _ _ none => none.elim⟩

theorem moveItem_keepsLimit {dragged target : Text} {position : Position}
    (distinct : outline.root.ids.Nodup)
    (done : outline.moveItem dragged target position = .ok after) :
    outline.KeepsLimit after fun menu => dragged ∈ menu.children.map Node.id := by
  obtain ⟨_, _, _, _, without, moved, place, root, taken, found, inserted, rfl⟩ := moveItem_ok done
  obtain ⟨remains, listed, named⟩ := Node.remains_extract taken
  have room : ∀ menu, without.find? place.parent.id = some menu →
      menu.children.length < outline.settings.maxItemsPerMenu := by
    intro menu search
    obtain ⟨member, same⟩ := Node.mem_of_find? without search
    exact Node.length_lt_of_placement distinct taken found member same
  have kept := Node.limited_of_remains outline.settings.maxItemsPerMenu distinct remains
  have inner := Node.limited_of_remains outline.settings.maxItemsPerMenu distinct
    (.of_subset (Node.nodes_subset_of_mem _ listed))
  refine ⟨kept.insert inner room inserted, ?_⟩
  intro menu present holds
  obtain ⟨_, filled, search, there, item, _, length, _⟩ := Node.remains_insert inserted
  -- the moved item is held in one place, which is the menu that was filled
  have once : root.ids.Nodup := by
    have permuted := ((Node.grows_insert inserted).swap (Node.grows_extract taken)).ids
    exact permuted.nodup_iff.mp distinct
  have held : dragged ∈ filled.children.map Node.id := by
    rw [← named]
    exact List.mem_map_of_mem item
  obtain ⟨i, first⟩ := List.mem_iff_getElem?.mp holds
  obtain ⟨j, second⟩ := List.mem_iff_getElem?.mp held
  obtain ⟨rfl, _⟩ := Node.place_eq_of_id once present there first second
  have := room _ search
  omega

end Outline

namespace Session

variable {current outline : Outline} {next : Step}

theorem Makes.keepsLimit (makes : Makes current next outline) (edit : next.isEdit = true)
    (distinct : current.root.ids.Nodup) : current.KeepsLimit outline next.Receives := by
  cases makes with
  | add done => exact Outline.addItem_keepsLimit distinct done
  | delete done => exact Outline.deleteItem_keepsLimit distinct done
  | update done => exact Outline.updateItem_keepsLimit distinct done
  | move done => exact Outline.moveItem_keepsLimit distinct done
  | settings settings => cases edit
  | parse read => cases edit
  | regenerate generated read => cases edit

/-- An outline whose menus all have room on their screens, and whose limit keeps it so. -/
structure Roomy (outline : Outline) : Prop where
  identified : outline.WellIdentified
  limit : outline.settings.maxItemsPerMenu ≤ 8
  narrow : ∀ node ∈ outline.root.nodes, node.Narrow

theorem roomy_empty : Roomy .empty where
  identified := Outline.wellIdentified_empty
  limit := by decide
  narrow := by decide

theorem Makes.settings_eq (makes : Makes current next outline) (edit : next.isEdit = true) :
    outline.settings = current.settings := by
  cases makes with
  | add done =>
      obtain ⟨_, _, _, _, _, _, _, rfl⟩ := Outline.addItem_ok done
      rfl
  | delete done =>
      obtain ⟨_, _, _, _, rfl⟩ := Outline.deleteItem_ok done
      rfl
  | update done =>
      obtain ⟨_, _, rfl⟩ := Outline.updateItem_ok done
      rfl
  | move done =>
      obtain ⟨_, _, _, _, _, _, _, _, _, _, _, rfl⟩ := Outline.moveItem_ok done
      rfl
  | settings settings => cases edit
  | parse read => cases edit
  | regenerate generated read => cases edit

/-- An edit of a roomy outline leaves every menu within eight children: the limit is no more than
that, and no menu had more. -/
theorem Makes.roomy_of_isEdit (makes : Makes current next outline) (edit : next.isEdit = true)
    (roomy : Roomy current) (identified : outline.WellIdentified) : Roomy outline := by
  obtain ⟨limited, _⟩ := makes.keepsLimit edit roomy.identified.distinct
  refine ⟨identified, ?_, ?_⟩
  · rw [makes.settings_eq edit]
    exact roomy.limit
  · intro node member
    have before : current.root.childCount node.id ≤ 8 := by
      rw [Node.childCount]
      cases search : current.root.find? node.id with
      | none => exact Nat.zero_le _
      | some old => exact roomy.narrow old (Node.mem_of_find? _ search).1
    calc
      node.children.length
        ≤ max (current.root.childCount node.id) current.settings.maxItemsPerMenu :=
          limited node member
      _ ≤ 8 := Nat.max_le.mpr ⟨before, roomy.limit⟩

theorem Makes.roomy {session : Session} (makes : Makes session.current next outline)
    (modest : next.Modest) (admitted : session.Admits next) (roomy : Roomy session.current) :
    Roomy outline := by
  have identified := makes.wellIdentified roomy.identified admitted
  cases next with
  | add parent kind => exact makes.roomy_of_isEdit rfl roomy identified
  | delete id => exact makes.roomy_of_isEdit rfl roomy identified
  | update id revision => exact makes.roomy_of_isEdit rfl roomy identified
  | move dragged target position => exact makes.roomy_of_isEdit rfl roomy identified
  | settings settings =>
      cases makes
      exact ⟨identified, modest, roomy.narrow⟩
  | parse text => exact modest.elim
  | regenerate => exact modest.elim
  | generate => cases makes
  | undo => cases makes

theorem run_roomy {session : Session} {steps : List Step} (modest : ∀ next ∈ steps, next.Modest)
    (admitted : session.AdmitsAll steps) (every : ∀ outline ∈ session.history, Roomy outline) :
    ∀ outline ∈ (session.run steps).history, Roomy outline := by
  induction steps generalizing session with
  | nil => exact every
  | cons next rest ih =>
      apply ih (fun later member => modest later (.tail _ member)) admitted.2
      apply history_step every
      intro outline makes
      exact makes.roomy (modest next (.head _)) admitted.1 (every _ (.head _))

theorem Roomy.compile (roomy : Roomy outline) :
    outline.compile.result = .error (.capacityExceeded 676) ∨
      ∃ program, outline.compile.result = .ok program ∧
        Program.InPreorder outline.settings outline.root program := by
  have whole := Node.kept_of_narrow outline.root roomy.narrow
  obtain ⟨settings, root, nextId⟩ := outline
  cases root with
  | menu id title children =>
      rw [Node.kept] at whole
      have all : Node.keptIn 8 children = children := (Node.menu.inj whole).2.2
      rw [Outline.compile, Program.compile_menu, all]
      split
      · rename_i fits
        exact .inr ⟨_, rfl, Program.ofTree_inPreorder settings id title fits⟩
      · exact .inl rfl
  | note id title content => cases roomy.identified.menu
  | code id title content => cases roomy.identified.menu

/-- An edit leaves each menu within the limit of the settings or the number of children that it had
before, and a menu that gets an item within the limit. So in every run of edits from the empty
outline under limits of at most eight, no menu has more than eight children, and every outline that
there are labels enough for is compiled whole. -/
theorem edits_keep_capacity :
    (∀ (session after : Session) (next : Step) (reply : Reply),
      session.current.root.ids.Nodup → next.isEdit = true →
      session.perform next = .ok (after, reply) → ∀ menu ∈ after.current.root.nodes,
        menu.children.length ≤ max (session.current.root.childCount menu.id)
          session.current.settings.maxItemsPerMenu ∧
        (next.Receives menu →
          menu.children.length ≤ session.current.settings.maxItemsPerMenu)) ∧
    ∀ steps : List Step, (∀ next ∈ steps, next.Modest) → (start .empty).AdmitsAll steps →
      ∀ outline ∈ ((start .empty).run steps).history,
        (∀ menu ∈ outline.root.nodes, menu.children.length ≤ 8) ∧
        (outline.compile.result = .error (.capacityExceeded 676) ∨
          ∃ program, outline.compile.result = .ok program ∧
            Program.InPreorder outline.settings outline.root program) := by
  constructor
  · intro session after next reply distinct edit done menu member
    rcases perform_ok done with ⟨outline, makes, rfl⟩ | ⟨rfl, _⟩ | ⟨rfl, _⟩
    · obtain ⟨limited, received⟩ := makes.keepsLimit edit distinct
      exact ⟨limited menu member, received menu member⟩
    · cases edit
    · cases edit
  · intro steps modest admitted outline member
    have initial : ∀ first ∈ (start .empty).history, Roomy first := by
      intro first listed
      rw [List.mem_singleton.mp listed]
      exact roomy_empty
    have roomy := run_roomy modest admitted initial outline member
    exact ⟨roomy.narrow, roomy.compile⟩

def crowded : Outline :=
  ⟨{ maxItemsPerMenu := 2 }, .menu "top".toList "T".toList
    [.menu "a".toList "A".toList [.note "x".toList [] [], .note "y".toList [] [],
      .code "z".toList [] []], .menu "b".toList "B".toList []], 1⟩

def fillingSteps : List Step :=
  [.add Outline.rootId .menu, .add Outline.rootId .note, .settings { maxItemsPerMenu := 1 },
    .move (Outline.itemId 2) (Outline.itemId 1) .inside, .add (Outline.itemId 1) .code, .undo,
    .add Outline.rootId .code, .settings { maxItemsPerMenu := 3 }, .add Outline.rootId .code]

theorem edits_keep_capacity_crowded :
    (crowded.root.ids.Nodup ∧ crowded.root.childCount "a".toList = 3 ∧
      ∃ after reply,
        (start crowded).perform (.move "y".toList "b".toList .inside) = .ok (after, reply) ∧
        ∀ menu ∈ after.current.root.nodes,
          menu.children.length ≤ max (crowded.root.childCount menu.id) 2 ∧
          ("y".toList ∈ menu.children.map Node.id → menu.children.length ≤ 2)) ∧
    (∀ next ∈ fillingSteps, next.Modest) ∧ (start .empty).AdmitsAll fillingSteps ∧
      ∃ program, ((start .empty).run fillingSteps).current.compile.result = .ok program ∧
        program.pages.length = 5 ∧
        Program.InPreorder { maxItemsPerMenu := 3 }
          ((start .empty).run fillingSteps).current.root program := by
  obtain ⟨edits, runs⟩ := edits_keep_capacity
  constructor
  · have distinct : crowded.root.ids.Nodup := by decide +kernel
    have full : crowded.root.childCount "a".toList = 3 := by decide +kernel
    have moves : ((start crowded).perform (.move "y".toList "b".toList .inside)).isOk = true := by
      decide +kernel
    cases done : (start crowded).perform (.move "y".toList "b".toList .inside) with
    | error cause =>
        rw [done] at moves
        cases moves
    | ok result =>
        exact ⟨distinct, full, result.1, result.2, rfl,
          edits (start crowded) result.1 _ result.2 distinct rfl done⟩
  · have modest : ∀ next ∈ fillingSteps, next.Modest := by decide +kernel
    have admitted : (start .empty).AdmitsAll fillingSteps := by decide +kernel
    have limit : ((start .empty).run fillingSteps).current.settings = { maxItemsPerMenu := 3 } := by
      decide +kernel
    have pages : (((start .empty).run fillingSteps).current.compile.result.toOption.map
        fun program => program.pages.length) = some 5 := by decide +kernel
    obtain ⟨_, failed | ⟨program, compiled, inPreorder⟩⟩ :=
      runs fillingSteps modest admitted _ (List.mem_cons_self ..)
    · rw [failed] at pages
      cases pages
    · rw [compiled] at pages
      rw [limit] at inPreorder
      exact ⟨modest, admitted, program, compiled, Option.some.inj pages, inPreorder⟩

end Session

end CalcApp
