import CalcApp.Proofs.Node.Edit
import CalcApp.Proofs.Node.Origin

/-! Places in a tree. A place is reached through menus that stand in each other, each with a gap
among its children. An edit changes what stands in the last gap and leaves everything around it as
it is, so that taking an item out undoes putting it in. -/

namespace CalcApp.Node

/-- A menu with a gap among its children. -/
structure Shelf where
  id : Text
  title : Text
  front : List Node
  back : List Node

namespace Shelf

def hold (shelf : Shelf) (nodes : List Node) : Node :=
  .menu shelf.id shelf.title (shelf.front ++ nodes ++ shelf.back)

def beside (shelf : Shelf) : List Node := (shelf.front ++ shelf.back).flatMap Node.nodes

def ids (shelf : Shelf) : List Text := shelf.id :: (idsIn shelf.front ++ idsIn shelf.back)

def lead (shelf : Shelf) : List Text := shelf.id :: idsIn shelf.front

variable {shelf : Shelf} {nodes : List Node}

theorem id_mem_ids (shelf : Shelf) : shelf.id ∈ shelf.ids := List.mem_cons_self ..

theorem id_mem_lead (shelf : Shelf) : shelf.id ∈ shelf.lead := List.mem_cons_self ..

theorem lead_subset_ids (shelf : Shelf) : shelf.lead ⊆ shelf.ids :=
  List.cons_subset_cons _ (List.subset_append_left _ _)

theorem perm_below_hold (shelf : Shelf) (nodes : List Node) :
    (idsIn (shelf.hold nodes).children).Perm
      (idsIn shelf.front ++ idsIn shelf.back ++ idsIn nodes) := by
  rw [hold, Node.children, idsIn_append, idsIn_append, List.append_assoc, List.append_assoc]
  exact List.perm_append_comm.append_left _

theorem perm_ids_hold (shelf : Shelf) (nodes : List Node) :
    (shelf.hold nodes).ids.Perm (shelf.ids ++ idsIn nodes) := by
  rw [ids_eq]
  exact (perm_below_hold shelf nodes).cons shelf.id

theorem mem_nodes_hold {node : Node} :
    node ∈ (shelf.hold nodes).nodes ↔
      node ∈ nodes.flatMap Node.nodes ∨ node ∈ shelf.beside ∨ node = shelf.hold nodes := by
  rw [hold, nodes_menu, List.mem_cons, beside]
  simp only [List.flatMap_append, List.mem_append]
  tauto

end Shelf

theorem id_mem_own (node : Node) : node.id ∈ node.ids := by
  rw [ids_eq]
  exact List.mem_cons_self ..

theorem idsIn_singleton (node : Node) : idsIn [node] = node.ids := by
  rw [idsIn, idsIn, List.append_nil]

/-- Nodes in the gap of the last of some menus, each of which stands in the gap of the one before. -/
def nest : List Shelf → List Node → List Node
  | [], nodes => nodes
  | shelf :: inner, nodes => [shelf.hold (nest inner nodes)]

variable {shelves : List Shelf} {root without edited item menu node removed : Node}
  {nodes rest : List Node} {target : Text}

theorem nest_concat (shelves : List Shelf) (shelf : Shelf) (nodes : List Node) :
    nest (shelves ++ [shelf]) nodes = nest shelves [shelf.hold nodes] := by
  induction shelves with
  | nil => rfl
  | cons outer inner ih => rw [List.cons_append, nest, nest, ih]

theorem not_mem_leads (absent : target ∉ shelves.flatMap Shelf.ids) :
    target ∉ shelves.flatMap Shelf.lead := by
  intro met
  obtain ⟨shelf, member, listed⟩ := List.mem_flatMap.mp met
  exact absent (List.mem_flatMap.mpr ⟨shelf, member, shelf.lead_subset_ids listed⟩)

theorem perm_idsIn_nest (shelves : List Shelf) (nodes : List Node) :
    (idsIn (nest shelves nodes)).Perm (shelves.flatMap Shelf.ids ++ idsIn nodes) := by
  induction shelves with
  | nil => exact .refl _
  | cons shelf inner ih =>
      rw [nest, idsIn_singleton, List.flatMap_cons, List.append_assoc]
      exact (shelf.perm_ids_hold _).trans (ih.append_left _)

/-- A node stands in the gap, beside one of the menus that lead to it, or is such a menu. -/
theorem mem_nest : node ∈ (nest shelves nodes).flatMap Node.nodes ↔
    node ∈ nodes.flatMap Node.nodes ∨ (∃ shelf ∈ shelves, node ∈ shelf.beside) ∨
      ∃ outer shelf inner, shelves = outer ++ shelf :: inner ∧
        node = shelf.hold (nest inner nodes) := by
  induction shelves with
  | nil => simp [nest]
  | cons shelf inner ih =>
      rw [nest, List.flatMap_singleton, Shelf.mem_nodes_hold, ih]
      constructor
      · rintro ((within | ⟨other, member, beside⟩ | ⟨outer, other, lower, rfl, same⟩) | beside | same)
        · exact .inl within
        · exact .inr (.inl ⟨other, .tail _ member, beside⟩)
        · exact .inr (.inr ⟨shelf :: outer, other, lower, rfl, same⟩)
        · exact .inr (.inl ⟨shelf, .head _, beside⟩)
        · exact .inr (.inr ⟨[], shelf, inner, rfl, same⟩)
      · rintro (within | ⟨other, member, beside⟩ | ⟨outer, other, lower, split, same⟩)
        · exact .inl (.inl within)
        · rcases List.mem_cons.mp member with rfl | member
          · exact .inr (.inl beside)
          · exact .inl (.inr (.inl ⟨other, member, beside⟩))
        · rcases List.cons_eq_append_iff.mp split with ⟨rfl, first⟩ | ⟨upper, rfl, later⟩
          · cases first
            exact .inr (.inr same)
          · exact .inl (.inr (.inr ⟨upper, other, lower, later, same⟩))

mutual

theorem exists_nest : (root : Node) → node ∈ root.nodes → ∃ shelves, [root] = nest shelves [node]
  | .menu id title children, member => by
      rw [nodes_menu] at member
      rcases List.mem_cons.mp member with rfl | below
      · exact ⟨[], rfl⟩
      · obtain ⟨front, shelves, back, rfl⟩ := exists_nestIn children below
        exact ⟨⟨id, title, front, back⟩ :: shelves, rfl⟩
  | .note id title content, member => by
      rw [nodes_note] at member
      rw [List.mem_singleton.mp member]
      exact ⟨[], rfl⟩
  | .code id title content, member => by
      rw [nodes_code] at member
      rw [List.mem_singleton.mp member]
      exact ⟨[], rfl⟩

theorem exists_nestIn : (children : List Node) → node ∈ children.flatMap Node.nodes →
    ∃ front shelves back, children = front ++ nest shelves [node] ++ back
  | [], member => by cases member
  | child :: rest, member => by
      rw [List.flatMap_cons] at member
      rcases List.mem_append.mp member with first | later
      · obtain ⟨shelves, same⟩ := exists_nest child first
        exact ⟨[], shelves, rest, by rw [← same]; rfl⟩
      · obtain ⟨front, shelves, back, rfl⟩ := exists_nestIn rest later
        exact ⟨child :: front, shelves, back, rfl⟩

end

theorem exists_root (shelves : List Shelf) (node : Node) : ∃ root, [root] = nest shelves [node] := by
  cases shelves with
  | nil => exact ⟨node, rfl⟩
  | cons shelf inner => exact ⟨_, rfl⟩

theorem perm_ids_nest (place : [root] = nest shelves nodes) :
    root.ids.Perm (shelves.flatMap Shelf.ids ++ idsIn nodes) := by
  rw [← idsIn_singleton, place]
  exact perm_idsIn_nest shelves nodes

theorem mem_nodes_nest (place : [root] = nest shelves nodes) : node ∈ root.nodes ↔
    node ∈ nodes.flatMap Node.nodes ∨ (∃ shelf ∈ shelves, node ∈ shelf.beside) ∨
      ∃ outer shelf inner, shelves = outer ++ shelf :: inner ∧
        node = shelf.hold (nest inner nodes) := by
  rw [← mem_nest, ← place, List.flatMap_singleton]

theorem hold_mem_nodes {shelf : Shelf} (place : [root] = nest (shelves ++ [shelf]) nodes) :
    shelf.hold nodes ∈ root.nodes :=
  (mem_nodes_nest place).mpr (.inr (.inr ⟨shelves, shelf, [], rfl, rfl⟩))

theorem mem_below_hold {shelf : Shelf} {inner : List Shelf} :
    target ∈ idsIn (shelf.hold (nest inner nodes)).children ↔
      target ∈ idsIn shelf.front ++ idsIn shelf.back ++ inner.flatMap Shelf.ids ∨
        target ∈ idsIn nodes := by
  rw [(shelf.perm_below_hold _).mem_iff, List.mem_append, (perm_idsIn_nest inner nodes).mem_iff]
  simp only [List.mem_append, or_assoc]

theorem id_not_mem_of_beside {shelf other : Shelf} (distinct : root.ids.Nodup)
    (place : [root] = nest (shelves ++ [shelf]) nodes) (listed : other ∈ shelves ++ [shelf])
    (beside : node ∈ other.beside) : shelf.id ∉ node.ids := by
  have below : node.ids ⊆ idsIn (other.front ++ other.back) := by
    rw [← nodes_map_id, ← flatMap_nodes_map_id]
    exact List.map_subset _ (nodes_subset_of_mem_flatMap _ beside)
  rw [idsIn_append] at below
  have once := (List.nodup_append'.mp ((perm_ids_nest place).nodup_iff.mp distinct)).1
  rw [List.flatMap_append, List.flatMap_singleton, List.nodup_append'] at once
  obtain ⟨_, last, apart⟩ := once
  intro member
  rcases List.mem_append.mp listed with earlier | same
  · apply apart ?_ shelf.id_mem_ids
    exact List.mem_flatMap.mpr ⟨other, earlier, .tail _ (below member)⟩
  · rw [List.mem_singleton.mp same] at below
    exact (List.nodup_cons.mp last).1 (below member)

theorem unmet_of_nodup (distinct : root.ids.Nodup) (place : [root] = nest shelves [node]) :
    node.id ∉ shelves.flatMap Shelf.lead := by
  have apart := (List.nodup_append'.mp ((perm_ids_nest place).nodup_iff.mp distinct)).2.2
  rw [idsIn_singleton] at apart
  apply not_mem_leads
  exact fun listed => apart listed (id_mem_own node)

section Change

variable {change : Node → Except TreeError Node} {changed : Node}

mutual

theorem editAt?_of_not_mem :
    (node : Node) → target ∉ node.ids → editAt? target change node = none
  | .menu id title children, absent => by
      rw [ids, List.mem_cons, not_or] at absent
      rw [editAt?, if_neg (Ne.symm absent.1), editIn?_of_not_mem children absent.2]
      rfl
  | .note id title content, absent => by
      rw [ids, List.mem_singleton] at absent
      rw [editAt?, if_neg (Ne.symm absent)]
  | .code id title content, absent => by
      rw [ids, List.mem_singleton] at absent
      rw [editAt?, if_neg (Ne.symm absent)]

theorem editIn?_of_not_mem :
    (children : List Node) → target ∉ idsIn children → editIn? target change children = none
  | [], _ => by rw [editIn?]
  | child :: rest, absent => by
      rw [idsIn, List.mem_append, not_or] at absent
      rw [editIn?, editAt?_of_not_mem child absent.1, editIn?_of_not_mem rest absent.2]
      rfl

end

theorem editIn?_append_right {result : Except TreeError (List Node)} (back : List Node)
    (done : editIn? target change nodes = some result) :
    editIn? target change (nodes ++ back) = some (result.map (· ++ back)) := by
  induction nodes generalizing result with
  | nil =>
      rw [editIn?] at done
      cases done
  | cons child rest ih =>
      rw [editIn?] at done
      rw [List.cons_append, editIn?]
      split at done
      · rename_i edited inside
        cases done
        cases edited <;> rfl
      · rw [Option.map_eq_some_iff] at done
        obtain ⟨inner, later, rfl⟩ := done
        rw [ih later]
        cases inner <;> rfl

theorem editIn?_append_left {front : List Node} {result : Except TreeError (List Node)}
    (absent : target ∉ idsIn front) (done : editIn? target change nodes = some result) :
    editIn? target change (front ++ nodes) = some (result.map (front ++ ·)) := by
  induction front with
  | nil =>
      rw [List.nil_append, done]
      cases result <;> rfl
  | cons child rest ih =>
      rw [idsIn, List.mem_append, not_or] at absent
      rw [List.cons_append, editIn?, editAt?_of_not_mem child absent.1, ih absent.2]
      cases result <;> rfl

theorem editAt?_hold {shelf : Shelf} {result : Except TreeError (List Node)}
    (unmet : target ∉ shelf.lead) (done : editIn? target change nodes = some result) :
    editAt? target change (shelf.hold nodes) = some (result.map shelf.hold) := by
  rw [Shelf.lead, List.mem_cons, not_or] at unmet
  have inside := editIn?_append_right shelf.back (editIn?_append_left unmet.2 done)
  rw [Shelf.hold, editAt?, if_neg (Ne.symm unmet.1), inside]
  cases result <;> rfl

theorem editIn?_singleton (node : Node) : editIn? target change [node] =
    (editAt? target change node).map fun edited => edited.map ([·]) := by
  rw [editIn?]
  cases editAt? target change node with
  | none => rfl
  | some edited => rfl

/-- A change of the first node with an id is a change of what stands in its place; if it is
refused, so is the change of the tree. -/
theorem editIn?_nest (unmet : node.id ∉ shelves.flatMap Shelf.lead) :
    editIn? node.id change (nest shelves [node]) =
      some ((change node).map fun changed => nest shelves [changed]) := by
  induction shelves with
  | nil =>
      have here : editAt? node.id change node = some (change node) := by
        cases node <;> rw [editAt?] <;> exact if_pos rfl
      rw [nest, editIn?_singleton, here]
      rfl
  | cons shelf inner ih =>
      rw [List.flatMap_cons, List.mem_append, not_or] at unmet
      rw [nest, editIn?_singleton, editAt?_hold unmet.1 (ih unmet.2)]
      cases change node <;> rfl

theorem edit_place (place : [root] = nest shelves [node])
    (unmet : node.id ∉ shelves.flatMap Shelf.lead) (changes : change node = .ok changed) :
    ∃ edited, root.edit node.id change = .ok edited ∧ [edited] = nest shelves [changed] := by
  have done : editIn? node.id change (nest shelves [node]) = _ := editIn?_nest unmet
  rw [← place, changes, editIn?_singleton, Option.map_eq_some_iff] at done
  obtain ⟨result, found, mapped⟩ := done
  obtain ⟨edited, rfl, same⟩ := Outcome.map_eq_ok mapped
  refine ⟨edited, ?_, same⟩
  rw [edit, found]
  rfl

theorem edit_place_error {cause : TreeError} (place : [root] = nest shelves [node])
    (unmet : node.id ∉ shelves.flatMap Shelf.lead) (refused : change node = .error cause) :
    root.edit node.id change = .error cause := by
  have done : editIn? node.id change (nest shelves [node]) = _ := editIn?_nest unmet
  rw [← place, refused, editIn?_singleton, Option.map_eq_some_iff] at done
  obtain ⟨result, found, mapped⟩ := done
  rw [edit, found, Outcome.map_eq_error mapped]
  rfl

theorem edit_nest (distinct : root.ids.Nodup) (member : node ∈ root.nodes)
    (changes : change node = .ok changed) :
    ∃ shelves edited, root.edit node.id change = .ok edited ∧ [root] = nest shelves [node] ∧
      [edited] = nest shelves [changed] := by
  obtain ⟨shelves, place⟩ := exists_nest root member
  obtain ⟨edited, done, place'⟩ := edit_place place (unmet_of_nodup distinct place) changes
  exact ⟨shelves, edited, done, place, place'⟩

theorem nest_of_edit (distinct : root.ids.Nodup) (done : root.edit target change = .ok edited) :
    ∃ shelves node changed, node.id = target ∧ change node = .ok changed ∧
      [root] = nest shelves [node] ∧ [edited] = nest shelves [changed] := by
  obtain ⟨node, changed, search, changes, _⟩ := remains_edit done
  obtain ⟨member, rfl⟩ := mem_of_find? root search
  obtain ⟨shelves, other, done', place, place'⟩ := edit_nest distinct member changes
  cases done.symm.trans done'
  exact ⟨shelves, node, changed, rfl, changes, place, place'⟩

end Change

structure Adds (shelves : List Shelf) (item earlier later : Node) : Prop where
  empty : [earlier] = nest shelves []
  filled : [later] = nest shelves [item]

theorem addChild_hold {index : Nat} {changed : Node} (added : addChild index item node = .ok changed) :
    ∃ shelf : Shelf, node = shelf.hold [] ∧ changed = shelf.hold [item] ∧
      shelf.front = node.children.take index := by
  cases node with
  | menu id title children =>
      cases added
      refine ⟨⟨id, title, children.take index, children.drop index⟩, ?_, ?_, rfl⟩
      · rw [Shelf.hold, List.append_nil, List.take_append_drop]
      · rw [Shelf.hold, List.append_assoc, List.singleton_append]
  | note id title content => cases added
  | code id title content => cases added

theorem addChild_isMenu (isMenu : menu.isMenu = true) (index : Nat) (item : Node) :
    ∃ changed, addChild index item menu = .ok changed := by
  cases menu with
  | menu id title children => exact ⟨_, rfl⟩
  | note id title content => cases isMenu
  | code id title content => cases isMenu

/-- Where ids differ, an item that is put into a menu stands in a gap of this menu. -/
theorem adds_insert_at (distinct : root.ids.Nodup) (member : menu ∈ root.nodes)
    (isMenu : menu.isMenu = true) (index : Nat) (item : Node) :
    ∃ shelves shelf edited, root.insert menu.id index item = .ok edited ∧
      Adds (shelves ++ [shelf]) item root edited ∧ menu = shelf.hold [] ∧
      shelf.front = menu.children.take index := by
  obtain ⟨changed, added⟩ := addChild_isMenu isMenu index item
  obtain ⟨shelves, edited, done, place, place'⟩ := edit_nest distinct member added
  obtain ⟨shelf, same, rfl, front⟩ := addChild_hold added
  rw [same, ← nest_concat] at place
  rw [← nest_concat] at place'
  exact ⟨shelves, shelf, edited, done, ⟨place, place'⟩, same, front⟩

theorem adds_insert (distinct : root.ids.Nodup) (member : menu ∈ root.nodes)
    (isMenu : menu.isMenu = true) (index : Nat) (item : Node) :
    ∃ shelves edited, root.insert menu.id index item = .ok edited ∧ Adds shelves item root edited := by
  obtain ⟨shelves, shelf, edited, done, adds, _⟩ := adds_insert_at distinct member isMenu index item
  exact ⟨shelves ++ [shelf], edited, done, adds⟩

theorem adds_of_insert {parent : Text} {index : Nat} (distinct : root.ids.Nodup)
    (done : root.insert parent index item = .ok edited) :
    ∃ shelves shelf, Shelf.id shelf = parent ∧ Adds (shelves ++ [shelf]) item root edited := by
  obtain ⟨shelves, node, changed, named, added, place, place'⟩ := nest_of_edit distinct done
  obtain ⟨shelf, rfl, rfl, _⟩ := addChild_hold added
  rw [← nest_concat] at place place'
  exact ⟨shelves, shelf, named, place, place'⟩

theorem strip?_of_not_mem (absent : target ∉ node.ids) : strip? target node = none := by
  cases taken : strip? target node with
  | none => rfl
  | some result =>
      obtain ⟨_, member, rfl⟩ := remains_strip? node taken
      exact absurd (id_mem_ids member) absent

theorem stripIn?_append_right (back : List Node)
    (taken : stripIn? target nodes = some (rest, removed)) :
    stripIn? target (nodes ++ back) = some (rest ++ back, removed) := by
  induction nodes generalizing rest with
  | nil =>
      rw [stripIn?] at taken
      cases taken
  | cons child others ih =>
      rw [stripIn?] at taken
      rw [List.cons_append, stripIn?]
      split at taken
      · rename_i same
        cases taken
        rw [if_pos same]
      · rename_i other
        rw [if_neg other]
        split at taken
        · cases taken
          rfl
        · rw [Option.map_eq_some_iff] at taken
          obtain ⟨⟨left, gone⟩, later, same⟩ := taken
          cases same
          rw [ih later]
          rfl

theorem stripIn?_append_left {front : List Node} (absent : target ∉ idsIn front)
    (taken : stripIn? target nodes = some (rest, removed)) :
    stripIn? target (front ++ nodes) = some (front ++ rest, removed) := by
  induction front with
  | nil => exact taken
  | cons child others ih =>
      rw [idsIn, List.mem_append, not_or] at absent
      have other : child.id ≠ target := fun same => absent.1 (same ▸ id_mem_own child)
      rw [List.cons_append, stripIn?, if_neg other, strip?_of_not_mem absent.1, ih absent.2]
      rfl

theorem strip?_hold {shelf : Shelf} (unmet : target ∉ shelf.lead)
    (taken : stripIn? target nodes = some (rest, removed)) :
    strip? target (shelf.hold nodes) = some (shelf.hold rest, removed) := by
  rw [Shelf.lead, List.mem_cons, not_or] at unmet
  have inside := stripIn?_append_right shelf.back (stripIn?_append_left unmet.2 taken)
  rw [Shelf.hold, strip?, inside]
  rfl

theorem stripIn?_nest (unmet : item.id ∉ shelves.flatMap Shelf.lead) :
    stripIn? item.id (nest shelves [item]) = some (nest shelves [], item) := by
  induction shelves with
  | nil => rw [nest, nest, stripIn?, if_pos rfl]
  | cons shelf inner ih =>
      rw [List.flatMap_cons, List.mem_append, not_or] at unmet
      have other : (shelf.hold (nest inner [item])).id ≠ item.id :=
        fun same => unmet.1 (same ▸ shelf.id_mem_lead)
      rw [nest, nest, stripIn?, if_neg other, strip?_hold unmet.1 (ih unmet.2)]

namespace Adds

variable {earlier later : Node}

theorem perm (adds : Adds shelves item earlier later) :
    later.ids.Perm (item.ids ++ earlier.ids) := by
  have before := perm_ids_nest adds.empty
  have after := perm_ids_nest adds.filled
  rw [idsIn, List.append_nil] at before
  rw [idsIn_singleton] at after
  exact (after.trans (before.symm.append_right _)).trans List.perm_append_comm

theorem id_eq (adds : Adds shelves item earlier later) : later.id = earlier.id := by
  obtain ⟨empty, filled⟩ := adds
  cases shelves with
  | nil => cases empty
  | cons shelf inner =>
      cases empty
      cases filled
      rfl

theorem unmet (adds : Adds shelves item earlier later) (fresh : target ∉ earlier.ids) :
    target ∉ shelves.flatMap Shelf.lead := by
  apply not_mem_leads
  intro listed
  apply fresh
  exact (perm_ids_nest adds.empty).symm.subset (List.mem_append_left _ listed)

theorem extract_of_unmet (adds : Adds shelves item earlier later)
    (unmet : item.id ∉ shelves.flatMap Shelf.lead) : later.extract item.id = (earlier, some item) := by
  obtain ⟨empty, filled⟩ := adds
  cases shelves with
  | nil => cases empty
  | cons shelf inner =>
      cases empty
      cases filled
      rw [List.flatMap_cons, List.mem_append, not_or] at unmet
      rw [Node.extract, strip?_hold unmet.1 (stripIn?_nest unmet.2)]

theorem extract (adds : Adds shelves item earlier later) (fresh : item.id ∉ earlier.ids) :
    later.extract item.id = (earlier, some item) :=
  adds.extract_of_unmet (adds.unmet fresh)

theorem disjoint (adds : Adds shelves item earlier later) (distinct : later.ids.Nodup) :
    item.ids.Disjoint earlier.ids :=
  (List.nodup_append'.mp (adds.perm.nodup_iff.mp distinct)).2.2

theorem nodup (adds : Adds shelves item earlier later) (distinct : later.ids.Nodup) :
    earlier.ids.Nodup :=
  (List.nodup_append'.mp (adds.perm.nodup_iff.mp distinct)).2.1

end Adds

/-- The item in a gap is taken out if it is the first node with its id. -/
theorem extract_place {shelf : Shelf} (place : [root] = nest (shelves ++ [shelf]) [item])
    (unmet : item.id ∉ (shelves ++ [shelf]).flatMap Shelf.lead) :
    ∃ without, root.extract item.id = (without, some item) ∧
      Adds (shelves ++ [shelf]) item without root := by
  obtain ⟨without, empty⟩ := exists_root shelves (shelf.hold [])
  rw [← nest_concat] at empty
  have adds : Adds (shelves ++ [shelf]) item without root := ⟨empty, place⟩
  exact ⟨without, adds.extract_of_unmet unmet, adds⟩

theorem extract_nest {shelf : Shelf} (distinct : root.ids.Nodup)
    (place : [root] = nest (shelves ++ [shelf]) [item]) :
    ∃ without, root.extract item.id = (without, some item) ∧
      Adds (shelves ++ [shelf]) item without root :=
  extract_place place (unmet_of_nodup distinct place)

theorem adds_of_extract (distinct : root.ids.Nodup)
    (taken : root.extract target = (without, some removed)) :
    ∃ shelves shelf, Adds (shelves ++ [shelf]) removed without root := by
  obtain ⟨_, member, rfl⟩ := remains_extract taken
  obtain ⟨shelves, place⟩ := exists_nest root member
  rcases List.eq_nil_or_concat shelves with rfl | ⟨outer, shelf, rfl⟩
  · cases place
    have count := (grows_extract taken).ids.length_eq
    rw [List.length_append, without.ids_eq, List.length_cons] at count
    omega
  · rw [List.concat_eq_append] at place
    obtain ⟨other, taken', adds⟩ := extract_nest distinct place
    cases taken.symm.trans taken'
    exact ⟨outer, shelf, adds⟩

end CalcApp.Node
