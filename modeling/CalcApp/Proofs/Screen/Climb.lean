import CalcApp.Proofs.Node.Find
import CalcApp.Screen

/-! The search for a label goes from an id to the id of the parent and looks that one up again.
Where ids are repeated it may come to a node that lies deeper than the parent, but the first place of
the id in pre-order always decreases, so that the search ends. -/

namespace CalcApp

namespace Node

variable {root parent : Node} {id : Text} {index : Nat}

def firstPlace? (root : Node) (id : Text) : Option Nat :=
  root.nodes.findIdx? fun node => node.id == id

theorem firstPlace?_of_mem (listed : id ∈ root.ids) :
    root.firstPlace? id = some (root.ids.idxOf id) := by
  have bound : root.ids.idxOf id < root.nodes.length := by
    have place := List.idxOf_lt_length_iff.mpr listed
    rwa [← nodes_map_id, List.length_map, nodes_map_id] at place
  have same : root.nodes.findIdx (fun node => node.id == id) = root.ids.idxOf id := by
    rw [← nodes_map_id, List.idxOf, List.findIdx_map]
    rfl
  rw [firstPlace?, List.findIdx?_eq_some_iff_findIdx_eq]
  exact ⟨bound, same⟩

theorem mem_ids_of_findParent? (found : root.findParent? id = some (parent, index)) :
    id ∈ root.ids := by
  obtain ⟨member, held⟩ := mem_of_findParent? root found
  have listed := List.mem_of_getElem? held
  obtain ⟨child, below, named⟩ := List.mem_map.mp listed
  rw [← named]
  exact id_mem_ids (mem_nodes_of_child member below)

/-- The first node with the id of the parent comes before the first node with the id. -/
theorem firstPlace?_parent_lt (below : root.id ≠ id)
    (found : root.findParent? id = some (parent, index)) :
    ∃ above place, root.firstPlace? parent.id = some above ∧ root.firstPlace? id = some place ∧
      above < place := by
  have listed := mem_ids_of_findParent? found
  have held : parent.id ∈ root.ids := id_mem_ids (mem_of_findParent? root found).1
  exact ⟨_, _, firstPlace?_of_mem held, firstPlace?_of_mem listed, idxOf_parent_lt below found⟩

end Node

namespace Screen

/-- The search for the label of an id needs that of the id above it. -/
def Climbs (root : Node) (id above : Text) : Prop :=
  root.id ≠ id ∧ ∃ parent index, root.findParent? id = some (parent, index) ∧ parent.id = above

theorem climbs_wellFounded (root : Node) : WellFounded fun above id => Climbs root id above := by
  apply Subrelation.wf _ (measure fun id => root.ids.idxOf id).wf
  intro above id climbs
  obtain ⟨below, parent, index, found, rfl⟩ := climbs
  exact Node.idxOf_parent_lt below found

def entryLabel? (sections : List Text) (index : Nat) (label : Label) : Option Label :=
  (findIn sections label).bind fun code =>
    (menu? code).bind fun menu => menu.choices.dropLast[index]?.map Choice.target

/-- The search for a label with at most `calls` calls one inside the other; `none` if these are not
enough. -/
def labelWithin? (sections : List Text) (root : Node) : Nat → Text → Option (Option Label)
  | 0, _ => none
  | calls + 1, id =>
    if root.id = id then some (sections.head?.bind label?)
    else
      match root.findParent? id with
      | none => some none
      | some (parent, index) =>
        (labelWithin? sections root calls parent.id).map fun label =>
          label.bind (entryLabel? sections index)

variable {sections : List Text} {root : Node} {id : Text} {calls : Nat}

theorem labelIn?_root (own : root.id = id) :
    labelIn? sections root id = sections.head?.bind label? := by
  rw [labelIn?, dif_pos own]

theorem labelIn?_missing (below : root.id ≠ id) (missing : root.findParent? id = none) :
    labelIn? sections root id = none := by
  rw [labelIn?, dif_neg below]
  split
  · rfl
  · rename_i found
    rw [missing] at found
    cases found

theorem labelIn?_climb (below : root.id ≠ id) {parent : Node} {index : Nat}
    (found : root.findParent? id = some (parent, index)) :
    labelIn? sections root id =
      (labelIn? sections root parent.id).bind (entryLabel? sections index) := by
  rw [labelIn?, dif_neg below]
  split
  · rename_i missing
    rw [missing] at found
    cases found
  · rename_i other place same
    rw [found] at same
    cases same
    rfl

/-- Calls that reach down to the first place of the id are enough. -/
theorem labelWithin?_eq (enough : (root.firstPlace? id).getD 0 < calls) :
    labelWithin? sections root calls id = some (labelIn? sections root id) := by
  induction calls generalizing id with
  | zero => omega
  | succ calls ih =>
      rw [labelWithin?]
      by_cases own : root.id = id
      · rw [if_pos own, labelIn?_root own]
      · rw [if_neg own]
        cases search : root.findParent? id with
        | none => rw [labelIn?_missing own search]
        | some found =>
            obtain ⟨parent, index⟩ := found
            obtain ⟨above, place, before, here, less⟩ := Node.firstPlace?_parent_lt own search
            have fewer : (root.firstPlace? parent.id).getD 0 < calls := by
              rw [here, Option.getD_some] at enough
              rw [before, Option.getD_some]
              omega
            dsimp only
            rw [labelIn?_climb own search, ih fewer, Option.map_some]

/-- The search for a label ends for every tree. The first place of an id lies behind that of its
parent's id, so that no search climbs for ever, and an id is answered with no more calls inside each
other than there are nodes up to its first place. -/
theorem climb_ends (root : Node) :
    (∀ id parent index, root.id ≠ id → root.findParent? id = some (parent, index) →
      ∃ above place, root.firstPlace? parent.id = some above ∧
        root.firstPlace? id = some place ∧ above < place) ∧
      (WellFounded fun above id => Climbs root id above) ∧
      ∀ program id calls, (root.firstPlace? id).getD 0 < calls →
        labelWithin? (Screen.sections program) root calls id =
          some (labelFor? program root id) := by
  refine ⟨?_, climbs_wellFounded root, ?_⟩
  · intro id parent index below found
    exact Node.firstPlace?_parent_lt below found
  · intro program id calls enough
    exact labelWithin?_eq enough

def namesake : Node :=
  .menu ['r'] [] [.menu ['p'] [] [.menu ['q'] [] [.note ['m'] [] []]],
    .menu ['m'] [] [.note ['n'] [] []]]

theorem climb_ends_namesake :
    namesake.findParent? ['n'] = some (.menu ['m'] [] [.note ['n'] [] []], 0) ∧
      namesake.findParent? ['m'] = some (.menu ['q'] [] [.note ['m'] [] []], 0) ∧
      namesake.firstPlace? ['q'] = some 2 ∧ namesake.firstPlace? ['m'] = some 3 ∧
      namesake.firstPlace? ['n'] = some 5 ∧
      (∃ above place, namesake.firstPlace? ['m'] = some above ∧
        namesake.firstPlace? ['n'] = some place ∧ above < place) ∧
      ∀ program, labelWithin? (Screen.sections program) namesake 6 ['n'] =
        some (labelFor? program namesake ['n']) := by
  have holder : namesake.findParent? ['n'] = some (.menu ['m'] [] [.note ['n'] [] []], 0) := rfl
  have place : namesake.firstPlace? ['n'] = some 5 := by decide
  obtain ⟨precedes, _, answered⟩ := climb_ends namesake
  refine ⟨holder, rfl, by decide, by decide, place, precedes _ _ _ (by decide) holder, ?_⟩
  intro program
  apply answered
  rw [place]
  decide

end Screen

end CalcApp
