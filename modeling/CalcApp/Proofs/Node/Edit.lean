import CalcApp.Node.Edit
import CalcApp.Proofs.Event
import Mathlib.Data.List.Nodup
import Mathlib.Data.List.Perm.Basic

namespace CalcApp.Node

/-- The later tree has the root of the earlier one, its ids and the ids `extra`. -/
structure Grows (extra : List Text) (earlier later : Node) : Prop where
  id : later.id = earlier.id
  kind : later.kind = earlier.kind
  ids : later.ids.Perm (extra ++ earlier.ids)

namespace Grows

variable {extra : List Text} {earlier later : Node}

theorem isMenu (grows : Grows extra earlier later) : later.isMenu = earlier.isMenu := by
  rw [Node.isMenu, Node.isMenu, grows.kind]

theorem below (grows : Grows extra earlier later) :
    (idsIn later.children).Perm (extra ++ idsIn earlier.children) := by
  apply List.Perm.cons_inv
  calc
    (earlier.id :: idsIn later.children) = later.ids := by rw [ids_eq, grows.id]
    List.Perm _ (extra ++ earlier.ids) := grows.ids
    _ = extra ++ earlier.id :: idsIn earlier.children := by rw [ids_eq]
    List.Perm _ (earlier.id :: (extra ++ idsIn earlier.children)) := List.perm_middle

/-- Two trees that grow from one by the same ids have the same ids. -/
theorem swap {other : Node} (grows : Grows extra earlier later) (grows' : Grows extra earlier other) :
    Grows [] later other :=
  ⟨grows'.id.trans grows.id.symm, grows'.kind.trans grows.kind.symm, grows'.ids.trans grows.ids.symm⟩

theorem symm (grows : Grows [] earlier later) : Grows [] later earlier :=
  grows.swap ⟨rfl, rfl, .refl _⟩

end Grows

@[simp] theorem idsIn_append (front back : List Node) :
    idsIn (front ++ back) = idsIn front ++ idsIn back := by
  induction front with
  | nil => rw [List.nil_append, idsIn, List.nil_append]
  | cons child rest ih => rw [List.cons_append, idsIn, idsIn, ih, List.append_assoc]

mutual

theorem grows_strip? {target : Text} {stripped removed : Node} :
    (node : Node) → strip? target node = some (stripped, removed) →
      Grows removed.ids stripped node
  | .menu id title children, taken => by
      rw [strip?, Option.map_eq_some_iff] at taken
      obtain ⟨⟨rest, gone⟩, inside, same⟩ := taken
      cases same
      have inner := perm_stripIn? children inside
      refine ⟨rfl, rfl, ?_⟩
      rw [ids, ids]
      exact (inner.cons id).trans List.perm_middle.symm
  | .note _ _ _, taken => by
      rw [strip?] at taken
      cases taken
  | .code _ _ _, taken => by
      rw [strip?] at taken
      cases taken

theorem perm_stripIn? {target : Text} {rest : List Node} {removed : Node} :
    (nodes : List Node) → stripIn? target nodes = some (rest, removed) →
      (idsIn nodes).Perm (removed.ids ++ idsIn rest)
  | [], taken => by
      rw [stripIn?] at taken
      cases taken
  | child :: others, taken => by
      rw [stripIn?] at taken
      split at taken
      · cases taken
        rw [idsIn]
      · split at taken
        · rename_i stripped gone inside
          cases taken
          have inner := (grows_strip? child inside).ids
          rw [idsIn, idsIn, ← List.append_assoc]
          exact inner.append_right _
        · rw [Option.map_eq_some_iff] at taken
          obtain ⟨⟨left, gone⟩, later, same⟩ := taken
          cases same
          have inner := perm_stripIn? others later
          rw [idsIn, idsIn]
          exact (inner.append_left child.ids).trans (List.perm_append_comm_assoc _ _ _)

end

theorem grows_extract {root without removed : Node} {target : Text}
    (taken : root.extract target = (without, some removed)) : Grows removed.ids without root := by
  rw [extract] at taken
  split at taken
  · rename_i found
    cases taken
    exact grows_strip? root found
  · cases taken

section Change

variable {target : Text} {change : Node → Except TreeError Node} {extra : List Text}

mutual

theorem grows_editAt? {edited : Node}
    (grow : ∀ node changed, change node = .ok changed → Grows extra node changed) :
    (node : Node) → editAt? target change node = some (.ok edited) → Grows extra node edited
  | .menu id title children, found => by
      rw [editAt?] at found
      split at found
      · exact grow _ _ (Option.some.inj found)
      · rw [Option.map_eq_some_iff] at found
        obtain ⟨result, inside, same⟩ := found
        obtain ⟨others, rfl, rfl⟩ := Outcome.map_eq_ok same
        have inner := perm_editIn? grow children inside
        refine ⟨rfl, rfl, ?_⟩
        rw [ids, ids]
        exact (inner.cons id).trans List.perm_middle.symm
  | .note id title content, found => by
      rw [editAt?] at found
      split at found
      · exact grow _ _ (Option.some.inj found)
      · cases found
  | .code id title content, found => by
      rw [editAt?] at found
      split at found
      · exact grow _ _ (Option.some.inj found)
      · cases found

theorem perm_editIn? {edited : List Node}
    (grow : ∀ node changed, change node = .ok changed → Grows extra node changed) :
    (nodes : List Node) → editIn? target change nodes = some (.ok edited) →
      (idsIn edited).Perm (extra ++ idsIn nodes)
  | [], found => by
      rw [editIn?] at found
      cases found
  | child :: rest, found => by
      rw [editIn?] at found
      split at found
      · rename_i result inside
        obtain ⟨other, rfl, rfl⟩ := Outcome.map_eq_ok (Option.some.inj found)
        have inner := (grows_editAt? grow child inside).ids
        rw [idsIn, idsIn, ← List.append_assoc]
        exact inner.append_right _
      · rw [Option.map_eq_some_iff] at found
        obtain ⟨result, later, same⟩ := found
        obtain ⟨others, rfl, rfl⟩ := Outcome.map_eq_ok same
        have inner := perm_editIn? grow rest later
        rw [idsIn, idsIn]
        exact (inner.append_left child.ids).trans (List.perm_append_comm_assoc _ _ _)

end

theorem grows_edit {root edited : Node}
    (grow : ∀ node changed, change node = .ok changed → Grows extra node changed)
    (done : root.edit target change = .ok edited) : Grows extra root edited := by
  rw [edit] at done
  cases found : editAt? target change root with
  | none =>
      rw [found] at done
      cases done
  | some result =>
      rw [found] at done
      exact grows_editAt? grow root (found.trans (congrArg some done))

end Change

theorem grows_addChild {index : Nat} {item node changed : Node}
    (added : addChild index item node = .ok changed) : Grows item.ids node changed := by
  cases node with
  | menu id title children =>
      cases added
      refine ⟨rfl, rfl, ?_⟩
      rw [ids, ids, idsIn_append, idsIn]
      have whole : idsIn children = idsIn (children.take index) ++ idsIn (children.drop index) := by
        rw [← idsIn_append, List.take_append_drop]
      rw [whole]
      exact ((List.perm_append_comm_assoc _ _ _).cons id).trans List.perm_middle.symm
  | note id title content => cases added
  | code id title content => cases added

theorem grows_insert {root item edited : Node} {parent : Text} {index : Nat}
    (done : root.insert parent index item = .ok edited) : Grows item.ids root edited :=
  grows_edit (fun _ _ => grows_addChild) done

theorem grows_revise {revision : Revision} {node changed : Node}
    (revised : revise revision node = .ok changed) : Grows [] node changed := by
  cases node with
  | menu id title children =>
      rw [revise] at revised
      split at revised
      · cases revised
      · cases revised
        exact ⟨rfl, rfl, .refl _⟩
  | note id title content =>
      cases revised
      exact ⟨rfl, rfl, .refl _⟩
  | code id title content =>
      cases revised
      exact ⟨rfl, rfl, .refl _⟩

theorem grows_update {root edited : Node} {target : Text} {revision : Revision}
    (done : root.update target revision = .ok edited) : Grows [] root edited :=
  grows_edit (fun _ _ => grows_revise) done

end CalcApp.Node
