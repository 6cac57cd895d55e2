import CalcApp.Session
import CalcApp.Proofs.Event
import Mathlib.Algebra.Ring.Nat

namespace CalcApp

namespace Outline

variable {outline after : Outline}

theorem addItem_ok {parent id : Text} {kind : Kind}
    (done : outline.addItem parent kind = .ok (after, id)) :
    ∃ menu root, outline.root.find? parent = some menu ∧ menu.isMenu = true ∧
      menu.children.length < outline.settings.maxItemsPerMenu ∧ id = itemId outline.nextId ∧
      outline.root.insert parent menu.children.length (freshItem id kind) = .ok root ∧
      after = ⟨outline.settings, root, (outline.nextId + 1) % 2 ^ 64⟩ := by
  rw [addItem] at done
  split at done
  · cases done
  · rename_i menu found
    split at done
    · cases done
    · rename_i isMenu
      split at done
      · cases done
      · rename_i room
        obtain ⟨root, inserted, same⟩ := Outcome.bind_eq_ok done
        cases same
        exact ⟨menu, root, found, by simpa using isMenu, by omega, rfl, inserted, rfl⟩

theorem deleteItem_ok {id : Text} (done : outline.deleteItem id = .ok after) :
    outline.root.id ≠ id ∧ ∃ root removed, outline.root.extract id = (root, some removed) ∧
      after = outline.withRoot root := by
  rw [deleteItem] at done
  split at done
  · cases done
  · rename_i other
    split at done
    · rename_i root removed taken
      cases done
      exact ⟨other, root, removed, taken, rfl⟩
    · cases done

theorem updateItem_ok {id : Text} {revision : Node.Revision}
    (done : outline.updateItem id revision = .ok after) :
    ∃ root, outline.root.update id revision = .ok root ∧ after = outline.withRoot root := by
  obtain ⟨root, updated, same⟩ := Outcome.map_eq_ok done
  exact ⟨root, updated, same.symm⟩

theorem moveItem_ok {dragged target : Text} {position : Position}
    (done : outline.moveItem dragged target position = .ok after) :
    outline.root.id ≠ dragged ∧ (outline.root.find? dragged).isSome ∧
      (outline.root.find? target).isSome ∧
      (outline.root.resolvePlacement dragged target position
        outline.settings.maxItemsPerMenu).isSome ∧
      ∃ without moved place root, outline.root.extract dragged = (without, some moved) ∧
        without.resolvePlacement dragged target position outline.settings.maxItemsPerMenu =
          some place ∧
        without.insert place.parent.id place.index moved = .ok root ∧
        after = outline.withRoot root := by
  rw [moveItem] at done
  split at done
  · cases done
  rename_i other
  split at done
  · cases done
  rename_i known
  split at done
  · cases done
  rename_i aimed
  split at done
  · cases done
  rename_i allowed
  split at done
  · cases done
  rename_i without moved taken
  split at done
  · cases done
  rename_i place found
  obtain ⟨root, inserted, same⟩ := Outcome.map_eq_ok done
  rw [Bool.not_eq_true, Option.isNone_eq_false_iff] at known aimed allowed
  exact ⟨other, known, aimed, allowed, without, moved, place, root, taken, found, inserted,
    same.symm⟩

end Outline

namespace Session

theorem regenerate_ok {outline later : Outline} {text : Text}
    (done : regenerate outline = .ok (later, text)) :
    ∃ copy, outline.generate = .ok text ∧ (Outline.parse text).result = .ok copy ∧
      later = copy.withSettings outline.settings := by
  rw [regenerate] at done
  split at done
  · cases done
  · rename_i generated
    split at done
    · cases done
    · rename_i copy read
      cases done
      exact ⟨copy, generated, read, rfl⟩

inductive Makes (current : Outline) : Step → Outline → Prop
  | add {parent id : Text} {kind : Kind} {after : Outline}
      (done : current.addItem parent kind = .ok (after, id)) : Makes current (.add parent kind) after
  | delete {id : Text} {after : Outline} (done : current.deleteItem id = .ok after) :
      Makes current (.delete id) after
  | update {id : Text} {revision : Node.Revision} {after : Outline}
      (done : current.updateItem id revision = .ok after) : Makes current (.update id revision) after
  | move {dragged target : Text} {position : Position} {after : Outline}
      (done : current.moveItem dragged target position = .ok after) :
      Makes current (.move dragged target position) after
  | settings (settings : Settings) : Makes current (.settings settings) (current.withSettings settings)
  | parse {text : Text} {after : Outline} (read : (Outline.parse text).result = .ok after) :
      Makes current (.parse text) after
  | regenerate {text : Text} {copy : Outline} (generated : current.generate = .ok text)
      (read : (Outline.parse text).result = .ok copy) :
      Makes current .regenerate (copy.withSettings current.settings)

variable {session after : Session} {next : Step}

theorem perform_ok {reply : Reply} (done : session.perform next = .ok (after, reply)) :
    (∃ outline, Makes session.current next outline ∧ after = session.push outline) ∨
      (next = .undo ∧ after = session.undo) ∨ (next = .generate ∧ after = session) := by
  cases next with
  | add parent kind =>
      rw [perform] at done
      split at done
      · rename_i added
        cases done
        exact .inl ⟨_, .add added, rfl⟩
      · cases done
  | delete id =>
      rw [perform] at done
      split at done
      · rename_i deleted
        cases done
        exact .inl ⟨_, .delete deleted, rfl⟩
      · cases done
  | update id revision =>
      rw [perform] at done
      split at done
      · rename_i updated
        cases done
        exact .inl ⟨_, .update updated, rfl⟩
      · cases done
  | move dragged target position =>
      rw [perform] at done
      split at done
      · rename_i moved
        cases done
        exact .inl ⟨_, .move moved, rfl⟩
      · cases done
  | settings settings =>
      cases done
      exact .inl ⟨_, .settings settings, rfl⟩
  | parse text =>
      rw [perform] at done
      split at done
      · rename_i read
        cases done
        exact .inl ⟨_, .parse read, rfl⟩
      · cases done
  | regenerate =>
      rw [perform] at done
      split at done
      · rename_i regenerated
        cases done
        obtain ⟨copy, generated, read, rfl⟩ := regenerate_ok regenerated
        exact .inl ⟨_, .regenerate generated read, rfl⟩
      · cases done
  | generate =>
      rw [perform] at done
      split at done
      · cases done
        exact .inr (.inr ⟨rfl, rfl⟩)
      · cases done
  | undo =>
      cases done
      exact .inr (.inl ⟨rfl, rfl⟩)

/-- A property that the outline made by a step keeps holds of all outlines after the step, whether
it succeeds or not. -/
theorem history_step {P : Outline → Prop} (every : ∀ outline ∈ session.history, P outline)
    (kept : ∀ outline, Makes session.current next outline → P outline) :
    ∀ outline ∈ (session.step next).1.history, P outline := by
  rw [step]
  split
  · rename_i done
    rcases perform_ok done with ⟨made, makes, rfl⟩ | ⟨_, rfl⟩ | ⟨_, rfl⟩
    · intro outline member
      rcases List.mem_cons.mp member with rfl | old
      · exact kept _ makes
      · exact every outline old
    · intro outline member
      apply every
      unfold undo at member
      split at member
      · exact member
      · rename_i earlier
        rw [history, earlier]
        exact List.mem_cons_of_mem _ member
    · exact every
  · exact every

end Session

end CalcApp
