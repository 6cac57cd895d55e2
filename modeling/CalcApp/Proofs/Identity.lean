import CalcApp.Proofs.Node.Edit
import CalcApp.Proofs.Numbering
import CalcApp.Proofs.Session

/-! Ids along an editing session. No edit checks that ids differ: they do because the counter stays
above the number of every item, which reading a program establishes and every edit keeps. -/

namespace CalcApp

namespace Outline

/-- The ids of an outline differ, and the counter is a 64-bit word above the number of each item. -/
structure WellIdentified (outline : Outline) : Prop where
  menu : outline.root.isMenu = true
  root : outline.root.id = rootId
  positive : 1 ≤ outline.nextId
  word : outline.nextId < 2 ^ 64
  distinct : outline.root.ids.Nodup
  numbered : ∀ id ∈ Node.idsIn outline.root.children,
    ∃ number, 1 ≤ number ∧ number < outline.nextId ∧ id = itemId number

theorem wellIdentified_empty : empty.WellIdentified where
  menu := rfl
  root := rfl
  positive := Nat.le_refl 1
  word := by decide
  distinct := List.nodup_singleton rootId
  numbered := fun _ member => nomatch member

theorem wellIdentified_parse {text : Text} {outline : Outline} (short : text.byteSize < 2 ^ 63)
    (read : (parse text).result = .ok outline) : outline.WellIdentified := by
  obtain ⟨menu, root, ids, next⟩ := parse_numbered read
  have few := parse_sizeIn_le read
  have bytes := Text.length_le_byteSize text
  refine ⟨menu, root, ?_, ?_, ?_, ?_⟩
  · omega
  · omega
  · rw [Node.ids_eq, root, ids]
    exact nodup_itemIds _ _
  · intro id member
    rw [ids, List.mem_map] at member
    obtain ⟨number, listed, same⟩ := member
    rw [List.mem_range'_1] at listed
    exact ⟨number, listed.1, by omega, same.symm⟩

namespace WellIdentified

variable {outline : Outline} {root : Node}

theorem unused (well : outline.WellIdentified) : itemId outline.nextId ∉ outline.root.ids := by
  intro member
  rw [Node.ids_eq, well.root, List.mem_cons] at member
  rcases member with top | below
  · exact itemId_ne_rootId _ top
  · obtain ⟨number, _, smaller, same⟩ := well.numbered _ below
    have equal := itemId_injective same
    omega

theorem withSettings (well : outline.WellIdentified) (settings : Settings) :
    (outline.withSettings settings).WellIdentified :=
  ⟨well.menu, well.root, well.positive, well.word, well.distinct, well.numbered⟩

theorem withRoot {extra : List Text} (well : outline.WellIdentified)
    (grows : Node.Grows extra root outline.root) : (outline.withRoot root).WellIdentified where
  menu := grows.isMenu ▸ well.menu
  root := grows.id ▸ well.root
  positive := well.positive
  word := well.word
  distinct := by
    have all := grows.ids.nodup_iff.mp well.distinct
    exact (List.nodup_append.mp all).2.1
  numbered := by
    intro id member
    apply well.numbered
    exact grows.below.symm.subset (List.mem_append_right extra member)

theorem extend {settings : Settings} (well : outline.WellIdentified)
    (room : outline.nextId ≠ 2 ^ 64 - 1)
    (grows : Node.Grows [itemId outline.nextId] outline.root root) :
    WellIdentified ⟨settings, root, (outline.nextId + 1) % 2 ^ 64⟩ := by
  have word := well.word
  have next : (outline.nextId + 1) % 2 ^ 64 = outline.nextId + 1 := Nat.mod_eq_of_lt (by omega)
  rw [next]
  refine ⟨grows.isMenu.trans well.menu, grows.id.trans well.root, ?_, ?_, ?_, ?_⟩
  · exact Nat.le_add_left 1 _
  · dsimp only
    omega
  · rw [grows.ids.nodup_iff]
    exact List.nodup_cons.mpr ⟨well.unused, well.distinct⟩
  · intro id member
    rcases List.mem_cons.mp (grows.below.subset member) with rfl | old
    · exact ⟨outline.nextId, well.positive, Nat.lt_succ_self _, rfl⟩
    · obtain ⟨number, positive, smaller, same⟩ := well.numbered id old
      exact ⟨number, positive, Nat.lt_succ_of_lt smaller, same⟩

end WellIdentified

theorem ids_freshItem (id : Text) (kind : Kind) : (freshItem id kind).ids = [id] := by
  cases kind <;> rfl

namespace WellIdentified

variable {outline after : Outline}

theorem addItem {parent id : Text} {kind : Kind} (well : outline.WellIdentified)
    (room : outline.nextId ≠ 2 ^ 64 - 1) (done : outline.addItem parent kind = .ok (after, id)) :
    after.WellIdentified := by
  obtain ⟨menu, root, _, _, _, rfl, inserted, rfl⟩ := addItem_ok done
  have grows := Node.grows_insert inserted
  rw [ids_freshItem] at grows
  exact well.extend room grows

theorem deleteItem {id : Text} (well : outline.WellIdentified)
    (done : outline.deleteItem id = .ok after) : after.WellIdentified := by
  obtain ⟨_, root, removed, taken, rfl⟩ := deleteItem_ok done
  exact well.withRoot (Node.grows_extract taken)

theorem updateItem {id : Text} {revision : Node.Revision} (well : outline.WellIdentified)
    (done : outline.updateItem id revision = .ok after) : after.WellIdentified := by
  obtain ⟨root, updated, rfl⟩ := updateItem_ok done
  exact well.withRoot (Node.grows_update updated).symm

/-- Both the old tree and the new one are the tree without the moved item, with its ids added. -/
theorem moveItem {dragged target : Text} {position : Position} (well : outline.WellIdentified)
    (done : outline.moveItem dragged target position = .ok after) : after.WellIdentified := by
  obtain ⟨_, _, _, _, without, moved, place, root, taken, _, inserted, rfl⟩ := moveItem_ok done
  exact well.withRoot ((Node.grows_insert inserted).swap (Node.grows_extract taken))

end WellIdentified

end Outline

namespace Session

/-- A step that stays inside machine limits: the counter does not wrap, and a text that is read has
fewer than `2 ^ 63` bytes. -/
def Admits (session : Session) : Step → Prop
  | .add _ _ => session.current.nextId ≠ 2 ^ 64 - 1
  | .parse text => text.byteSize < 2 ^ 63
  | .regenerate =>
    match session.current.generate with
    | .ok text => text.byteSize < 2 ^ 63
    | .error _ => True
  | _ => True

instance (session : Session) : (next : Step) → Decidable (session.Admits next)
  | .add _ _ => inferInstanceAs (Decidable (_ ≠ _))
  | .parse text => inferInstanceAs (Decidable (text.byteSize < 2 ^ 63))
  | .regenerate =>
    match generated : session.current.generate with
    | .ok text => decidable_of_iff (text.byteSize < 2 ^ 63) (by rw [Admits, generated])
    | .error _ => .isTrue (by rw [Admits, generated]; trivial)
  | .delete _ | .update _ _ | .move _ _ _ | .settings _ | .generate | .undo =>
    inferInstanceAs (Decidable True)

def AdmitsAll : Session → List Step → Prop
  | _, [] => True
  | session, next :: rest => session.Admits next ∧ (session.step next).1.AdmitsAll rest

instance decidableAdmitsAll : (session : Session) → (steps : List Step) →
    Decidable (session.AdmitsAll steps)
  | _, [] => inferInstanceAs (Decidable True)
  | session, next :: rest =>
    have := decidableAdmitsAll (session.step next).1 rest
    inferInstanceAs (Decidable (session.Admits next ∧ (session.step next).1.AdmitsAll rest))

def WellIdentified (session : Session) : Prop :=
  ∀ outline ∈ session.history, outline.WellIdentified

variable {session : Session}

theorem WellIdentified.current (well : session.WellIdentified) :
    session.current.WellIdentified :=
  well _ (List.mem_cons_self ..)

/-- What a step makes is well-identified. Only three steps make new ids: adding counts on, and
reading, also of a program that was just generated, starts anew. -/
theorem Makes.wellIdentified {next : Step} {outline : Outline}
    (makes : Makes session.current next outline) (well : session.current.WellIdentified)
    (admitted : session.Admits next) : outline.WellIdentified := by
  cases makes with
  | add done => exact well.addItem admitted done
  | delete done => exact well.deleteItem done
  | update done => exact well.updateItem done
  | move done => exact well.moveItem done
  | settings settings => exact well.withSettings settings
  | parse read => exact Outline.wellIdentified_parse admitted read
  | regenerate generated read =>
      rw [Admits, generated] at admitted
      exact (Outline.wellIdentified_parse admitted read).withSettings _

/-- A step keeps every outline well-identified, whether it succeeds or not. -/
theorem WellIdentified.step {next : Step} (well : session.WellIdentified)
    (admitted : session.Admits next) : (session.step next).1.WellIdentified :=
  history_step well fun _ makes => makes.wellIdentified well.current admitted

theorem WellIdentified.run {steps : List Step} (well : session.WellIdentified)
    (admitted : session.AdmitsAll steps) : (session.run steps).WellIdentified := by
  induction steps generalizing session with
  | nil => exact well
  | cons next rest ih => exact ih (well.step admitted.1) admitted.2

theorem AdmitsAll.before {steps later : List Step} (admitted : session.AdmitsAll (steps ++ later)) :
    session.AdmitsAll steps := by
  induction steps generalizing session with
  | nil => trivial
  | cons next rest ih => exact ⟨admitted.1, ih admitted.2⟩

theorem WellIdentified.add_unused {parent id : Text} {kind : Kind} {reply : Reply}
    (well : session.WellIdentified) (done : (session.step (.add parent kind)).2 = .ok reply)
    (given : reply.id = some id) : id ∉ session.current.root.ids := by
  rw [Session.step, Session.perform] at done
  cases added : session.current.addItem parent kind with
  | error cause =>
      rw [added] at done
      cases done
  | ok result =>
      rw [added] at done
      cases done
      cases given
      obtain ⟨_, _, _, _, _, same, _⟩ := Outline.addItem_ok added
      rw [same]
      exact well.current.unused

/-- In every run from the empty outline or a well-identified one, all outlines stay
well-identified, and each added item gets an id that no node of the tree has. -/
theorem run_wellIdentified (outline : Outline) (steps : List Step)
    (begins : outline = .empty ∨ outline.WellIdentified)
    (admitted : (start outline).AdmitsAll steps) :
    (∀ later ∈ ((start outline).run steps).history, later.WellIdentified) ∧
    ∀ before parent kind after id, steps = before ++ .add parent kind :: after →
      (((start outline).run before).step (.add parent kind)).2 = .ok { id := some id } →
      id ∉ ((start outline).run before).current.root.ids := by
  have first : outline.WellIdentified := by
    rcases begins with rfl | well
    · exact Outline.wellIdentified_empty
    · exact well
  have initial : (start outline).WellIdentified := by
    intro other member
    rw [List.mem_singleton.mp member]
    exact first
  refine ⟨initial.run admitted, ?_⟩
  rintro before parent kind after id rfl done
  exact (initial.run admitted.before).add_unused done rfl

/-- Items are added, moved, renamed, read back, removed and restored; then another program is read,
which lists one page twice. -/
def busySteps : List Step :=
  [.add Outline.rootId .menu, .add Outline.rootId .note,
    .move (Outline.itemId 2) (Outline.itemId 1) .inside,
    .update (Outline.itemId 2) ⟨some "Units".toList, none⟩, .settings { charsPerLine := 8 },
    .regenerate, .add (Outline.itemId 1) .code, .delete (Outline.itemId 1), .undo,
    .parse "Lbl AA\n:ClrHome\n:Menu(\"Top\",\"One\",AB,\"Two\",AB)\n\nLbl AB\n:Disp A".toList,
    .add "nowhere".toList .note, .add Outline.rootId .note]

theorem run_wellIdentified_busySteps :
    (start .empty).AdmitsAll busySteps ∧ ((start .empty).run busySteps).history.length = 10 ∧
      (∀ later ∈ ((start .empty).run busySteps).history, later.WellIdentified) ∧
      Outline.itemId 3 ∉ ((start .empty).run (busySteps.take 11)).current.root.ids := by
  have admitted : (start .empty).AdmitsAll busySteps := by decide +kernel
  have length : ((start .empty).run busySteps).history.length = 10 := by decide +kernel
  obtain ⟨well, unused⟩ := run_wellIdentified .empty busySteps (.inl rfl) admitted
  have given : (((start .empty).run (busySteps.take 11)).step (.add Outline.rootId .note)).2 =
      .ok { id := some (Outline.itemId 3) } := by decide +kernel
  exact ⟨admitted, length, well, unused _ Outline.rootId .note [] _ rfl given⟩

end Session

end CalcApp
