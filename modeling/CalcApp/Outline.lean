import CalcApp.Node.Placement

namespace CalcApp

/-- `nextId` is a 64-bit word. -/
structure Outline where
  settings : Settings
  root : Node
  nextId : Nat

namespace Outline

def rootId : Text := "root".toList

def itemId (number : Nat) : Text := "item-".toList ++ Text.ofNat number

def new (settings : Settings) (root : Node) : Outline := ⟨settings, root, 1⟩

def empty : Outline := new {} (.menu rootId "Main Menu".toList [])

def withSettings (settings : Settings) (outline : Outline) : Outline := { outline with settings }

def withRoot (root : Node) (outline : Outline) : Outline := { outline with root }

def freshItem (id : Text) : Kind → Node
  | .menu => .menu id "New Submenu".toList []
  | .note => .note id "New Note".toList "Enter note content here...".toList
  | .code => .code id "New Code Block".toList []

def addItem (outline : Outline) (parent : Text) (kind : Kind) : Except TreeError (Outline × Text) :=
  match outline.root.find? parent with
  | none => .error (.nodeNotFound parent)
  | some menu =>
    if !menu.isMenu then .error (.notAMenu parent)
    else if outline.settings.maxItemsPerMenu ≤ menu.children.length then
      .error (.menuFull parent outline.settings.maxItemsPerMenu)
    else do
      let id := itemId outline.nextId
      let root ← outline.root.insert parent menu.children.length (freshItem id kind)
      pure (⟨outline.settings, root, (outline.nextId + 1) % Nat.pow 2 64⟩, id)

def deleteItem (outline : Outline) (id : Text) : Except TreeError Outline :=
  if outline.root.id = id then .error .rootImmovable
  else match outline.root.extract id with
    | (root, some _) => .ok (outline.withRoot root)
    | (_, none) => .error (.nodeNotFound id)

def updateItem (outline : Outline) (id : Text) (revision : Node.Revision) :
    Except TreeError Outline :=
  (outline.root.update id revision).map fun root => outline.withRoot root

/-- Moves an item. The place is looked up once more in the tree without the item, where the
places after it have shifted. -/
def moveItem (outline : Outline) (dragged target : Text) (position : Position) :
    Except TreeError Outline :=
  let root := outline.root
  let max := outline.settings.maxItemsPerMenu
  let illegal := TreeError.illegalPlacement dragged target position
  if root.id = dragged then .error .rootImmovable
  else if (root.find? dragged).isNone then .error (.nodeNotFound dragged)
  else if (root.find? target).isNone then .error (.nodeNotFound target)
  else if (root.resolvePlacement dragged target position max).isNone then .error illegal
  else match root.extract dragged with
    | (_, none) => .error (.nodeNotFound dragged)
    | (without, some moved) =>
      match without.resolvePlacement dragged target position max with
      | none => .error illegal
      | some place =>
        (without.insert place.parent.id place.index moved).map fun root => outline.withRoot root

end Outline

end CalcApp
