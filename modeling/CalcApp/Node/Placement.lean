import CalcApp.Node.Edit

namespace CalcApp

structure Placement where
  parent : Node
  index : Nat

namespace Node

/-- A menu takes an item if it is not full, or if it already holds the item. -/
def hasRoom (max : Nat) (dragged : Text) (menu : Node) : Bool :=
  menu.children.length < max || menu.children.any fun child => child.id = dragged

def placeInside (max : Nat) (dragged : Text) (menu : Node) : Option Placement :=
  if menu.isMenu && hasRoom max dragged menu then some ⟨menu, menu.children.length⟩ else none

mutual

def locate? (max : Nat) (dragged target : Text) (position : Position) : Node → Option Placement
  | .menu id title children =>
    if id = target ∧ position = .inside then placeInside max dragged (.menu id title children)
    else locateIn? max dragged target position (.menu id title children) 0 children
  | .note _ _ _ => none
  | .code _ _ _ => none

def locateIn? (max : Nat) (dragged target : Text) (position : Position) (parent : Node)
    (index : Nat) : List Node → Option Placement
  | [] => none
  | child :: rest =>
    if child.id = target then
      match position with
      | .inside => placeInside max dragged child
      | .before => if hasRoom max dragged parent then some ⟨parent, index⟩ else none
      | .after => if hasRoom max dragged parent then some ⟨parent, index + 1⟩ else none
    else
      (locate? max dragged target position child).or
        (locateIn? max dragged target position parent (index + 1) rest)

end

def resolvePlacement (root : Node) (dragged target : Text) (position : Position) (max : Nat) :
    Option Placement :=
  if dragged = target then none
  else if ((root.find? dragged).bind (find? target)).isSome then none
  else locate? max dragged target position root

end Node

end CalcApp
