import CalcApp.Node

namespace CalcApp

inductive Position where
  | before
  | after
  | inside
  deriving DecidableEq

def Position.name : Position → Text
  | .before => "before".toList
  | .after => "after".toList
  | .inside => "inside".toList

inductive TreeError where
  | nodeNotFound (id : Text)
  | notAMenu (id : Text)
  | noContent (id : Text)
  | menuFull (id : Text) (max : Nat)
  | rootImmovable
  | illegalPlacement (dragged target : Text) (position : Position)
  deriving DecidableEq

def TreeError.message : TreeError → Text
  | .nodeNotFound id => "Node not found: ".toList ++ id
  | .notAMenu id => "Node ".toList ++ id ++ " is not a menu".toList
  | .noContent id => "Menu ".toList ++ id ++ " has no content to edit".toList
  | .menuFull id max =>
    "Maximum items (".toList ++ Text.ofNat max ++ ") reached for menu ".toList ++ id
  | .rootImmovable => "The root menu cannot be moved or deleted".toList
  | .illegalPlacement dragged target position =>
    "Cannot place ".toList ++ dragged ++ ' ' :: position.name ++ ' ' :: target

namespace Node

mutual

def strip? (target : Text) : Node → Option (Node × Node)
  | .menu id title children =>
    (stripIn? target children).map fun (rest, removed) => (.menu id title rest, removed)
  | .note _ _ _ => none
  | .code _ _ _ => none

def stripIn? (target : Text) : List Node → Option (List Node × Node)
  | [] => none
  | child :: rest =>
    if child.id = target then some (rest, child)
    else match strip? target child with
      | some (stripped, removed) => some (stripped :: rest, removed)
      | none => (stripIn? target rest).map fun (rest, removed) => (child :: rest, removed)

end

/-- Takes a node out of the tree; the root stays, and so does the tree if the id is unknown. -/
def extract (root : Node) (target : Text) : Node × Option Node :=
  match strip? target root with
  | some (stripped, removed) => (stripped, some removed)
  | none => (root, none)

mutual

/-- The tree with the first node with an id changed, or why the change was refused; `none` if
there is no such node. -/
def editAt? (target : Text) (change : Node → Except TreeError Node) :
    Node → Option (Except TreeError Node)
  | .menu id title children =>
    if id = target then some (change (.menu id title children))
    else (editIn? target change children).map fun edited => edited.map (.menu id title)
  | .note id title content => if id = target then some (change (.note id title content)) else none
  | .code id title content => if id = target then some (change (.code id title content)) else none

def editIn? (target : Text) (change : Node → Except TreeError Node) :
    List Node → Option (Except TreeError (List Node))
  | [] => none
  | child :: rest =>
    match editAt? target change child with
    | some edited => some (edited.map (· :: rest))
    | none => (editIn? target change rest).map fun edited => edited.map (child :: ·)

end

def edit (root : Node) (target : Text) (change : Node → Except TreeError Node) :
    Except TreeError Node :=
  (editAt? target change root).getD (.error (.nodeNotFound target))

def addChild (index : Nat) (item : Node) : Node → Except TreeError Node
  | .menu id title children => .ok (.menu id title (children.take index ++ item :: children.drop index))
  | node => .error (.notAMenu node.id)

def insert (root : Node) (parent : Text) (index : Nat) (item : Node) : Except TreeError Node :=
  root.edit parent (addChild index item)

structure Revision where
  title : Option Text
  content : Option Text
  deriving DecidableEq

def revise (revision : Revision) : Node → Except TreeError Node
  | .menu id title children =>
    if revision.content.isSome then .error (.noContent id)
    else .ok (.menu id (revision.title.getD title) children)
  | .note id title content =>
    .ok (.note id (revision.title.getD title) (revision.content.getD content))
  | .code id title content =>
    .ok (.code id (revision.title.getD title) (revision.content.getD content))

def update (root : Node) (target : Text) (revision : Revision) : Except TreeError Node :=
  root.edit target (revise revision)

end Node

end CalcApp
