import CalcApp.Instruction
import CalcApp.Node

/-! The preview of a program: single pages read back from its text. -/

namespace CalcApp

namespace Screen

/-- The runs of lines that are not blank, as they stand in the text, less the blanks around
each. -/
def sections (program : Text) : List Text :=
  (Text.paragraphs (Text.fullLines program)).map fun lines => Text.trim lines.flatten

def label? (code : Text) : Option Label :=
  match (Text.lines code).head?.map Instruction.ofLine with
  | some (.define label) => some label
  | _ => none

def findIn (sections : List Text) (label : Label) : Option Text :=
  sections.find? fun code => label? code = some label

def findSection (program : Text) (label : Label) : Option Text := findIn (sections program) label

structure Menu where
  title : Text
  choices : List Choice
  deriving DecidableEq

def menuOf? : Instruction → Option Menu
  | .menu title choices => some ⟨title, choices⟩
  | _ => none

def menu? (code : Text) : Option Menu :=
  (Text.lines code).findSome? fun line => menuOf? (Instruction.ofLine line)

/-- The label of the page for the node with an id. The root has the first page; any other node is
an entry of its parent's menu, whose last choice is no entry. -/
def labelIn? (sections : List Text) (root : Node) (id : Text) : Option Label :=
  if own : root.id = id then sections.head?.bind label?
  else
    match found : root.findParent? id with
    | none => none
    | some (parent, index) =>
      have := Node.idxOf_parent_lt own found
      (labelIn? sections root parent.id).bind fun label =>
        (findIn sections label).bind fun code =>
          (menu? code).bind fun menu => menu.choices.dropLast[index]?.map Choice.target
termination_by root.ids.idxOf id

def labelFor? (program : Text) (root : Node) (id : Text) : Option Label :=
  labelIn? (sections program) root id

inductive Item where
  | text (content : Text)
  | pause
  | pauseAndClear
  | clear
  deriving DecidableEq

def items : List Instruction → List Item
  | [] => []
  | .display content :: rest => .text content :: items rest
  | .pause :: .clear :: rest => .pauseAndClear :: items rest
  | .pause :: rest => .pause :: items rest
  | .clear :: rest => .clear :: items rest
  | .goto _ :: _ => []
  | _ :: rest => items rest

def skipLabel : List Instruction → List Instruction
  | .define _ :: rest => rest
  | steps => steps

def skipClear : List Instruction → List Instruction
  | .clear :: rest => rest
  | steps => steps

def noteItems (code : Text) : List Item :=
  items (skipClear (skipLabel ((Text.lines code).map Instruction.ofLine)))

structure Preview where
  id : Text
  label : Option Label
  code : Option Text
  menu : Option Menu
  items : Option (List Item)

def previewOf (sections : List Text) (root : Node) (id : Text) : Preview :=
  let label := labelIn? sections root id
  let code := label.bind (findIn sections)
  ⟨id, label, code, code.bind menu?, code.map noteItems⟩

def previews (program : Text) (root : Node) : List Preview :=
  root.ids.map (previewOf (sections program) root)

end Screen

end CalcApp
