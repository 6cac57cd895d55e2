import CalcApp.Instruction
import CalcApp.Note

namespace CalcApp

inductive Page where
  | menu (title : Text) (entries : List Choice) (parent : Option Label)
  | note (items : List Note.Item) (parent : Label)
  | code (lines : List Text) (parent : Label)
  | quit
  deriving DecidableEq

namespace Page

/-- Shows lines below `visible` others, with a pause before a line for which the screen has no
room, and counts the lines on the screen at the end. -/
def showLines (linesPerScreen visible : Nat) : List Text → List Instruction × Nat
  | [] => ([], visible)
  | line :: rest =>
    if linesPerScreen ≤ visible then
      let (steps, shown) := showLines linesPerScreen 1 rest
      (.pause :: .display line :: steps, shown)
    else
      let (steps, shown) := showLines linesPerScreen (visible + 1) rest
      (.display line :: steps, shown)

def showItems (linesPerScreen visible : Nat) : List Note.Item → List Instruction
  | [] => []
  | .pause :: rest => .pause :: showItems linesPerScreen 0 rest
  | .hardBreak :: rest => .pause :: .clear :: showItems linesPerScreen 0 rest
  | .lines lines :: rest =>
    let (steps, shown) := showLines linesPerScreen visible lines
    steps ++ showItems linesPerScreen shown rest

/-- The last choice of a menu leads back to its parent, or from the root menu to the quit page. -/
def wayOut (exit : Label) : Option Label → Choice
  | some parent => ⟨"Back".toList, parent⟩
  | none => ⟨"Quit".toList, exit⟩

def codeSteps (lines : List Text) : List Instruction :=
  (lines.filter fun line => !Text.blank line).map fun line => .other (Instruction.dropColon line)

def instructions (exit : Label) (linesPerScreen : Nat) : Page → List Instruction
  | .menu title entries parent => [.clear, .menu title (entries ++ [wayOut exit parent])]
  | .note items parent => .clear :: showItems linesPerScreen 0 items ++ [.pause, .goto parent]
  | .code lines parent => codeSteps lines ++ [.goto parent]
  | .quit => [.stop]

end Page

end CalcApp
