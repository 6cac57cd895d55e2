import CalcApp.Event
import CalcApp.Outline
import CalcApp.Page

namespace CalcApp

/-- The pages in the order of their labels. -/
structure Program where
  pages : List (Label × Page)
  root : Label
  quit : Label
  linesPerScreen : Nat
  deriving DecidableEq

namespace Program

def maxChoices : Nat := 9

def labelAt (index : Nat) : Except GenerateError Label :=
  match Label.ofIndex? index with
  | some label => .ok label
  | none => .error (.capacityExceeded Label.count)

def allocate (next : Nat) : Nat → List Label × Option GenerateError
  | 0 => ([], none)
  | count + 1 =>
    match labelAt next with
    | .ok label =>
      let (more, fault) := allocate (next + 1) count
      (label :: more, fault)
    | .error cause => ([], some cause)

/-- The pages of some nodes, the entries that lead to them and the first index left free. -/
structure Part where
  entries : List Choice
  pages : List (Label × Page)
  next : Nat
  deriving DecidableEq

mutual

def compileNode (charsPerLine : Nat) (parent : Label) (next : Nat) :
    Node → Traced GenerateError Part
  | .menu _ title children => do
    let label ← ⟨[], labelAt next⟩
    let inner ← compileNodes charsPerLine label 0 (next + 1) children
    pure ⟨[⟨title, label⟩], (label, .menu title inner.entries (some parent)) :: inner.pages, inner.next⟩
  | .note _ title content => do
    let label ← ⟨[], labelAt next⟩
    pure ⟨[⟨title, label⟩], [(label, .note (Note.paginate content charsPerLine) parent)], next + 1⟩
  | .code _ title content => do
    let label ← ⟨[], labelAt next⟩
    let lines := Text.split '\n' (Text.unifyNewlines content)
    pure ⟨[⟨title, label⟩], [(label, .code lines parent)], next + 1⟩

/-- The children of the menu `parent` that follow `taken` others. One for which the menu has no
room is reported and left out. -/
def compileNodes (charsPerLine : Nat) (parent : Label) (taken next : Nat) :
    List Node → Traced GenerateError Part
  | [] => pure ⟨[], [], next⟩
  | child :: rest =>
    if taken + 1 + 1 ≤ maxChoices then do
      let first ← compileNode charsPerLine parent next child
      let others ← compileNodes charsPerLine parent (taken + 1) first.next rest
      pure ⟨first.entries ++ others.entries, first.pages ++ others.pages, others.next⟩
    else do
      Traced.report (.entrySkipped child.id child.title (.menuOverflow parent maxChoices))
      compileNodes charsPerLine parent taken next rest

end

def compile (settings : Settings) : Node → Traced GenerateError Program
  | .menu _ title children => do
    let root ← ⟨[], labelAt 0⟩
    let quit ← ⟨[], labelAt 1⟩
    let inner ← compileNodes settings.charsPerLine root 0 2 children
    let pages := (root, .menu title inner.entries none) :: (quit, .quit) :: inner.pages
    Traced.report (.compiled pages.length inner.next)
    pure ⟨pages, root, quit, settings.linesPerScreen⟩
  | _ => Traced.fail .invalidRoot

def page? (program : Program) (label : Label) : Option Page := program.pages.lookup label

def block (program : Program) (label : Label) (page : Page) : Text :=
  Text.join ['\n'] ((Instruction.define label ::
    page.instructions program.quit program.linesPerScreen).map Instruction.line)

def render (program : Program) : Text :=
  Text.join ['\n', '\n'] (program.pages.map fun (label, page) => program.block label page)

end Program

namespace Outline

def compile (outline : Outline) : Traced GenerateError Program :=
  Program.compile outline.settings outline.root

def generate (outline : Outline) : Except GenerateError Text :=
  outline.compile.result.map Program.render

def generateOrMessage (outline : Outline) : List Event × Text :=
  let compiled := outline.compile.reportFailure .generationFailed
  match compiled.result with
  | .ok program => (compiled.log, program.render)
  | .error cause => (compiled.log, "Error generating code: ".toList ++ cause.message)

end Outline

end CalcApp
