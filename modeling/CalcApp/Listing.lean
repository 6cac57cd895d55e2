import CalcApp.Event
import CalcApp.Instruction

/-! Program text as labelled blocks. A block is a run of lines that are not blank; it counts if it
starts with a label and has a further line, and its shape says what kind of page it shows. -/

namespace CalcApp

inductive Block where
  | menu (title : Text) (entries : List Choice) (parent : Option Label)
  | note (content : Text) (parent : Option Label)
  | code (content : Text) (parent : Option Label)
  | quit
  deriving DecidableEq

namespace Block

def parent : Block → Option Label
  | .menu _ _ parent => parent
  | .note _ parent => parent
  | .code _ parent => parent
  | .quit => none

def entries : Block → List Choice
  | .menu _ entries _ => entries
  | _ => []

/-- Choices named `Back` and `Quit` lead out of a menu: the last `Back` names its parent. -/
def ofMenu (title : Text) (choices : List Choice) : Block :=
  let isBack := fun choice : Choice => choice.name = "Back".toList
  let isQuit := fun choice : Choice => choice.name = "Quit".toList
  .menu title (choices.filter fun choice => !isBack choice && !isQuit choice)
    ((choices.filter isBack).getLast?.map Choice.target)

def closeSection (shown : List Text) (ending : Text) : List Text :=
  if shown.isEmpty then [] else [Text.join ['\n'] shown ++ ending]

/-- The sections of a note between its pauses, up to the jump that ends it and names its parent.
A section before a pause that also clears the screen ends with a newline. -/
def noteSections (shown : List Text) : List Instruction → List Text × Option Label
  | [] => (closeSection shown [], none)
  | .display text :: rest => noteSections (shown ++ [text]) rest
  | .pause :: .clear :: rest =>
    let (sections, parent) := noteSections [] rest
    (closeSection shown ['\n'] ++ sections, parent)
  | .pause :: rest =>
    let (sections, parent) := noteSections [] rest
    (closeSection shown [] ++ sections, parent)
  | .goto label :: _ => (closeSection shown [], some label)
  | _ :: rest => noteSections shown rest

def ofNote (steps : List Instruction) : Block :=
  let (sections, parent) := noteSections [] steps
  .note (Text.join ['\n', '\n'] sections) parent

def jump? : Instruction → Option Label
  | .goto label => some label
  | _ => none

def isDisplay : Instruction → Bool
  | .display _ => true
  | _ => false

/-- Code is kept as it is written, less one colon a line and less a jump at its end. The first
jump names the parent. -/
def ofCode (lines : List Text) : Block :=
  let steps := lines.map Instruction.ofLine
  let kept := if (steps.getLast?.bind jump?).isSome then lines.dropLast else lines
  .code (Text.join ['\n'] (kept.map Instruction.dropColon)) (steps.findSome? jump?)

def ofLines (first : Text) (rest : List Text) : Block :=
  match Instruction.ofLine first, rest.map Instruction.ofLine with
  | .clear, .menu title choices :: _ => ofMenu title choices
  | .clear, steps => if steps.any isDisplay then ofNote steps else ofCode (first :: rest)
  | .stop, _ => .quit
  | _, _ => ofCode (first :: rest)

def classify : List Text → Option (Label × Block)
  | head :: first :: rest =>
    match Instruction.ofLine head with
    | .define label => some (label, ofLines first rest)
    | _ => none
  | _ => none

end Block

/-- The blocks of a program by label, in the order in which the labels were first defined. -/
abbrev Listing := List (Label × Block)

namespace Listing

/-- A label that is defined again keeps its place and gets the later block. -/
def define (label : Label) (block : Block) : Listing → Listing
  | [] => [(label, block)]
  | (known, old) :: rest =>
    if known = label then (known, block) :: rest else (known, old) :: define label block rest

def addBlock (listing : Listing) (lines : List Text) : Traced ParseError Listing :=
  match Block.classify lines with
  | none => ⟨[.unlabelledBlock (lines.head?.getD [])], .ok listing⟩
  | some (label, block) =>
    ⟨if (listing.lookup label).isSome then [.labelRedefined label] else [],
      .ok (define label block listing)⟩

def addBlocks (listing : Listing) : List (List Text) → Traced ParseError Listing
  | [] => pure listing
  | lines :: rest => do
    let longer ← addBlock listing lines
    addBlocks longer rest

def ofText (text : Text) : Traced ParseError Listing :=
  addBlocks [] (Text.paragraphs (Text.lines (Text.unifyNewlines text)))

def root? : Listing → Option (Label × Text × List Choice)
  | [] => none
  | (label, .menu title entries none) :: _ => some (label, title, entries)
  | _ :: rest => root? rest

end Listing

end CalcApp
