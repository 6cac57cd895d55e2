import CalcApp.Program

/-! Compiling with a map of pages that changes on the way. A page is added when its node is met, and
its entry is then pushed to the page of its menu, which is looked up in the map. -/

namespace CalcApp

def Page.addEntries (more : List Choice) : Page → Page
  | .menu title entries parent => .menu title (entries ++ more) parent
  | page => page

structure Draft where
  next : Nat := 0
  pages : List (Label × Page) := []
  root : Option Label := none
  quit : Option Label := none
  log : List Event := []

namespace Draft

/-- What a step has changed stays changed when it fails. -/
abbrev Step := ExceptT GenerateError (StateM Draft)

/-- Pages are kept in the order of their labels. -/
def insert (label : Label) (page : Page) : List (Label × Page) → List (Label × Page)
  | [] => [(label, page)]
  | (known, old) :: rest =>
    if label = known then (label, page) :: rest
    else if label ≤ known then (label, page) :: (known, old) :: rest
    else (known, old) :: insert label page rest

def addEntries (menu : Label) (more : List Choice) (pages : List (Label × Page)) :
    List (Label × Page) :=
  pages.map fun (label, page) => (label, if label = menu then page.addEntries more else page)

def report (event : Event) : Step Unit :=
  modify fun draft => { draft with log := draft.log ++ [event] }

def nextLabel : Step Label := do
  let draft ← get
  match Program.labelAt draft.next with
  | .ok label => do
    set { draft with next := draft.next + 1 }
    pure label
  | .error cause => throw cause

def setPage (label : Label) (page : Page) : Step Unit :=
  modify fun draft => { draft with pages := insert label page draft.pages }

def pushEntry (menu : Label) (name : Text) (target : Label) : Step Unit :=
  modify fun draft => { draft with pages := addEntries menu [⟨name, target⟩] draft.pages }

/-- The first menu without a parent is the root, and the quit page comes with it. -/
def addMenu (title : Text) (parent : Option Label) : Step Label := do
  let label ← nextLabel
  setPage label (.menu title [] parent)
  let draft ← get
  if parent.isNone && draft.root.isNone then
    modify fun draft => { draft with root := some label }
    let quit ← nextLabel
    setPage quit .quit
    modify fun draft => { draft with quit := some quit }
  pure label

def checkRoom (parent : Label) : Step Unit := do
  let draft ← get
  match draft.pages.lookup parent with
  | some (.menu _ entries _) =>
    if entries.length + 1 + 1 ≤ Program.maxChoices then pure ()
    else throw (.menuOverflow parent Program.maxChoices)
  | _ => throw (.invalidParent parent)

def addSubmenu (parent : Label) (title : Text) : Step Label := do
  checkRoom parent
  let label ← addMenu title (some parent)
  pushEntry parent title label
  pure label

def addPage (parent : Label) (name : Text) (page : Page) : Step Label := do
  checkRoom parent
  let label ← nextLabel
  setPage label page
  pushEntry parent name label
  pure label

mutual

def buildChild (charsPerLine : Nat) (parent : Label) : Node → Step Unit
  | .menu _ title children => do
    let label ← addSubmenu parent title
    buildChildren charsPerLine label children
  | .note _ title content => do
    let _ ← addPage parent title (.note (Note.paginate content charsPerLine) parent)
  | .code _ title content => do
    let lines := Text.split '\n' (Text.unifyNewlines content)
    let _ ← addPage parent title (.code lines parent)

/-- A child that fails ends everything if its error is fatal, and is passed over otherwise. -/
def buildChildren (charsPerLine : Nat) (parent : Label) : List Node → Step Unit
  | [] => pure ()
  | child :: rest => do
    tryCatch (buildChild charsPerLine parent child) fun cause =>
      if cause.fatal then throw cause
      else report (.entrySkipped child.id child.title cause)
    buildChildren charsPerLine parent rest

end

def finish (linesPerScreen : Nat) : Step Program := do
  let draft ← get
  match draft.root, draft.quit with
  | some root, some quit =>
    report (.compiled draft.pages.length draft.next)
    pure ⟨draft.pages, root, quit, linesPerScreen⟩
  | _, _ => throw .invalidRoot

def build (settings : Settings) : Node → Step Program
  | .menu _ title children => do
    let label ← addMenu title none
    buildChildren settings.charsPerLine label children
    finish settings.linesPerScreen
  | _ => throw .invalidRoot

def compile (settings : Settings) (root : Node) : Traced GenerateError Program :=
  let (result, draft) := (build settings root).run.run {}
  ⟨draft.log, result⟩

end Draft

end CalcApp
