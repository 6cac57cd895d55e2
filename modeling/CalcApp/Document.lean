import CalcApp.Json.Reader
import CalcApp.Outline

/-! The JSON documents of an app: settings, nodes, outlines and token lists. Keys that a document
does not know are ignored, a known key must not occur twice. -/

namespace CalcApp.Document

open Json

def maxDepth : Nat := 127

def kindName : Kind → Text
  | .menu => "menu".toList
  | .note => "note".toList
  | .code => "code".toList

mutual

def ofNode : Node → Json
  | .menu id title children =>
    .obj [("id".toList, .str id), ("title".toList, .str title),
      ("type".toList, .str (kindName .menu)), ("children".toList, .arr (ofNodes children))]
  | .note id title content =>
    .obj [("id".toList, .str id), ("title".toList, .str title),
      ("type".toList, .str (kindName .note)), ("content".toList, .str content)]
  | .code id title content =>
    .obj [("id".toList, .str id), ("title".toList, .str title),
      ("type".toList, .str (kindName .code)), ("content".toList, .str content)]

def ofNodes : List Node → List Json
  | [] => []
  | node :: rest => ofNode node :: ofNodes rest

end

def ofOutline (outline : Outline) : Json :=
  .obj [("chars_per_line".toList, .natural outline.settings.charsPerLine),
    ("lines_per_screen".toList, .natural outline.settings.linesPerScreen),
    ("max_items_per_menu".toList, .natural outline.settings.maxItemsPerMenu),
    ("root".toList, ofNode outline.root),
    ("nextId".toList, .natural outline.nextId)]

def writeOutline (outline : Outline) : Text := (ofOutline outline).pretty 0

/-- A member of an object, with the nodes that its value holds if it is an array of nodes. -/
structure Member where
  key : Text
  value : Json
  nodes : Option (List Node)

def single? (key : Text) (members : List Member) : Option (Option Member) :=
  match members.filter fun member => member.key = key with
  | [] => some none
  | [member] => some (some member)
  | _ => none

/-- Kinds are named, or numbered in the order in which they are declared. -/
def kind? : Json → Option Kind
  | .str name => [Kind.menu, .note, .code].find? fun kind => kindName kind = name
  | .natural number => [Kind.menu, .note, .code][number]?
  | _ => none

def content? (members : List Member) : Option Text :=
  (single? "content".toList members).bind fun
    | none => some []
    | some member =>
      match member.value with
      | .null => some []
      | .str text => some text
      | _ => none

def children? (members : List Member) : Option (List Node) :=
  (single? "children".toList members).bind fun
    | none => some []
    | some member => member.nodes

def node? (id title : Text) (members : List Member) : Option Node :=
  (single? "type".toList members).bind fun tag =>
    (tag.bind fun member => kind? member.value).bind fun
      | .menu => (children? members).map (.menu id title)
      | .note => (content? members).map (.note id title)
      | .code => (content? members).map (.code id title)

def text? (key : Text) (members : List Member) : Option Text :=
  (single? key members).bind fun
    | some ⟨_, .str text, _⟩ => some text
    | _ => none

mutual

def nodeOf? : Json → Option Node
  | .obj members =>
    let known := membersOf members
    (text? "id".toList known).bind fun id =>
      (text? "title".toList known).bind fun title => node? id title known
  | _ => none

def nodesOf? : Json → Option (List Node)
  | .arr items => nodesIn? items
  | _ => none

def nodesIn? : List Json → Option (List Node)
  | [] => some []
  | item :: rest => (nodeOf? item).bind fun node => (nodesIn? rest).map (node :: ·)

def membersOf : List (Text × Json) → List Member
  | [] => []
  | (key, value) :: rest => ⟨key, value, nodesOf? value⟩ :: membersOf rest

end

def expected {α : Type} : Option α → Except Fault α
  | some value => .ok value
  | none => .error .mismatched

def into {α σ : Type} (store : α → σ) (reader : Reader α) : Reader σ := fun text => do
  let (value, rest) ← reader text
  pure (store value, rest)

def once {α σ : Type} (seen : Option α) (reader : Reader σ) : Except Fault (Reader σ) :=
  if seen.isSome then .error .mismatched else .ok reader

structure NodeFields where
  id : Option Text := none
  title : Option Text := none
  others : List (Text × Json) := []

/-- `depth` bounds the nesting of the values in a node. -/
def nodeField (depth : Nat) (fields : NodeFields) (key : Text) : Except Fault (Reader NodeFields) :=
  if key = "id".toList then
    once fields.id (into (fun id => { fields with id := some id }) Reader.string)
  else if key = "title".toList then
    once fields.title (into (fun title => { fields with title := some title }) Reader.string)
  else
    .ok (into (fun value => { fields with others := fields.others ++ [(key, value)] })
      (Reader.value false depth))

def node (depth : Nat) : Reader Node := fun text => do
  let (fields, rest) ← Reader.object (nodeField depth) {} text
  let id ← expected fields.id
  let title ← expected fields.title
  let found ← expected (node? id title (membersOf fields.others))
  pure (found, rest)

def readNode (text : Text) : Except Fault Node := Reader.whole (node (maxDepth - 1)) text

def setting? (key : Text) (default : Nat) (members : List Member) : Option Nat :=
  (single? key members).bind fun
    | none => some default
    | some ⟨_, .natural n, _⟩ => some n
    | some _ => none

def settings? (members : List Member) : Option Settings :=
  (setting? "chars_per_line".toList 26 members).bind fun charsPerLine =>
    (setting? "lines_per_screen".toList 9 members).bind fun linesPerScreen =>
      (setting? "max_items_per_menu".toList 8 members).map fun maxItemsPerMenu =>
        ⟨charsPerLine, linesPerScreen, maxItemsPerMenu⟩

structure OutlineFields where
  root : Option Node := none
  nextId : Option Nat := none
  others : List (Text × Json) := []

def outlineField (fields : OutlineFields) (key : Text) : Except Fault (Reader OutlineFields) :=
  if key = "root".toList then
    once fields.root (into (fun root => { fields with root := some root }) (node (maxDepth - 2)))
  else if key = "nextId".toList then
    once fields.nextId (into (fun nextId => { fields with nextId := some nextId }) Reader.natural)
  else
    .ok (into (fun value => { fields with others := fields.others ++ [(key, value)] })
      (Reader.value false (maxDepth - 1)))

def outline : Reader Outline := fun text => do
  let (fields, rest) ← Reader.object outlineField {} text
  let root ← expected fields.root
  let settings ← expected (settings? (membersOf fields.others))
  pure (⟨settings, root, fields.nextId.getD 1⟩, rest)

def readOutline (text : Text) : Except Fault Outline := Reader.whole outline text

structure SettingsFields where
  charsPerLine : Option Nat := none
  linesPerScreen : Option Nat := none
  maxItemsPerMenu : Option Nat := none

def SettingsFields.settings (fields : SettingsFields) : Settings :=
  ⟨fields.charsPerLine.getD 26, fields.linesPerScreen.getD 9, fields.maxItemsPerMenu.getD 8⟩

/-- The value of an unknown key may be any JSON, however deep and however large its numbers. -/
def settingsField (fields : SettingsFields) (key : Text) : Except Fault (Reader SettingsFields) :=
  if key = "chars_per_line".toList then
    once fields.charsPerLine
      (into (fun n => { fields with charsPerLine := some n }) Reader.natural)
  else if key = "lines_per_screen".toList then
    once fields.linesPerScreen
      (into (fun n => { fields with linesPerScreen := some n }) Reader.natural)
  else if key = "max_items_per_menu".toList then
    once fields.maxItemsPerMenu
      (into (fun n => { fields with maxItemsPerMenu := some n }) Reader.natural)
  else .ok fun text => into (fun _ => fields) (Reader.value true text.length) text

def settings : Reader Settings := fun text =>
  match skipSpace text with
  | '[' :: rest =>
    into (fun numbers => SettingsFields.settings ⟨numbers[0]?, numbers[1]?, numbers[2]?⟩)
      (Reader.items Reader.natural 3) rest
  | start => into SettingsFields.settings (Reader.object settingsField {}) start

def readSettings (text : Text) : Except Fault Settings := Reader.whole settings text

def readTokens (text : Text) : Except Fault (List Text) :=
  Reader.whole (Reader.array Reader.string) text

end CalcApp.Document
