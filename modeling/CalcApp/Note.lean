import CalcApp.Node

/-! Notes on the calculator's screen: word wrap, the units a note is shown in, and the hints an
editor gives about lines that wrap and screens that fill up. -/

namespace CalcApp.Note

/-- The lines that `words` make after the line `current`. A word that does not fit after a space
starts a new line and is cut to `width` characters. -/
def wrapWords (width : Nat) (current : Text) : List Text → List Text
  | [] => if current.isEmpty then [] else [current]
  | word :: words =>
    if current.length + word.length + 1 ≤ width then
      wrapWords width (if current.isEmpty then word else current ++ ' ' :: word) words
    else
      (if current.isEmpty then [] else [current]) ++ wrapWords width (word.take width) words

def wrap (text : Text) (width : Nat) : List Text :=
  let lines := wrapWords width [] (Text.split ' ' text)
  if lines.isEmpty then [[]] else lines

inductive Item where
  | lines (lines : List Text)
  | pause
  | hardBreak
  deriving DecidableEq

def screensAfter (pending : Nat) : Text → List Text
  | [] => if 3 ≤ pending then [[], []] else [List.replicate pending '\n']
  | c :: rest =>
    if c = '\n' then screensAfter (pending + 1) rest
    else
      let following := (screensAfter 0 rest).modifyHead (c :: ·)
      if 3 ≤ pending then [] :: following
      else following.modifyHead (List.replicate pending '\n' ++ ·)

def screens (text : Text) : List Text := screensAfter 0 text

/-- The pieces between pairs of newlines, taken from the left. -/
def pauseGroups : Text → List Text
  | '\n' :: '\n' :: rest => [] :: pauseGroups rest
  | c :: rest => (pauseGroups rest).modifyHead (c :: ·)
  | [] => [[]]

def displayLines (width : Nat) (line : Text) : List Text :=
  if Text.blank line then [[]] else wrap line width

def groupItem (width : Nat) (group : Text) : Item :=
  .lines ((Text.split '\n' group).flatMap (displayLines width))

def screenItems (width : Nat) (screen : Text) : List Item :=
  ((pauseGroups screen).map (groupItem width)).intersperse .pause

/-- Two newlines ask for a pause, three or more for a pause and a clear screen. How many lines
fit on a screen is left to whoever shows them. -/
def paginate (text : Text) (width : Nat) : List Item :=
  [Item.hardBreak].intercalate ((screens (Text.unifyNewlines text)).map (screenItems width))

/-- Content lines that take more than one display line, and content lines after which the screen
is full. -/
structure LineBreaks where
  wrapped : List Nat
  full : List Nat
  deriving DecidableEq

def lineBreaksFrom (settings : Settings) (index visible : Nat) : List Text → LineBreaks
  | [] => ⟨[], []⟩
  | line :: rest =>
    if line.isEmpty then lineBreaksFrom settings (index + 1) 0 rest
    else
      let shown := (displayLines settings.charsPerLine line).length
      let full := settings.linesPerScreen ≤ visible + shown
      let later := lineBreaksFrom settings (index + 1) (if full then 0 else visible + shown) rest
      ⟨if 1 < shown then index :: later.wrapped else later.wrapped,
        if full then index :: later.full else later.full⟩

def lineBreaks (settings : Settings) (content : Text) : LineBreaks :=
  lineBreaksFrom settings 0 0 (Text.split '\n' (Text.unifyNewlines content))

end CalcApp.Note
