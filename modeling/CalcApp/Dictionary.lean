import CalcApp.Node

namespace CalcApp

namespace Text

def insertSorted (text : Text) : List Text → List Text
  | [] => [text]
  | other :: rest =>
    if text < other then text :: other :: rest
    else if text = other then other :: rest
    else other :: insertSorted text rest

def sortedSet (texts : List Text) : List Text := texts.foldr insertSorted []

end Text

/-- Distinct tokens that are not empty, longest first. A dictionary without tokens is one that has
not been loaded: nothing is checked against it. -/
structure Dictionary where
  tokens : List Text
  deriving DecidableEq

namespace Dictionary

def precedes (first second : Text) : Bool :=
  second.byteSize < first.byteSize || (first.byteSize = second.byteSize && !(second < first))

def ofTokens (tokens : List Text) : Dictionary :=
  ⟨((tokens.filter fun token => !token.isEmpty).eraseDups).mergeSort precedes⟩

def contains (dictionary : Dictionary) (token : Text) : Bool := dictionary.tokens.contains token

/-- Whether the text is used up by taking the longest token off its front again and again. A token
is not empty, so it takes at least the first character. -/
def spells (dictionary : Dictionary) : Text → Bool
  | [] => true
  | c :: rest =>
    match dictionary.tokens.find? fun token => token.isPrefixOf (c :: rest) with
    | some token => dictionary.spells (rest.drop (token.length - 1))
    | none => false
termination_by text => text.length
decreasing_by
  simp only [List.length_drop, List.length_cons]
  omega

def accepts (dictionary : Dictionary) (candidate : Text) : Bool :=
  dictionary.contains candidate || dictionary.spells candidate

def isSymbol (c : Char) : Bool := !(c.isAlphanum || c = '_' || Text.isBlank c)

def forbidden (text : Text) : List Text :=
  (text.filter fun c => c = '"' || c = '\\').map fun c => [c]

def findInvalid (dictionary : Dictionary) (forbid : Bool) (text : Text) : List Text :=
  if dictionary.tokens.isEmpty then []
  else
    let rejected := (runs isSymbol text).filter fun candidate => !dictionary.accepts candidate
    Text.sortedSet (rejected ++ if forbid then forbidden text else [])

/-- Titles stand between quotes, where neither a quote nor a backslash can be written. -/
def findInvalidTitle (title : Text) : List Text := Text.sortedSet (forbidden title)

def put (key : Text) (value : List Text) : List (Text × List Text) → List (Text × List Text)
  | [] => [(key, value)]
  | (other, old) :: rest =>
    if key < other then (key, value) :: (other, old) :: rest
    else if key = other then (key, value) :: rest
    else (other, old) :: put key value rest

def putInvalid (dictionary : Dictionary) (table : List (Text × List Text)) :
    Node → List (Text × List Text)
  | .note id _ content =>
    let invalid := dictionary.findInvalid true content
    if invalid.isEmpty then table else put id invalid table
  | _ => table

/-- What is invalid in the notes of a tree, by id. Of notes with one id the last that has
something invalid counts. -/
def findInvalidInTree (dictionary : Dictionary) (root : Node) : List (Text × List Text) :=
  ((root.preorder 0).map Prod.snd).foldl dictionary.putInvalid []

end Dictionary

end CalcApp
