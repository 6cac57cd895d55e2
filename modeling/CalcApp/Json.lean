import CalcApp.Text

namespace CalcApp

/-- A number without sign, fraction and exponent that fits 64 bits is a `natural`; any other number
is kept as it is written. Members of an object keep their order, and keys may repeat. -/
inductive Json where
  | null
  | bool (value : Bool)
  | natural (value : Nat)
  | decimal (literal : Text)
  | str (text : Text)
  | arr (items : List Json)
  | obj (members : List (Text × Json))

namespace Json

def hexDigit (n : Nat) : Char := if n < 10 then Char.ofNat (48 + n) else Char.ofNat (87 + n)

def escape (c : Char) : Text :=
  if c = '"' then ['\\', '"']
  else if c = '\\' then ['\\', '\\']
  else if c = '\n' then ['\\', 'n']
  else if c = '\r' then ['\\', 'r']
  else if c = '\t' then ['\\', 't']
  else if c = '\x08' then ['\\', 'b']
  else if c = '\x0c' then ['\\', 'f']
  else if c.toNat < 0x20 then
    ['\\', 'u', '0', '0', hexDigit (c.toNat / 16), hexDigit (c.toNat % 16)]
  else [c]

def quoted (text : Text) : Text := '"' :: text.flatMap escape ++ ['"']

def newline (indent : Nat) : Text := '\n' :: List.replicate indent ' '

def bracketed (opening closing : Char) (indent : Nat) (parts : List Text) : Text :=
  if parts.isEmpty then [opening, closing]
  else
    opening :: newline (indent + 2) ++ Text.join (',' :: newline (indent + 2)) parts ++
      newline indent ++ [closing]

mutual

def pretty (indent : Nat) : Json → Text
  | .null => "null".toList
  | .bool true => "true".toList
  | .bool false => "false".toList
  | .natural value => Text.ofNat value
  | .decimal literal => literal
  | .str text => quoted text
  | .arr items => bracketed '[' ']' indent (prettyItems (indent + 2) items)
  | .obj members => bracketed '\x7b' '\x7d' indent (prettyMembers (indent + 2) members)

def prettyItems (indent : Nat) : List Json → List Text
  | [] => []
  | item :: rest => pretty indent item :: prettyItems indent rest

def prettyMembers (indent : Nat) : List (Text × Json) → List Text
  | [] => []
  | (key, value) :: rest =>
    (quoted key ++ ':' :: ' ' :: pretty indent value) :: prettyMembers indent rest

end

end Json

end CalcApp
