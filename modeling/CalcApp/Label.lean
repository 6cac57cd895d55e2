import CalcApp.Text

namespace CalcApp

structure Label where
  index : Fin 676
  deriving DecidableEq

structure InvalidLabel where
  text : Text
  deriving DecidableEq

namespace Label

def count : Nat := 676

def ofIndex? (index : Nat) : Option Label :=
  if bound : index < 676 then some ⟨index, bound⟩ else none

def letter (n : Nat) : Char := Char.ofNat (65 + n)

def ofLetters? (first second : Char) : Option Label :=
  if first.isUpper && second.isUpper then
    ofIndex? ((first.toNat - 65) * 26 + (second.toNat - 65))
  else none

def text (label : Label) : Text :=
  [letter (label.index.val / 26), letter (label.index.val % 26)]

def parse : Text → Except InvalidLabel Label
  | [first, second] =>
    match ofLetters? first second with
    | some label => .ok label
    | none => .error ⟨[first, second]⟩
  | other => .error ⟨other⟩

instance : LE Label := ⟨fun a b => a.index ≤ b.index⟩

instance (a b : Label) : Decidable (a ≤ b) := inferInstanceAs (Decidable (a.index ≤ b.index))

def sort (labels : List Label) : List Label := labels.mergeSort (fun a b => decide (a ≤ b))

end Label

/-- A character between double quotes: quotes and backslashes are escaped, control characters
have a letter or their number in hexadecimal digits. Left out, and written as they are: the other
characters that do not show on their own, which the full rule also writes as numbers. These are the
format characters, the separators but for the space, the unassigned and private code points and
the marks that combine with the character before them. -/
def Text.escaped (c : Char) : Text :=
  if c = '"' then ['\\', '"']
  else if c = '\\' then ['\\', '\\']
  else if c = '\t' then ['\\', 't']
  else if c = '\n' then ['\\', 'n']
  else if c = '\r' then ['\\', 'r']
  else if c.toNat = 0 then ['\\', '0']
  else if c.toNat < 0x20 || (0x7F ≤ c.toNat && c.toNat < 0xA0) then
    "\\u\x7b".toList ++ Nat.toDigits 16 c.toNat ++ "\x7d".toList
  else [c]

def InvalidLabel.message (fault : InvalidLabel) : Text :=
  "invalid label ".toList ++ '"' :: fault.text.flatMap Text.escaped ++ ['"']

end CalcApp
