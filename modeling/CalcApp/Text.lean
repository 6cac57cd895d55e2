/-! Text as a list of code points: blank characters, trimming, pieces between separators, lines
and maximal runs. -/

namespace CalcApp

abbrev Text := List Char

namespace Text

/-- Characters with the Unicode property `White_Space`. -/
def isBlank (c : Char) : Bool :=
  let n := c.toNat
  (9 ≤ n && n ≤ 13) || n == 0x20 || n == 0x85 || n == 0xA0 || n == 0x1680 ||
    (0x2000 ≤ n && n ≤ 0x200A) || n == 0x2028 || n == 0x2029 || n == 0x202F ||
    n == 0x205F || n == 0x3000

def blank (text : Text) : Bool := text.all isBlank

def trimStart (text : Text) : Text := text.dropWhile isBlank

def trimEnd (text : Text) : Text := (text.reverse.dropWhile isBlank).reverse

def trim (text : Text) : Text := trimEnd (trimStart text)

def split (separator : Char) : Text → List Text
  | [] => [[]]
  | c :: rest =>
    if c = separator then [] :: split separator rest
    else (split separator rest).modifyHead (c :: ·)

def join (separator : Text) (pieces : List Text) : Text := separator.intercalate pieces

def unifyNewlines : Text → Text
  | '\r' :: '\n' :: rest => '\n' :: unifyNewlines rest
  | c :: rest => (if c = '\r' then '\n' else c) :: unifyNewlines rest
  | [] => []

def dropReturn (line : Text) : Text :=
  if line.getLast? = some '\r' then line.dropLast else line

/-- Lines end with a newline, or with a carriage return and a newline; what follows the last of
them is a line unless it is empty. -/
def lines (text : Text) : List Text :=
  let pieces := split '\n' text
  let last := pieces.getLast?.getD []
  pieces.dropLast.map dropReturn ++ if last.isEmpty then [] else [last]

def fullLines : Text → List Text
  | [] => []
  | '\n' :: rest => ['\n'] :: fullLines rest
  | [c] => [[c]]
  | c :: next :: rest => (fullLines (next :: rest)).modifyHead (c :: ·)

def ofNat (n : Nat) : Text := Nat.toDigits 10 n

def byteSize : Text → Nat
  | [] => 0
  | c :: rest => c.utf8Size + byteSize rest

end Text

/-- The runs of `runs`, where `run` holds the elements read of the run in progress. -/
def runsAfter {α : Type} (p : α → Bool) (run : List α) : List α → List (List α)
  | [] => if run.isEmpty then [] else [run]
  | x :: rest =>
    if p x then runsAfter p (run ++ [x]) rest
    else (if run.isEmpty then [] else [run]) ++ runsAfter p [] rest

def runs {α : Type} (p : α → Bool) (elements : List α) : List (List α) :=
  runsAfter p [] elements

def Text.paragraphs (lines : List Text) : List (List Text) :=
  runs (fun line => !Text.blank line) lines

end CalcApp
