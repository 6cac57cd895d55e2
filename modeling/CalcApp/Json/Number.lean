import CalcApp.Text

namespace CalcApp.Json

structure Literal where
  negative : Bool
  whole : Text
  fraction : Option Text
  exponent : Option Int
  deriving DecidableEq

def valueOf (digits : Text) : Nat := digits.foldl (fun n d => n * 10 + (d.toNat - 48)) 0

def digits? (text : Text) : Option (Text × Text) :=
  match text.takeWhile Char.isDigit with
  | [] => none
  | digits => some (digits, text.dropWhile Char.isDigit)

def whole? (text : Text) : Option (Text × Text) :=
  (digits? text).bind fun (digits, rest) =>
    match digits with
    | '0' :: _ :: _ => none
    | _ => some (digits, rest)

def fraction? : Text → Option (Option Text × Text)
  | '.' :: rest => (digits? rest).map fun (digits, following) => (some digits, following)
  | text => some (none, text)

def signed? : Text → Option (Int × Text)
  | '+' :: rest => (digits? rest).map fun (digits, following) => (Int.ofNat (valueOf digits), following)
  | '-' :: rest => (digits? rest).map fun (digits, following) => (-Int.ofNat (valueOf digits), following)
  | text => (digits? text).map fun (digits, following) => (Int.ofNat (valueOf digits), following)

def exponent? : Text → Option (Option Int × Text)
  | c :: rest =>
    if c = 'e' ∨ c = 'E' then (signed? rest).map fun (power, following) => (some power, following)
    else some (none, c :: rest)
  | [] => some (none, [])

def unsigned? (negative : Bool) (text : Text) : Option (Literal × Text) :=
  (whole? text).bind fun (whole, rest) =>
    (fraction? rest).bind fun (fraction, rest) =>
      (exponent? rest).map fun (exponent, rest) => (⟨negative, whole, fraction, exponent⟩, rest)

def literal? : Text → Option (Literal × Text)
  | '-' :: rest => unsigned? true rest
  | text => unsigned? false text

namespace Literal

def natural? (literal : Literal) : Option Nat :=
  if literal.negative ∨ literal.fraction.isSome ∨ literal.exponent.isSome then none
  else
    let value := valueOf literal.whole
    if value < Nat.pow 2 64 then some value else none

def leading (value : Nat) : Text → Nat × Nat
  | [] => (value, 0)
  | digit :: rest =>
    let longer := value * 10 + (digit.toNat - 48)
    if longer < Nat.pow 2 64 then leading longer rest else (value, rest.length + 1)

/-- The nearest number with 53 significant bits; a tie goes to the even one. -/
def toDouble (n : Nat) : Nat :=
  let unit := Nat.pow 2 (n.log2 + 1 - 53)
  let kept := n / unit
  let lost := n % unit
  if unit < 2 * lost ∨ (unit = 2 * lost ∧ kept % 2 = 1) then (kept + 1) * unit else kept * unit

def inRange (literal : Literal) : Bool :=
  let fraction := literal.fraction.getD []
  let (significand, dropped) := leading 0 (literal.whole ++ fraction)
  let power : Int := literal.exponent.getD 0 - fraction.length + dropped
  significand = 0 || power < 0 ||
    (power < 309 &&
      toDouble significand * toDouble (Nat.pow 10 power.toNat) < Nat.pow 2 1024 - Nat.pow 2 970)

end Literal

end CalcApp.Json
