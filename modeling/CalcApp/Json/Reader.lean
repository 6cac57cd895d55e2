import CalcApp.Json
import CalcApp.Json.Number

/-! Reading JSON text, as any value or as a value of an expected shape. The first fault in reading
order counts: text that is not JSON is malformed, JSON of another shape than expected is
mismatched. -/

namespace CalcApp

inductive Fault where
  | malformed
  | mismatched
  deriving DecidableEq

namespace Json

abbrev Reader (α : Type) := Text → Except Fault (α × Text)

def required {α : Type} : Option α → Except Fault α
  | some value => .ok value
  | none => .error .malformed

def isSpace (c : Char) : Bool := c = ' ' || c = '\t' || c = '\n' || c = '\r'

def skipSpace (text : Text) : Text := text.dropWhile isSpace

def hexValue? (c : Char) : Option Nat :=
  if '0' ≤ c ∧ c ≤ '9' then some (c.toNat - 48)
  else if 'a' ≤ c ∧ c ≤ 'f' then some (c.toNat - 87)
  else if 'A' ≤ c ∧ c ≤ 'F' then some (c.toNat - 55)
  else none

def unit? : Text → Option (Nat × Text)
  | a :: b :: c :: d :: rest =>
    (hexValue? a).bind fun a => (hexValue? b).bind fun b =>
      (hexValue? c).bind fun c => (hexValue? d).map fun d =>
        (((a * 16 + b) * 16 + c) * 16 + d, rest)
  | _ => none

def isHighSurrogate (unit : Nat) : Bool := 0xD800 ≤ unit && unit < 0xDC00

def isLowSurrogate (unit : Nat) : Bool := 0xDC00 ≤ unit && unit < 0xE000

def pair? (high : Nat) : Text → Option (Char × Text)
  | '\\' :: 'u' :: rest =>
    (unit? rest).bind fun (low, following) =>
      if isHighSurrogate high && isLowSurrogate low then
        some (Char.ofNat (0x10000 + (high - 0xD800) * 0x400 + (low - 0xDC00)), following)
      else none
  | _ => none

/-- The character that an escape stands for, after its backslash. Surrogates come in pairs; where
`lone` is set, one may stand alone and is read as a replacement character. -/
def escape? (lone : Bool) : Text → Option (Char × Text)
  | '"' :: rest => some ('"', rest)
  | '\\' :: rest => some ('\\', rest)
  | '/' :: rest => some ('/', rest)
  | 'b' :: rest => some ('\x08', rest)
  | 'f' :: rest => some ('\x0c', rest)
  | 'n' :: rest => some ('\n', rest)
  | 'r' :: rest => some ('\r', rest)
  | 't' :: rest => some ('\t', rest)
  | 'u' :: rest =>
    (unit? rest).bind fun (unit, following) =>
      if isHighSurrogate unit || isLowSurrogate unit then
        (pair? unit following).or (if lone then some ('\ufffd', following) else none)
      else some (Char.ofNat unit, following)
  | _ => none

theorem unit?_shorter {text rest : Text} {unit : Nat} (found : unit? text = some (unit, rest)) :
    rest.length < text.length := by
  unfold unit? at found
  split at found
  · simp only [Option.bind_eq_some_iff, Option.map_eq_some_iff, Prod.mk.injEq] at found
    obtain ⟨_, _, _, _, _, _, _, _, _, rfl⟩ := found
    simp only [List.length_cons]
    omega
  · simp at found

theorem pair?_shorter {high : Nat} {text rest : Text} {c : Char}
    (found : pair? high text = some (c, rest)) : rest.length < text.length := by
  unfold pair? at found
  split at found
  · simp only [Option.bind_eq_some_iff, Prod.exists] at found
    obtain ⟨_, following, low, found⟩ := found
    have shorter := unit?_shorter low
    split at found
    · simp only [Option.some.injEq, Prod.mk.injEq] at found
      rw [← found.2]
      simp only [List.length_cons]
      omega
    · simp at found
  · simp at found

theorem escape?_shorter {lone : Bool} {text rest : Text} {c : Char}
    (found : escape? lone text = some (c, rest)) : rest.length < text.length := by
  unfold escape? at found
  split at found
  case h_9 =>
    simp only [Option.bind_eq_some_iff, Prod.exists] at found
    obtain ⟨_, following, first, found⟩ := found
    have shorter := unit?_shorter first
    simp only [List.length_cons]
    split at found
    · rcases Option.or_eq_some_iff.mp found with paired | ⟨_, single⟩
      · have second := pair?_shorter paired
        omega
      · split at single
        · simp only [Option.some.injEq, Prod.mk.injEq] at single
          rw [← single.2]
          omega
        · simp at single
    · simp only [Option.some.injEq, Prod.mk.injEq] at found
      rw [← found.2]
      omega
  case h_10 => simp at found
  all_goals
    simp only [Option.some.injEq, Prod.mk.injEq] at found
    simp [← found.2]

def stringTail? (lone : Bool) : Text → Option (Text × Text)
  | [] => none
  | c :: rest =>
    if c = '"' then some ([], rest)
    else if c = '\\' then
      match found : escape? lone rest with
      | some (escaped, following) =>
        have := escape?_shorter found
        (stringTail? lone following).map fun (text, last) => (escaped :: text, last)
      | none => none
    else if c.toNat < 0x20 then none
    else (stringTail? lone rest).map fun (text, last) => (c :: text, last)
termination_by text => text.length

def word? (word : Text) (value : Json) (text : Text) : Option (Json × Text) :=
  if word.isPrefixOf text then some (value, text.drop word.length) else none

def number? (lenient : Bool) (text : Text) : Option (Json × Text) :=
  (literal? text).bind fun (literal, rest) =>
    match literal.natural? with
    | some value => some (.natural value, rest)
    | none =>
      if lenient || literal.inRange then
        some (.decimal (text.take (text.length - rest.length)), rest)
      else none

/-- A value other than an array or an object. A lenient reader takes numbers out of range and lone
surrogates. -/
def scalar? (lenient : Bool) : Text → Option (Json × Text)
  | '"' :: rest => (stringTail? lenient rest).map fun (text, following) => (.str text, following)
  | 'n' :: rest => word? "null".toList .null ('n' :: rest)
  | 't' :: rest => word? "true".toList (.bool true) ('t' :: rest)
  | 'f' :: rest => word? "false".toList (.bool false) ('f' :: rest)
  | text => number? lenient text

namespace Reader

def itemsFrom {α : Type} (item : Reader α) : Nat → Reader (List α)
  | 0, _ => .error .malformed
  | most + 1, text => do
    let (first, rest) ← item text
    match skipSpace rest with
    | ',' :: rest =>
      let (others, following) ← itemsFrom item most rest
      pure (first :: others, following)
    | ']' :: following => pure ([first], following)
    | _ => .error .malformed

def items {α : Type} (item : Reader α) (most : Nat) : Reader (List α) := fun text =>
  match skipSpace text with
  | ']' :: rest => .ok ([], rest)
  | start => itemsFrom item most start

/-- Members with commas between them up to the closing brace, at most `most` of them. What is read
so far decides, with the key, how a member is read. -/
def membersFrom {σ : Type} (lenient : Bool) (field : σ → Text → Except Fault (Reader σ)) :
    Nat → σ → Reader σ
  | 0, _, _ => .error .malformed
  | most + 1, state, text =>
    match skipSpace text with
    | '"' :: rest => do
      let (key, rest) ← required (stringTail? lenient rest)
      let member ← field state key
      match skipSpace rest with
      | ':' :: rest =>
        let (longer, rest) ← member rest
        match skipSpace rest with
        | ',' :: rest => membersFrom lenient field most longer rest
        | '\x7d' :: following => pure (longer, following)
        | _ => .error .malformed
      | _ => .error .malformed
    | _ => .error .malformed

def members {σ : Type} (lenient : Bool) (field : σ → Text → Except Fault (Reader σ)) (start : σ) :
    Reader σ := fun text =>
  match skipSpace text with
  | '\x7d' :: rest => .ok (start, rest)
  | first => membersFrom lenient field first.length start first

def value (lenient : Bool) : Nat → Reader Json
  | 0, text => required (scalar? lenient (skipSpace text))
  | depth + 1, text =>
    match skipSpace text with
    | '[' :: rest => do
      let (found, following) ← items (value lenient depth) rest.length rest
      pure (.arr found, following)
    | '\x7b' :: rest => do
      let member := fun (found : List (Text × Json)) key => pure fun text => do
        let (next, following) ← value lenient depth text
        pure (found ++ [(key, next)], following)
      let (found, following) ← members lenient member [] rest
      pure (.obj found, following)
    | start => required (scalar? lenient start)

def unexpected : Text → Fault
  | '[' :: _ => .mismatched
  | '\x7b' :: _ => .mismatched
  | start => if (scalar? false start).isSome then .mismatched else .malformed

def string : Reader Text := fun text =>
  match skipSpace text with
  | '"' :: rest => required (stringTail? false rest)
  | start => .error (unexpected start)

def natural : Reader Nat := fun text =>
  match scalar? false (skipSpace text) with
  | some (.natural n, following) => .ok (n, following)
  | _ => .error (unexpected (skipSpace text))

def array {α : Type} (item : Reader α) : Reader (List α) := fun text =>
  match skipSpace text with
  | '[' :: rest => items item rest.length rest
  | start => .error (unexpected start)

def object {σ : Type} (field : σ → Text → Except Fault (Reader σ)) (start : σ) : Reader σ :=
  fun text =>
    match skipSpace text with
    | '\x7b' :: rest => members false field start rest
    | other => .error (unexpected other)

def whole {α : Type} (reader : Reader α) (text : Text) : Except Fault α := do
  let (result, rest) ← reader text
  if (skipSpace rest).isEmpty then pure result else .error .malformed

end Reader

end Json

end CalcApp
