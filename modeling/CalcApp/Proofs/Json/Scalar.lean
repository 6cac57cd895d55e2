import CalcApp.Json.Reader
import Mathlib.Algebra.Ring.Nat

namespace CalcApp.Json

theorem skipSpace_cons {c : Char} (shown : isSpace c = false) (rest : Text) :
    skipSpace (c :: rest) = c :: rest := by
  simp [skipSpace, shown]

theorem skipSpace_space (rest : Text) : skipSpace (' ' :: rest) = skipSpace rest := rfl

theorem skipSpace_newline (indent : Nat) (rest : Text) :
    skipSpace (newline indent ++ rest) = skipSpace rest := by
  have blanks : ∀ c ∈ newline indent, isSpace c = true := by
    intro c member
    rcases List.mem_cons.mp member with rfl | space
    · decide
    · rw [(List.mem_replicate.mp space).2]
      decide
  rw [skipSpace, List.dropWhile_append_of_pos blanks, skipSpace]

theorem hexValue?_hexDigit : ∀ n < 16, hexValue? (hexDigit n) = some n := by decide

theorem stringTail?_escaped {lone : Bool} {text following : Text} {c : Char}
    (found : escape? lone text = some (c, following)) :
    stringTail? lone ('\\' :: text) =
      (stringTail? lone following).map fun (inside, last) => (c :: inside, last) := by
  rw [stringTail?, if_neg (by decide), if_pos rfl]
  split
  · rename_i same
    rw [found] at same
    cases same
    rfl
  · rename_i none
    rw [found] at none
    cases none

theorem escape?_unit (lone : Bool) {c : Char} (control : c.toNat < 0x20) (following : Text) :
    escape? lone ('u' :: '0' :: '0' :: hexDigit (c.toNat / 16) :: hexDigit (c.toNat % 16) ::
      following) = some (c, following) := by
  have high := hexValue?_hexDigit (c.toNat / 16) (by omega)
  have low := hexValue?_hexDigit (c.toNat % 16) (by omega)
  have number : ((0 * 16 + 0) * 16 + c.toNat / 16) * 16 + c.toNat % 16 = c.toNat := by omega
  have zero : hexValue? '0' = some 0 := by decide
  have first : isHighSurrogate c.toNat = false := by
    rw [isHighSurrogate, decide_eq_false (by omega), Bool.false_and]
  have second : isLowSurrogate c.toNat = false := by
    rw [isLowSurrogate, decide_eq_false (by omega), Bool.false_and]
  simp only [escape?, unit?, zero, high, low, Option.bind_some, Option.map_some, number, first,
    second, Bool.or_self, Bool.false_eq_true, if_false, Char.ofNat_toNat]

theorem stringTail?_escape (lone : Bool) (c : Char) (following : Text) :
    stringTail? lone (escape c ++ following) =
      (stringTail? lone following).map fun (inside, last) => (c :: inside, last) := by
  by_cases named : c ∈ ['"', '\\', '\n', '\r', '\t', '\x08', '\x0c']
  · simp only [List.mem_cons, List.not_mem_nil, or_false] at named
    rcases named with rfl | rfl | rfl | rfl | rfl | rfl | rfl <;> exact stringTail?_escaped rfl
  · simp only [List.mem_cons, List.not_mem_nil, or_false, not_or] at named
    obtain ⟨quote, backslash, newline, carriage, tab, backspace, feed⟩ := named
    simp only [escape, quote, backslash, newline, carriage, tab, backspace, feed, if_false]
    by_cases control : c.toNat < 0x20
    · rw [if_pos control]
      exact stringTail?_escaped (escape?_unit lone control following)
    · rw [if_neg control, List.singleton_append, stringTail?, if_neg quote, if_neg backslash,
        if_neg control]

theorem stringTail?_quoted (lone : Bool) (text rest : Text) :
    stringTail? lone (text.flatMap escape ++ '"' :: rest) = some (text, rest) := by
  induction text with
  | nil => rw [List.flatMap_nil, List.nil_append, stringTail?, if_pos rfl]
  | cons c following ih =>
      rw [List.flatMap_cons, List.append_assoc, stringTail?_escape, ih, Option.map_some]

theorem quoted_append (text rest : Text) :
    quoted text ++ rest = '"' :: (text.flatMap escape ++ '"' :: rest) := by
  simp [quoted]

theorem scalar?_quoted (lenient : Bool) (text rest : Text) :
    scalar? lenient (quoted text ++ rest) = some (.str text, rest) := by
  rw [quoted_append, scalar?, stringTail?_quoted, Option.map_some]

def Ends : Text → Prop
  | [] => True
  | c :: _ => c = ',' ∨ c = '\n'

theorem Ends.not_digit {c : Char} {rest : Text} (ends : Ends (c :: rest)) : ¬ c.isDigit = true := by
  rcases ends with rfl | rfl <;> decide

theorem ofNat_ne_nil (n : Nat) : Text.ofNat n ≠ [] := Nat.toDigits_ne_nil

theorem isDigit_of_mem_ofNat {n : Nat} {c : Char} (member : c ∈ Text.ofNat n) : c.isDigit = true :=
  Nat.isDigit_of_mem_toDigits (by decide) (by decide) member

theorem isSpace_of_isDigit {c : Char} (digit : c.isDigit = true) : isSpace c = false := by
  cases space : isSpace c with
  | false => rfl
  | true =>
      simp only [isSpace, Bool.or_eq_true, decide_eq_true_eq] at space
      rcases space with ((rfl | rfl) | rfl) | rfl <;> exact absurd digit (by decide)

theorem ofNat_cons (n : Nat) :
    ∃ first others, Text.ofNat n = first :: others ∧ first.isDigit = true := by
  obtain ⟨first, others, shape⟩ := List.exists_cons_of_ne_nil (ofNat_ne_nil n)
  exact ⟨first, others, shape, isDigit_of_mem_ofNat (shape ▸ List.mem_cons_self ..)⟩

theorem valueOf_ofNat (n : Nat) : valueOf (Text.ofNat n) = n := by
  have digits : valueOf (Text.ofNat n) = Nat.ofDigitChars 10 (Nat.toDigits 10 n) 0 := by
    rw [valueOf, Nat.ofDigitChars, Text.ofNat]
    congr 1
    funext value digit
    rw [Nat.mul_comm]
    rfl
  rw [digits, Nat.ofDigitChars_ten_toDigits]

theorem eq_zero_of_leading {n : Nat} {rest : Text} (leading : Text.ofNat n = '0' :: rest) : n = 0 := by
  induction n using Nat.strongRecOn generalizing rest with
  | ind n ih =>
      rw [Text.ofNat] at leading
      by_cases small : n < 10
      · rw [Nat.toDigits_of_lt_base small] at leading
        have only : ∀ digit < 10, Nat.digitChar digit = '0' → digit = 0 := by decide
        exact only n small (List.cons.inj leading).1
      · rw [Nat.toDigits_of_base_le (by decide) (by omega)] at leading
        obtain ⟨first, others, shape⟩ := List.exists_cons_of_ne_nil (ofNat_ne_nil (n / 10))
        rw [← Text.ofNat, shape, List.cons_append] at leading
        rw [(List.cons.inj leading).1] at shape
        have zero := ih (n / 10) (by omega) shape
        omega

theorem digits?_ofNat (n : Nat) {rest : Text} (ends : Ends rest) :
    digits? (Text.ofNat n ++ rest) = some (Text.ofNat n, rest) := by
  have digits : ∀ c ∈ Text.ofNat n, c.isDigit = true := fun _ => isDigit_of_mem_ofNat
  have stop : rest.takeWhile Char.isDigit = [] ∧ rest.dropWhile Char.isDigit = rest := by
    cases rest with
    | nil => exact ⟨rfl, rfl⟩
    | cons c following =>
        exact ⟨List.takeWhile_cons_of_neg ends.not_digit, List.dropWhile_cons_of_neg ends.not_digit⟩
  obtain ⟨first, others, shape⟩ := List.exists_cons_of_ne_nil (ofNat_ne_nil n)
  rw [digits?, List.takeWhile_append_of_pos digits, List.dropWhile_append_of_pos digits, stop.1,
    stop.2, List.append_nil, shape]

theorem whole?_ofNat (n : Nat) {rest : Text} (ends : Ends rest) :
    whole? (Text.ofNat n ++ rest) = some (Text.ofNat n, rest) := by
  rw [whole?, digits?_ofNat n ends, Option.bind_some]
  dsimp only
  split
  · rename_i leading
    rw [eq_zero_of_leading leading] at leading
    cases leading
  · rfl

theorem unsigned?_ofNat (n : Nat) {rest : Text} (ends : Ends rest) :
    unsigned? false (Text.ofNat n ++ rest) = some (⟨false, Text.ofNat n, none, none⟩, rest) := by
  have fraction : fraction? rest = some (none, rest) := by
    cases rest with
    | nil => rfl
    | cons c following => rcases ends with rfl | rfl <;> rfl
  have exponent : exponent? rest = some (none, rest) := by
    cases rest with
    | nil => rfl
    | cons c following => rcases ends with rfl | rfl <;> rfl
  simp only [unsigned?, whole?_ofNat n ends, fraction, exponent, Option.bind_some, Option.map_some]

theorem literal?_digit {c : Char} (digit : c.isDigit = true) (rest : Text) :
    literal? (c :: rest) = unsigned? false (c :: rest) := by
  rw [literal?.eq_2]
  intro following same
  cases same
  exact absurd digit (by decide)

theorem scalar?_digit (lenient : Bool) {c : Char} (digit : c.isDigit = true) (rest : Text) :
    scalar? lenient (c :: rest) = number? lenient (c :: rest) := by
  rw [scalar?.eq_5]
  all_goals
    intro following same
    cases same
    exact absurd digit (by decide)

theorem scalar?_ofNat (lenient : Bool) {n : Nat} (fits : n < 2 ^ 64) {rest : Text}
    (ends : Ends rest) : scalar? lenient (Text.ofNat n ++ rest) = some (.natural n, rest) := by
  obtain ⟨first, others, shape, digit⟩ := ofNat_cons n
  have scalar : scalar? lenient (Text.ofNat n ++ rest) = number? lenient (Text.ofNat n ++ rest) := by
    rw [shape]
    exact scalar?_digit lenient digit _
  have literal : literal? (Text.ofNat n ++ rest) =
      some (⟨false, Text.ofNat n, none, none⟩, rest) := by
    rw [← unsigned?_ofNat n ends, shape]
    exact literal?_digit digit _
  have natural : (Literal.mk false (Text.ofNat n) none none).natural? = some n := by
    rw [Literal.natural?, if_neg (by simp), valueOf_ofNat]
    exact if_pos fits
  simp only [scalar, number?, literal, natural, Option.bind_some]

namespace Reader

theorem string_quoted (text rest : Text) : string (' ' :: (quoted text ++ rest)) = .ok (text, rest) := by
  rw [string, skipSpace_space, quoted_append, skipSpace_cons (by decide)]
  show required (stringTail? false (text.flatMap escape ++ '"' :: rest)) = _
  rw [stringTail?_quoted, required]

theorem natural_ofNat {n : Nat} (fits : n < 2 ^ 64) {rest : Text} (ends : Ends rest) :
    natural (' ' :: (Text.ofNat n ++ rest)) = .ok (n, rest) := by
  obtain ⟨first, others, shape, digit⟩ := ofNat_cons n
  have shown : skipSpace (Text.ofNat n ++ rest) = Text.ofNat n ++ rest := by
    rw [shape]
    exact skipSpace_cons (isSpace_of_isDigit digit) _
  rw [natural, skipSpace_space, shown, scalar?_ofNat false fits ends]

end Reader

end CalcApp.Json
