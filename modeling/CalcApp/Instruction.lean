import CalcApp.Label

/-! The instructions a program consists of, how each is written on a line, and how a line is
read. Reading is generous: it takes blanks around an instruction, one colon in front of it, any
number of spaces and tabs between its parts, and a missing final quote or parenthesis. -/

namespace CalcApp

structure Choice where
  name : Text
  target : Label
  deriving DecidableEq

inductive Instruction where
  | define (label : Label)
  | goto (label : Label)
  | display (text : Text)
  | pause
  | clear
  | stop
  | menu (title : Text) (choices : List Choice)
  | other (body : Text)
  deriving DecidableEq

namespace Instruction

def quoted (text : Text) : Text := '"' :: text ++ ['"']

def menuParts (title : Text) (choices : List Choice) : List Text :=
  quoted title :: choices.flatMap fun choice => [quoted choice.name, choice.target.text]

def line : Instruction → Text
  | define label => "Lbl ".toList ++ label.text
  | goto label => ":Goto ".toList ++ label.text
  | display text => ":Disp ".toList ++ quoted text
  | pause => ":Pause \"\"".toList
  | clear => ":ClrHome".toList
  | stop => ":Stop".toList
  | menu title choices => ":Menu(".toList ++ Text.join [','] (menuParts title choices) ++ [')']
  | other body => ':' :: body

def isGap (c : Char) : Bool := c = ' ' || c = '\t'

def skipGap (text : Text) : Text := text.dropWhile isGap

def gap? : Text → Option Text
  | [] => none
  | c :: rest => if isGap c then some (skipGap rest) else none

def after? (word text : Text) : Option Text :=
  if word.isPrefixOf text then some (text.drop word.length) else none

def quoted? : Text → Option (Text × Text)
  | '"' :: rest =>
    match rest.dropWhile (· ≠ '"') with
    | _ :: following => some (rest.takeWhile (· ≠ '"'), following)
    | [] => none
  | _ => none

def comma? (text : Text) : Option Text :=
  match skipGap text with
  | ',' :: rest => some (skipGap rest)
  | _ => none

def choice? (text : Text) : Option (Choice × Text) :=
  (comma? text).bind fun start =>
    (quoted? start).bind fun (name, rest) =>
      (comma? rest).bind fun
        | first :: second :: following =>
          (Label.ofLetters? first second).map fun target => (⟨name, target⟩, following)
        | _ => none

theorem length_skipGap_le (text : Text) : (skipGap text).length ≤ text.length :=
  (List.dropWhile_sublist _).length_le

theorem comma?_shorter {text rest : Text} (found : comma? text = some rest) :
    rest.length < text.length := by
  unfold comma? at found
  split at found
  · rename_i following start
    have whole := length_skipGap_le text
    have tail := length_skipGap_le following
    simp only [start, List.length_cons] at whole
    simp only [Option.some.injEq] at found
    subst found
    omega
  · simp at found

theorem quoted?_shorter {text name rest : Text} (found : quoted? text = some (name, rest)) :
    rest.length < text.length := by
  unfold quoted? at found
  split at found
  · rename_i inside
    split at found
    · rename_i start
      have whole := (List.dropWhile_sublist (l := inside) (· ≠ '"')).length_le
      simp only [start, List.length_cons] at whole
      simp only [Option.some.injEq, Prod.mk.injEq] at found
      rw [← found.2, List.length_cons]
      omega
    · simp at found
  · simp at found

theorem choice?_shorter {text rest : Text} {choice : Choice}
    (found : choice? text = some (choice, rest)) : rest.length < text.length := by
  simp only [choice?, Option.bind_eq_some_iff, Prod.exists] at found
  obtain ⟨start, leading, name, named, quote, following, middle, found⟩ := found
  have first := comma?_shorter leading
  have second := quoted?_shorter quote
  have third := comma?_shorter middle
  split at found
  · simp only [Option.map_eq_some_iff, Prod.mk.injEq] at found
    obtain ⟨_, _, _, rfl⟩ := found
    simp only [List.length_cons] at third
    omega
  · simp at found

def choices (text : Text) : List Choice × Text :=
  match found : choice? text with
  | some (choice, rest) =>
    have := choice?_shorter found
    let (more, following) := choices rest
    (choice :: more, following)
  | none => ([], text)
termination_by text.length

def menu? (body : Text) : Option Instruction :=
  (after? "Menu(".toList body).bind fun start =>
    (quoted? (skipGap start)).bind fun (title, rest) =>
      let (found, following) := choices rest
      let close := skipGap following
      if close = [] ∨ close = [')'] then some (.menu title found) else none

/-- A text to show: everything after the first quote, less a quote at the very end. -/
def display? (body : Text) : Option Instruction :=
  ((after? "Disp".toList body).bind gap?).bind fun
    | '"' :: text => some (.display (if text.getLast? = some '"' then text.dropLast else text))
    | _ => none

def labelAfter? (word body : Text) : Option Label :=
  ((after? word body).bind gap?).bind fun
    | [first, second] => Label.ofLetters? first second
    | _ => none

def ofBody (body : Text) : Instruction :=
  if body = "ClrHome".toList then .clear
  else if body = "Stop".toList then .stop
  else if body = "Pause \"\"".toList then .pause
  else
    ((labelAfter? "Lbl".toList body).map define).or
      (((labelAfter? "Goto".toList body).map goto).or
        ((display? body).or (menu? body))) |>.getD (.other body)

def dropColon : Text → Text
  | ':' :: rest => rest
  | text => text

def body (line : Text) : Text := Text.trimStart (dropColon (Text.trim line))

def ofLine (line : Text) : Instruction := ofBody (body line)

end Instruction

end CalcApp
