import CalcApp.Listing
import CalcApp.Screen
import CalcApp.Proofs.Text

namespace CalcApp

namespace Screen

/-- What is shown before a pause: its texts, and whether the pause clears the screen. -/
structure Section where
  texts : List Text
  clears : Bool

namespace Section

def after (texts : List Text) (part : Section) : Section := ⟨texts ++ part.texts, part.clears⟩

def text (part : Section) : Text :=
  Text.join ['\n'] part.texts ++ if part.clears then ['\n'] else []

end Section

/-- Items cut at their pauses. What is cleared outside a pause leaves no trace. -/
def cut : List Item → List Section
  | [] => [⟨[], false⟩]
  | .text content :: rest => (cut rest).modifyHead (.after [content])
  | .pause :: rest => ⟨[], false⟩ :: cut rest
  | .pauseAndClear :: rest => ⟨[], true⟩ :: cut rest
  | .clear :: rest => cut rest

def spelled (parts : List Section) : List Text :=
  (parts.filter fun part => !part.texts.isEmpty).map Section.text

def content (items : List Item) : Text := Text.join ['\n', '\n'] (spelled (cut items))

theorem modifyHead_after (front back : List Text) (parts : List Section) :
    (parts.modifyHead (.after back)).modifyHead (.after front) =
      parts.modifyHead (.after (front ++ back)) := by
  cases parts with
  | nil => rfl
  | cons part rest => simp [Section.after]

theorem modifyHead_after_nil (parts : List Section) : parts.modifyHead (.after []) = parts := by
  cases parts <;> rfl

theorem spelled_ended (shown : List Text) (clears : Bool) (rest : List Section) :
    spelled ((⟨[], clears⟩ :: rest).modifyHead (.after shown)) =
      Block.closeSection shown (if clears then ['\n'] else []) ++ spelled rest := by
  cases shown with
  | nil => rfl
  | cons first others => simp [spelled, Section.after, Section.text, Block.closeSection]

/-- Behind the texts that are held back, the sections of a note are those of the items that are
shown. -/
theorem noteSections_items (shown : List Text) (steps : List Instruction) :
    (Block.noteSections shown steps).1 =
      spelled ((cut (items steps)).modifyHead (.after shown)) := by
  have last : ∀ texts, Block.closeSection texts [] =
      spelled ((cut []).modifyHead (.after texts)) := by
    intro texts
    rw [cut, spelled_ended]
    exact (List.append_nil _).symm
  fun_induction Block.noteSections shown steps with
  | case1 shown => exact last shown
  | case2 shown text rest ih => rw [ih, items, cut, modifyHead_after]
  | case3 shown rest sections parent later ih =>
      rw [later, modifyHead_after_nil] at ih
      rw [items, cut, spelled_ended, ← ih]
      rfl
  | case4 shown rest other sections parent later ih =>
      rw [later, modifyHead_after_nil] at ih
      rw [items, cut, spelled_ended, ← ih]
      · rfl
      · exact other
  | case5 shown label rest => exact last shown
  | case6 shown step rest display pauseClear pause goto ih =>
      have unseen : cut (items (step :: rest)) = cut (items rest) := by
        cases step with
        | display text => exact absurd rfl (display text)
        | pause => exact absurd rfl pause
        | goto label => exact absurd rfl (goto label)
        | clear => rfl
        | define label => rfl
        | stop => rfl
        | menu title choices => rfl
        | other body => rfl
      rw [unseen, ih]

end Screen

namespace Block

theorem of_ofLines_note {first : Text} {rest : List Text} {content : Text} {parent : Option Label}
    (read : ofLines first rest = .note content parent) :
    Instruction.ofLine first = .clear ∧
      ofNote (rest.map Instruction.ofLine) = .note content parent := by
  rw [ofLines] at read
  split at read
  · cases read
  · rename_i clear _
    split at read
    · exact ⟨clear, read⟩
    · cases read
  · cases read
  · cases read

theorem classify_note {lines : List Text} {label : Label} {content : Text} {parent : Option Label}
    (read : classify lines = some (label, .note content parent)) :
    ∃ steps, lines.map Instruction.ofLine = .define label :: .clear :: steps ∧
      ofNote steps = .note content parent := by
  match lines with
  | [] => cases read
  | [head] => cases read
  | head :: first :: rest =>
      rw [classify] at read
      split at read
      · rename_i found defined
        obtain ⟨same, shape⟩ := Prod.mk.inj (Option.some.inj read)
        obtain ⟨clear, note⟩ := of_ofLines_note shape
        refine ⟨rest.map Instruction.ofLine, ?_, note⟩
        rw [List.map_cons, List.map_cons, defined, clear, same]
      · cases read

end Block

namespace Screen

/-- The two readers of a note agree. For lines that are taken for a note, the content that is read
is what the preview's items of the same lines spell. -/
theorem content_noteItems {lines : List Text} {label : Label} {text : Text}
    {parent : Option Label} (plain : ∀ line ∈ lines, Text.blank line = false ∧ Text.OneLine line)
    (read : Block.classify lines = some (label, .note text parent)) :
    content (noteItems (Text.join ['\n'] lines)) = text := by
  obtain ⟨steps, shape, note⟩ := Block.classify_note read
  have split : Text.lines (Text.join ['\n'] lines) = lines := by
    have some : lines ≠ [] := by
      intro none
      rw [none] at shape
      cases shape
    have final := plain _ (List.getLast_mem some)
    have shown : lines.getLast some ≠ [] := by
      intro empty
      rw [empty] at final
      cases final.1
    have whole := Text.lines_join shown final.2.1 fun line member =>
      (plain line (List.dropLast_subset _ member)).2
    rwa [List.dropLast_append_getLast] at whole
  have sections := noteSections_items [] steps
  rw [modifyHead_after_nil] at sections
  calc
    content (noteItems (Text.join ['\n'] lines)) = content (items steps) := by
      rw [noteItems, split, shape]
      rfl
    _ = Text.join ['\n', '\n'] (Block.noteSections [] steps).1 := by rw [content, sections]
    _ = text := (Block.note.inj note).1

/-- A note written by hand: a pause before the first text, screens cleared without a pause, a line
that is no instruction, a text without its last quote, two pauses in a row, and lines behind the
jump. -/
def handwritten : List Text :=
  ["Lbl AC".toList, " :ClrHome".toList, "Pause \"\"".toList, "ClrHome".toList,
    ":Disp \"one\"".toList, "ClrHome".toList, "Output(1,1".toList, ": Disp  \"two".toList,
    ":Pause \"\"".toList, ":Pause \"\"".toList, ":ClrHome".toList, "Disp \"three\"".toList,
    ":Pause \"\"".toList, ":ClrHome".toList, ":ClrHome".toList, "Disp \"four\"".toList,
    "Goto AA".toList, ":Disp \"five\"".toList]

theorem content_noteItems_handwritten :
    (∀ line ∈ handwritten, Text.blank line = false ∧ Text.OneLine line) ∧
      Block.classify handwritten =
        some (⟨2⟩, .note "one\ntwo\n\nthree\n\n\nfour".toList (some ⟨0⟩)) ∧
      content (noteItems (Text.join ['\n'] handwritten)) =
        "one\ntwo\n\nthree\n\n\nfour".toList := by
  have plain : ∀ line ∈ handwritten, Text.blank line = false ∧ Text.OneLine line := by
    decide +kernel
  have read : Block.classify handwritten =
      some (⟨2⟩, .note "one\ntwo\n\nthree\n\n\nfour".toList (some ⟨0⟩)) := by decide +kernel
  exact ⟨plain, read, content_noteItems plain read⟩

end Screen

end CalcApp
