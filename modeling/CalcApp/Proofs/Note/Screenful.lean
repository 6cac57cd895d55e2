import CalcApp.Proofs.Screen

namespace CalcApp

namespace Note

def Item.shown : Item → List Text
  | .lines held => held
  | _ => []

theorem Sheets.shown_items (sheets : Sheets) : sheets.items.flatMap Item.shown = sheets.lines := by
  induction sheets with
  | one lines => simp [items, Item.shown, Sheets.lines, Chain.pieces]
  | cons lines clears rest ih =>
      have none : Item.shown (if clears then .hardBreak else .pause) = [] := by
        cases clears <;> rfl
      rw [items, List.flatMap_cons, List.flatMap_cons, ih, none]
      rfl

theorem length_displayLines_le {width : Nat} {line part : Text}
    (member : part ∈ displayLines width line) : part.length ≤ width := by
  rw [displayLines] at member
  split at member
  · cases List.mem_singleton.mp member
    exact Nat.zero_le width
  · rw [wrap] at member
    split at member
    · cases List.mem_singleton.mp member
      exact Nat.zero_le width
    · have spaceless : ∀ word ∈ Text.split ' ' line, ' ' ∉ word := fun word listed =>
        Text.not_mem_of_mem_split listed
      exact (wrapWords_fits spaceless (.inl rfl) part member).length

theorem length_sheets_le {width : Nat} {text part : Text}
    (member : part ∈ (sheets width text).lines) : part.length ≤ width := by
  obtain ⟨line, _, inside⟩ := mem_lines_sheets member
  exact length_displayLines_le inside

end Note

namespace Instruction

def shown? : Instruction → Option Text
  | .display text => some text
  | _ => none

theorem mem_filterMap_shown? {steps : List Instruction} {text : Text} :
    text ∈ steps.filterMap shown? ↔ .display text ∈ steps := by
  rw [List.mem_filterMap]
  constructor
  · rintro ⟨step, member, shown⟩
    cases step with
    | display held =>
        cases shown
        exact member
    | _ => cases shown
  · intro member
    exact ⟨_, member, rfl⟩

end Instruction

theorem Note.Sheets.shown_steps (sheets : Sheets) :
    sheets.steps.filterMap Instruction.shown? = sheets.lines := by
  have displayed : ∀ lines : List Text,
      (lines.map Instruction.display).filterMap Instruction.shown? = lines := by
    intro lines
    rw [List.filterMap_map]
    exact List.filterMap_some
  induction sheets with
  | one lines => simp [steps, displayed, Sheets.lines, Chain.pieces]
  | cons lines clears rest ih =>
      have later : (.pause :: ((if clears then [.clear] else []) ++ steps rest)).filterMap
          Instruction.shown? = Sheets.lines rest := by
        rw [← ih]
        cases clears <;> rfl
      rw [steps, List.filterMap_append, displayed, later]
      rfl

theorem infix_of_not_mem {α : Type} {part front back : List α} {x : α}
    (inside : part <:+: front ++ x :: back) (absent : x ∉ part) :
    part <:+: front ∨ part <:+: back := by
  obtain ⟨before, after, same⟩ := inside
  rcases List.append_eq_append_iff.mp same with ⟨rest, split, _⟩ | ⟨rest, split, tail⟩
  · exact .inl ⟨before, rest, split.symm⟩
  · cases rest with
    | nil => exact .inl ⟨before, [], by simpa using split⟩
    | cons y later =>
        obtain ⟨rfl, rfl⟩ := List.cons.inj tail
        rcases List.append_eq_append_iff.mp split with ⟨gap, _, held⟩ | ⟨gap, _, held⟩
        · exact absurd (by simp [held]) absent
        · cases gap with
          | nil =>
              rw [List.nil_append] at held
              exact absurd (held ▸ .head _) absent
          | cons z gap =>
              obtain ⟨_, rfl⟩ := List.cons.inj held
              exact .inr ⟨gap, after, rfl⟩

namespace Page

def Short (bound : Nat) (steps : List Instruction) : Prop :=
  ∀ part, part <:+: steps → Instruction.pause ∉ part → part.countP Block.isDisplay ≤ bound

namespace Short

variable {bound : Nat} {front back : List Instruction}

theorem of_count (few : front.countP Block.isDisplay ≤ bound) : Short bound front :=
  fun _ inside _ => (inside.sublist.countP_le).trans few

theorem pause (first : Short bound front) (second : Short bound back) :
    Short bound (front ++ .pause :: back) := by
  intro part inside unpaused
  rcases infix_of_not_mem inside unpaused with before | after
  · exact first part before unpaused
  · exact second part after unpaused

theorem cons {step : Instruction} (other : Block.isDisplay step = false) (short : Short bound back) :
    Short bound (step :: back) := by
  intro part inside unpaused
  rcases List.infix_cons_iff.mp inside with start | later
  · cases part with
    | nil => exact Nat.zero_le bound
    | cons first rest =>
        obtain ⟨rfl, following⟩ := List.cons_prefix_cons.mp start
        rw [List.countP_cons_of_neg (by simp [other])]
        exact short rest following.isInfix fun held => unpaused (.tail _ held)
  · exact short part later unpaused

theorem steps {sheets : Note.Sheets} (short : ∀ lines ∈ sheets.pieces, lines.length ≤ bound) :
    Short bound sheets.steps := by
  have single : ∀ lines : List Text, lines.length ≤ bound →
      Short bound (lines.map Instruction.display) := by
    intro lines few
    apply of_count
    calc
      (lines.map Instruction.display).countP Block.isDisplay ≤
          (lines.map Instruction.display).length := List.countP_le_length
      _ = lines.length := List.length_map _
      _ ≤ bound := few
  induction sheets with
  | one lines => exact single lines (short lines (.head _))
  | cons lines clears rest ih =>
      have later := ih fun other member => short other (.tail _ member)
      apply (single lines (short lines (.head _))).pause
      cases clears with
      | true => exact later.cons rfl
      | false => exact later

end Short

theorem shown_noteSteps (settings : Settings) (content : Text) (parent : Label) :
    (noteSteps settings content parent).filterMap Instruction.shown? =
      (Note.sheets settings.charsPerLine content).lines := by
  calc
    _ = (Note.shown settings content).steps.filterMap Instruction.shown? ++ [] :=
      List.filterMap_append
    _ = (Note.shown settings content).lines := by rw [Note.Sheets.shown_steps, List.append_nil]
    _ = _ := Note.Sheets.lines_fit _ _

theorem short_noteSteps (settings : Settings) (content : Text) (parent : Label) :
    Short (max 1 settings.linesPerScreen) (noteSteps settings content parent) := by
  have ending : Short (max 1 settings.linesPerScreen) [Instruction.goto parent] :=
    .of_count (Nat.zero_le _)
  have body : Short (max 1 settings.linesPerScreen) (Note.shown settings content).steps :=
    .steps fun _ member => Note.Sheets.fit_bounds member
  exact body.pause ending

theorem read_note {program : Program} (settings : Settings)
    (same : program.linesPerScreen = settings.linesPerScreen) (label parent : Label)
    (content : Text) :
    (Text.lines (program.block label
        (.note (Note.paginate content settings.charsPerLine) parent))).map Instruction.ofLine =
      .define label :: .clear :: noteSteps settings content parent := by
  have define : Instruction.ofLine (Instruction.define label).line = .define label :=
    Instruction.ofLine_line trivial
  have clear : Instruction.ofLine Instruction.clear.line = .clear := Instruction.ofLine_line trivial
  have unbroken := unbroken_note settings program.quit parent content
  rw [← same] at unbroken
  rw [Program.lines_block label unbroken, writtenLines, same, instructions_note, List.map_cons,
    List.map_cons, List.map_cons, define, clear, ofLine_noteSteps]

/-- The page of a note fits the screen, whatever the note says and however small the screen is. Its
lines are written one instruction each; every text shown is one of the note's wrapped lines and no
wider than the screen, none is lost or shown twice, there is at least one, and no more than a screen
of them comes before the next pause. The page ends with a pause and the way back. -/
theorem note_fits_screen (program : Program) (label parent : Label) (content : Text)
    (charsPerLine : Nat) :
    ∃ steps,
      program.block label (.note (Note.paginate content charsPerLine) parent) =
        Text.join ['\n'] (steps.map Instruction.line) ∧
      (Text.lines (program.block label (.note (Note.paginate content charsPerLine) parent))).map
        Instruction.ofLine = steps ∧
      (∀ text, .display text ∈ steps → text.length ≤ charsPerLine) ∧
      Short (max 1 program.linesPerScreen) steps ∧
      steps.filterMap Instruction.shown? =
        (Note.paginate content charsPerLine).flatMap Note.Item.shown ∧
      (∃ text, .display text ∈ steps) ∧
      ∃ front, steps = front ++ [.pause, .goto parent] := by
  let settings : Settings := ⟨charsPerLine, program.linesPerScreen, 8⟩
  let steps := Instruction.define label :: .clear :: noteSteps settings content parent
  have shown : steps.filterMap Instruction.shown? = (Note.sheets charsPerLine content).lines :=
    shown_noteSteps settings content parent
  refine ⟨steps, ?_, read_note settings rfl label parent content, ?_, ?_, ?_, ?_, ?_⟩
  · have written := instructions_note settings program.quit parent content
    rw [Program.block, written]
  · intro text member
    rw [← Instruction.mem_filterMap_shown?, shown] at member
    exact Note.length_sheets_le member
  · exact ((short_noteSteps settings content parent).cons rfl).cons rfl
  · rw [shown, Note.paginate_eq, Note.Sheets.shown_items]
  · have some := Note.Sheets.lines_ne_nil (Note.sheets_filled charsPerLine content)
    obtain ⟨text, held⟩ := List.exists_mem_of_ne_nil _ some
    rw [← shown, Instruction.mem_filterMap_shown?] at held
    exact ⟨text, held⟩
  · exact ⟨.define label :: .clear :: (Note.shown settings content).steps, rfl⟩

end Page

end CalcApp
