import CalcApp.Program
import CalcApp.Listing
import CalcApp.Proofs.Code
import CalcApp.Proofs.Instruction
import CalcApp.Proofs.Note.Stable

namespace CalcApp

namespace Page

def writtenLines (exit : Label) (linesPerScreen : Nat) (page : Page) : List Text :=
  (page.instructions exit linesPerScreen).map Instruction.line

def readBack (exit : Label) (linesPerScreen : Nat) (page : Page) : Block :=
  match page.writtenLines exit linesPerScreen with
  | [] => .quit
  | first :: rest => Block.ofLines first rest

def AllTexts (p : Text → Prop) (exit : Label) (linesPerScreen : Nat) (page : Page) : Prop :=
  ∀ instruction ∈ page.instructions exit linesPerScreen, ∀ text ∈ instruction.texts, p text

def Unbroken (exit : Label) (linesPerScreen : Nat) (page : Page) : Prop :=
  page.AllTexts Text.OneLine exit linesPerScreen

theorem writtenLines_ne_nil (exit : Label) (linesPerScreen : Nat) (page : Page) :
    page.writtenLines exit linesPerScreen ≠ [] := by
  cases page <;> simp [writtenLines, instructions]

def listed (choices : List Choice) : List Choice :=
  choices.filter fun choice =>
    !decide (choice.name = "Back".toList) && !decide (choice.name = "Quit".toList)

def returning (choices : List Choice) : List Choice :=
  choices.filter fun choice => decide (choice.name = "Back".toList)

theorem listed_cons (choice : Choice) (rest : List Choice) :
    listed (choice :: rest) =
      if choice.name ≠ "Back".toList ∧ choice.name ≠ "Quit".toList then choice :: listed rest
      else listed rest := by
  simp only [listed, List.filter_cons, Bool.and_eq_true, Bool.not_eq_true', decide_eq_false_iff_not]

theorem listed_eq_self {entries : List Choice}
    (inside : ∀ entry ∈ entries, entry.name ≠ "Back".toList ∧ entry.name ≠ "Quit".toList) :
    listed entries = entries := by
  rw [listed, List.filter_eq_self]
  intro entry member
  rw [decide_eq_false (inside entry member).1, decide_eq_false (inside entry member).2]
  rfl

theorem returning_eq_nil {entries : List Choice}
    (inside : ∀ entry ∈ entries, entry.name ≠ "Back".toList) : returning entries = [] := by
  rw [returning, List.filter_eq_nil_iff]
  intro entry member
  rw [decide_eq_false (inside entry member)]
  exact Bool.false_ne_true

/-- The way out of a menu is no entry of it. A way back is the last one, whatever the entries are
named, but the way to the quit page leaves room for an entry that is read as a way back. -/
theorem ofMenu_wayOut (title : Text) (entries : List Choice) (exit : Label) (parent : Option Label) :
    Block.ofMenu title (entries ++ [wayOut exit parent]) =
      .menu title (listed entries) (parent.or ((returning entries).getLast?.map Choice.target)) := by
  show Block.menu title (listed (entries ++ [wayOut exit parent]))
    ((returning (entries ++ [wayOut exit parent])).getLast?.map Choice.target) = _
  rw [listed, listed, returning, returning, List.filter_append, List.filter_append]
  cases parent <;> simp [wayOut]

theorem readBack_choices {title : Text} {entries : List Choice} (exit : Label) (linesPerScreen : Nat)
    (parent : Option Label) (heading : '"' ∉ title)
    (quotable : ∀ entry ∈ entries, '"' ∉ entry.name) :
    readBack exit linesPerScreen (.menu title entries parent) =
      .menu title (listed entries) (parent.or ((returning entries).getLast?.map Choice.target)) := by
  have names : ∀ entry ∈ entries ++ [wayOut exit parent], '"' ∉ entry.name := by
    intro entry member
    rcases List.mem_append.mp member with listed | out
    · exact quotable entry listed
    · cases List.mem_singleton.mp out
      cases parent <;> simp [wayOut]
  have head : Instruction.ofLine Instruction.clear.line = .clear := Instruction.ofLine_line trivial
  have call : Instruction.ofLine (Instruction.menu title (entries ++ [wayOut exit parent])).line =
      .menu title (entries ++ [wayOut exit parent]) := Instruction.ofLine_line ⟨heading, names⟩
  show Block.ofLines Instruction.clear.line
    [(Instruction.menu title (entries ++ [wayOut exit parent])).line] = _
  rw [Block.ofLines, head, List.map_cons, call]
  exact ofMenu_wayOut title entries exit parent

theorem readBack_menu {title : Text} {entries : List Choice} (exit : Label) (linesPerScreen : Nat)
    (parent : Option Label) (heading : '"' ∉ title)
    (quotable : ∀ entry ∈ entries, '"' ∉ entry.name)
    (inside : ∀ entry ∈ entries, entry.name ≠ "Back".toList ∧ entry.name ≠ "Quit".toList) :
    readBack exit linesPerScreen (.menu title entries parent) = .menu title entries parent := by
  rw [readBack_choices exit linesPerScreen parent heading quotable, listed_eq_self inside,
    returning_eq_nil fun entry member => (inside entry member).1]
  cases parent <;> rfl

theorem allTexts_menu {p : Text → Prop} (plain : ∀ text, Text.OneLine text → p text)
    {title : Text} {entries : List Choice} (exit : Label) (linesPerScreen : Nat)
    (parent : Option Label) (heading : p title) (names : ∀ entry ∈ entries, p entry.name) :
    AllTexts p exit linesPerScreen (.menu title entries parent) := by
  have out : p (wayOut exit parent).name := by
    apply plain
    cases parent
    · show Text.OneLine "Quit".toList
      decide
    · show Text.OneLine "Back".toList
      decide
  intro instruction member text inside
  simp only [instructions, List.mem_cons, List.not_mem_nil, or_false] at member
  rcases member with rfl | rfl
  · cases inside
  · rcases List.mem_cons.mp inside with rfl | named
    · exact heading
    · obtain ⟨entry, listed, rfl⟩ := List.mem_map.mp named
      rcases List.mem_append.mp listed with held | last
      · exact names entry held
      · cases List.mem_singleton.mp last
        exact out

theorem any_isDisplay {sheets : Note.Sheets} (some : sheets.lines ≠ []) :
    sheets.steps.any Block.isDisplay = true := by
  induction sheets with
  | one lines =>
      obtain ⟨line, others, rfl⟩ := List.exists_cons_of_ne_nil (show lines ≠ [] by
        simpa [Note.Sheets.lines, Chain.pieces] using some)
      simp [Note.Sheets.steps, Block.isDisplay]
  | cons lines clears rest ih =>
      cases lines with
      | nil =>
          have later := ih (by simpa [Note.Sheets.lines, Chain.pieces] using some)
          simp [Note.Sheets.steps, later]
      | cons line others => simp [Note.Sheets.steps, Block.isDisplay]

theorem mem_steps {sheets : Note.Sheets} {step : Instruction} (member : step ∈ sheets.steps) :
    (∃ line ∈ sheets.lines, step = .display line) ∨ step = .pause ∨ step = .clear := by
  induction sheets with
  | one lines =>
      obtain ⟨line, listed, rfl⟩ := List.mem_map.mp member
      exact .inl ⟨line, by simpa [Note.Sheets.lines, Chain.pieces] using listed, rfl⟩
  | cons lines clears rest ih =>
      rw [Note.Sheets.steps, List.mem_append, List.mem_cons, List.mem_append] at member
      rcases member with first | pause | clear | later
      · obtain ⟨line, listed, rfl⟩ := List.mem_map.mp first
        exact .inl ⟨line, List.mem_append_left _ listed, rfl⟩
      · exact .inr (.inl pause)
      · cases clears with
        | true => exact .inr (.inr (List.mem_singleton.mp clear))
        | false => cases clear
      · rcases ih later with ⟨line, listed, rfl⟩ | other
        · exact .inl ⟨line, List.mem_append_right _ listed, rfl⟩
        · exact .inr other

theorem ofLines_note {first : Text} {rest : List Text} {steps : List Instruction}
    (clear : Instruction.ofLine first = .clear) (read : rest.map Instruction.ofLine = steps)
    (other : ∀ title choices following, steps ≠ .menu title choices :: following)
    (display : steps.any Block.isDisplay = true) : Block.ofLines first rest = Block.ofNote steps := by
  rw [Block.ofLines, clear, read]
  split
  · exact absurd rfl (other _ _ _)
  · rw [if_pos display]
  all_goals simp_all

def noteSteps (settings : Settings) (content : Text) (parent : Label) : List Instruction :=
  (Note.shown settings content).steps ++ [.pause, .goto parent]

theorem instructions_note (settings : Settings) (exit parent : Label) (content : Text) :
    instructions exit settings.linesPerScreen
        (.note (Note.paginate content settings.charsPerLine) parent) =
      .clear :: noteSteps settings content parent := by
  rw [instructions, Note.showItems_paginate]
  rfl

theorem mem_noteSteps {settings : Settings} {content : Text} {parent : Label} {step : Instruction}
    (member : step ∈ noteSteps settings content parent) :
    (∃ line ∈ (Note.shown settings content).lines, step = .display line) ∨ step = .pause ∨
      step = .clear ∨ step = .goto parent := by
  rcases List.mem_append.mp member with inside | final
  · rcases mem_steps inside with display | pause | clear
    · exact .inl display
    · exact .inr (.inl pause)
    · exact .inr (.inr (.inl clear))
  · simp only [List.mem_cons, List.not_mem_nil, or_false] at final
    rcases final with pause | goto
    · exact .inr (.inl pause)
    · exact .inr (.inr (.inr goto))

theorem unbroken_note (settings : Settings) (exit parent : Label) (content : Text) :
    Unbroken exit settings.linesPerScreen
      (.note (Note.paginate content settings.charsPerLine) parent) := by
  intro instruction member text inside
  rw [instructions_note] at member
  rcases List.mem_cons.mp member with rfl | member
  · cases inside
  · rcases mem_noteSteps member with ⟨line, listed, rfl⟩ | rfl | rfl | rfl
    · cases List.mem_singleton.mp inside
      rw [Note.shown, Note.Sheets.lines_fit] at listed
      exact Note.sheets_plain _ _ _ listed
    all_goals cases inside

theorem ofLine_noteSteps (settings : Settings) (content : Text) (parent : Label) :
    ((noteSteps settings content parent).map Instruction.line).map Instruction.ofLine =
      noteSteps settings content parent := by
  have read : ∀ step ∈ noteSteps settings content parent,
      (Instruction.ofLine ∘ Instruction.line) step = id step := by
    intro step member
    apply Instruction.ofLine_line
    rcases mem_noteSteps member with ⟨line, _, rfl⟩ | rfl | rfl | rfl <;> trivial
  rw [List.map_map, List.map_congr_left read, List.map_id]

theorem readBack_note (settings : Settings) (exit parent : Label) (content : Text) :
    readBack exit settings.linesPerScreen
        (.note (Note.paginate content settings.charsPerLine) parent) =
      .note (Note.reread settings content) (some parent) := by
  have head : Instruction.ofLine Instruction.clear.line = .clear := Instruction.ofLine_line trivial
  have some : (Note.shown settings content).lines ≠ [] := by
    rw [Note.shown, Note.Sheets.lines_fit]
    exact Note.Sheets.lines_ne_nil (Note.sheets_filled _ _)
  rw [readBack, writtenLines, instructions_note, List.map_cons]
  show Block.ofLines _ _ = _
  rw [ofLines_note head (ofLine_noteSteps settings content parent)]
  · rw [Block.ofNote, noteSteps, Note.Sheets.noteSections_steps]
    rfl
  · intro title choices following same
    have first : Instruction.menu title choices ∈ noteSteps settings content parent := by
      rw [same]
      exact List.mem_cons_self ..
    rcases mem_noteSteps first with ⟨line, _, other⟩ | other | other | other <;> cases other
  · rw [noteSteps, List.any_append, any_isDisplay some, Bool.true_or]

theorem ofLines_code {first : Text} {rest : List Text} (running : Instruction.ofLine first ≠ .stop)
    (other : Instruction.ofLine first = .clear →
      (∀ title choices following, rest.map Instruction.ofLine ≠ .menu title choices :: following) ∧
        (rest.map Instruction.ofLine).any Block.isDisplay = false) :
    Block.ofLines first rest = Block.ofCode (first :: rest) := by
  rw [Block.ofLines]
  split
  · rename_i clear call
    exact absurd call ((other clear).1 _ _ _)
  · rename_i clear _
    rw [(other clear).2]
    rfl
  · rename_i stop
    exact absurd stop running
  · rfl

theorem of_ofLines_code {first : Text} {rest : List Text} {content : Text} {parent : Option Label}
    (read : Block.ofLines first rest = .code content parent) :
    Instruction.ofLine first ≠ .stop ∧
      (Instruction.ofLine first = .clear →
        (∀ title choices following,
          rest.map Instruction.ofLine ≠ .menu title choices :: following) ∧
        (rest.map Instruction.ofLine).any Block.isDisplay = false) := by
  rw [Block.ofLines] at read
  split at read
  · cases read
  · rename_i clear other
    split at read
    · cases read
    · rename_i hidden
      refine ⟨by simp [clear], fun _ => ⟨?_, by simpa using hidden⟩⟩
      intro title choices following call
      exact other title choices following call
  · cases read
  · rename_i clear stop _
    exact ⟨stop, fun same => absurd same clear⟩

theorem ofCode_goto (bodies : List Text) (parent : Label) :
    ∃ back, Block.ofCode (bodies.map (':' :: ·) ++ [(Instruction.goto parent).line]) =
      .code (Text.join ['\n'] bodies) back := by
  have jump : Instruction.ofLine (Instruction.goto parent).line = .goto parent :=
    Instruction.ofLine_line trivial
  have last : ((bodies.map (':' :: ·) ++ [(Instruction.goto parent).line]).map
      Instruction.ofLine).getLast? = some (.goto parent) := by
    rw [List.map_append, List.map_singleton, jump, List.getLast?_concat]
  have bare : ((bodies.map (':' :: ·) ++ [(Instruction.goto parent).line]).dropLast).map
      Instruction.dropColon = bodies := by
    rw [List.dropLast_concat, List.map_map]
    exact List.map_id bodies
  rw [Block.ofCode, last]
  show ∃ back, Block.code (Text.join ['\n'] (List.map Instruction.dropColon (List.dropLast _))) _ = _
  rw [bare]
  exact ⟨_, rfl⟩

theorem spells_of_ofLine {body : Text} {instruction : Instruction}
    (read : Instruction.ofLine (':' :: body) = instruction) :
    Instruction.Spells (Text.trim body) instruction := by
  rw [← read, Instruction.ofLine_colon]
  exact Instruction.spells_ofBody _

theorem ofLines_bodies {bodies : List Text} (recognizable : Code.Recognizable bodies) (parent : Label)
    {first : Text} {rest : List Text}
    (shape : bodies.map (':' :: ·) ++ [(Instruction.goto parent).line] = first :: rest) :
    Block.ofLines first rest = Block.ofCode (first :: rest) := by
  have jump : Instruction.ofLine (Instruction.goto parent).line = .goto parent :=
    Instruction.ofLine_line trivial
  cases bodies with
  | nil =>
      obtain ⟨rfl, rfl⟩ := List.cons.inj shape
      apply ofLines_code <;> simp [jump]
  | cons body others =>
      obtain ⟨rfl, rfl⟩ := List.cons.inj shape
      apply ofLines_code
      · exact fun stop => recognizable.1 (spells_of_ofLine stop)
      · intro clear
        obtain ⟨second, shown⟩ := recognizable.2 (spells_of_ofLine clear)
        constructor
        · intro title choices following call
          cases others with
          | nil => simp [jump] at call
          | cons next more => exact spells_of_ofLine (List.cons.inj call).1 (second next rfl)
        · rw [List.any_eq_false]
          intro step member display
          obtain ⟨line, listed, read⟩ := List.mem_map.mp member
          rcases List.mem_append.mp listed with inside | final
          · obtain ⟨text, held, rfl⟩ := List.mem_map.mp inside
            have spelled := spells_of_ofLine read
            cases step with
            | display _ => exact spelled (shown text held)
            | _ => cases display
          · cases List.mem_singleton.mp final
            rw [← read, jump] at display
            cases display

theorem codeSteps_split (content : Text) :
    codeSteps (Text.split '\n' (Text.unifyNewlines content)) =
      (Code.lines content).map Instruction.other := by
  rw [codeSteps, Code.lines, List.map_map]
  rfl

theorem writtenLines_code (exit : Label) (linesPerScreen : Nat) (content : Text) (parent : Label) :
    writtenLines exit linesPerScreen
        (.code (Text.split '\n' (Text.unifyNewlines content)) parent) =
      (Code.lines content).map (':' :: ·) ++ [(Instruction.goto parent).line] := by
  rw [writtenLines, instructions, codeSteps_split, List.map_append, List.map_map]
  rfl

theorem unbroken_code (exit : Label) (linesPerScreen : Nat) (content : Text) (parent : Label) :
    Unbroken exit linesPerScreen (.code (Text.split '\n' (Text.unifyNewlines content)) parent) := by
  intro instruction member text inside
  rw [instructions, codeSteps_split, List.mem_append] at member
  rcases member with body | last
  · obtain ⟨line, listed, rfl⟩ := List.mem_map.mp body
    cases List.mem_singleton.mp inside
    exact Code.oneLine_lines content _ listed
  · cases List.mem_singleton.mp last
    cases inside

theorem readBack_code {content : Text} (exit : Label) (linesPerScreen : Nat) (parent : Label)
    (recognizable : Code.Recognizable (Code.lines content)) :
    ∃ back, readBack exit linesPerScreen
        (.code (Text.split '\n' (Text.unifyNewlines content)) parent) =
      .code (Code.reread content) back := by
  have shape := writtenLines_code exit linesPerScreen content parent
  obtain ⟨first, rest, whole⟩ := List.exists_cons_of_ne_nil (writtenLines_ne_nil exit linesPerScreen
    (.code (Text.split '\n' (Text.unifyNewlines content)) parent))
  obtain ⟨back, read⟩ := ofCode_goto (Code.lines content) parent
  refine ⟨back, ?_⟩
  calc
    _ = Block.ofLines first rest := by rw [readBack, whole]
    _ = Block.ofCode (first :: rest) := ofLines_bodies recognizable parent (shape ▸ whole)
    _ = Block.ofCode ((Code.lines content).map (':' :: ·) ++ [(Instruction.goto parent).line]) := by
      rw [← whole, shape]
    _ = .code (Code.reread content) back := read

theorem recognizable_of_readBack {content text : Text} {exit parent : Label} {linesPerScreen : Nat}
    {back : Option Label}
    (read : readBack exit linesPerScreen
      (.code (Text.split '\n' (Text.unifyNewlines content)) parent) = .code text back) :
    Code.Recognizable (Code.lines content) := by
  rw [readBack, writtenLines_code] at read
  cases bodies : Code.lines content with
  | nil => trivial
  | cons body others =>
      rw [bodies, List.map_cons, List.cons_append] at read
      obtain ⟨running, other⟩ := of_ofLines_code read
      rw [Instruction.ofLine_colon] at running other
      constructor
      · intro stop
        exact running (by rw [stop]; rfl)
      · intro clear
        obtain ⟨uncalled, hidden⟩ := other (by rw [clear]; rfl)
        constructor
        · intro second next
          obtain ⟨more, rfl⟩ : ∃ more, others = second :: more := by
            cases others with
            | nil => cases next
            | cons line more => exact ⟨more, by rw [Option.some.inj next]⟩
          apply Option.eq_none_iff_forall_ne_some.mpr
          intro instruction found
          obtain ⟨title, written, rfl⟩ := Instruction.menu?_isMenu found
          apply uncalled title written
          rw [List.map_cons, List.cons_append, List.map_cons, Instruction.ofLine_colon,
            Instruction.ofBody_of_menu? found]
        · intro line member
          apply Option.eq_none_iff_forall_ne_some.mpr
          intro instruction found
          obtain ⟨shown, rfl⟩ := Instruction.display?_isDisplay found
          rw [List.any_eq_false] at hidden
          apply hidden (.display shown) _ rfl
          rw [← Instruction.ofBody_of_display? found, ← Instruction.ofLine_colon]
          apply List.mem_map_of_mem
          exact List.mem_append_left _ (List.mem_map_of_mem member)

end Page

end CalcApp
