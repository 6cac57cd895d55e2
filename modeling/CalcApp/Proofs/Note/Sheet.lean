import CalcApp.Listing
import CalcApp.Page
import CalcApp.Proofs.Note.Stretch
import CalcApp.Proofs.Note.Wrap

/-! The sheets of a note. Showing the items of a note fills sheets with lines, and the sections
that are read from what is shown are those sheets. -/

namespace CalcApp

namespace Chain

variable {α β : Type}

def join (gap : β) (back : Chain α β) : Chain α β → Chain α β
  | one piece => cons piece gap back
  | cons piece own rest => cons piece own (join gap back rest)

@[simp] theorem pieces_join (gap : β) (front back : Chain α β) :
    (join gap back front).pieces = front.pieces ++ back.pieces := by
  induction front with
  | one piece => rfl
  | cons piece own rest ih => simp [join, pieces, ih]

theorem pieces_ne_nil (chain : Chain α β) : chain.pieces ≠ [] := by
  cases chain <;> simp [pieces]

end Chain

namespace Note.Sheets

def steps : Sheets → List Instruction
  | .one lines => lines.map .display
  | .cons lines clears rest =>
    lines.map .display ++ .pause :: ((if clears then [.clear] else []) ++ steps rest)

def sections : Sheets → List Text
  | .one lines => Block.closeSection lines []
  | .cons lines clears rest =>
    Block.closeSection lines (if clears then ['\n'] else []) ++ sections rest

def content (sheets : Sheets) : Text := Text.join ['\n', '\n'] sheets.sections

def lines (sheets : Sheets) : List Text := sheets.pieces.flatten

theorem noteSections_display (shown lines : List Text) (rest : List Instruction) :
    Block.noteSections shown (lines.map .display ++ rest) =
      Block.noteSections (shown ++ lines) rest := by
  induction lines generalizing shown with
  | nil => simp
  | cons line others ih =>
      rw [List.map_cons, List.cons_append, Block.noteSections, ih]
      simp

theorem noteSections_pause (shown : List Text) {rest : List Instruction}
    (kept : rest.head? ≠ some .clear) :
    Block.noteSections shown (.pause :: rest) =
      (Block.closeSection shown [] ++ (Block.noteSections [] rest).1,
        (Block.noteSections [] rest).2) := by
  rw [Block.noteSections]
  rintro following rfl
  exact kept rfl

theorem steps_head (sheets : Sheets) (parent : Label) :
    (sheets.steps ++ [Instruction.pause, .goto parent]).head? ≠ some .clear := by
  cases sheets with
  | one lines => cases lines <;> simp [steps]
  | cons lines clears rest => cases lines <;> simp [steps]

theorem noteSections_steps (sheets : Sheets) (parent : Label) :
    Block.noteSections [] (sheets.steps ++ [.pause, .goto parent]) =
      (sheets.sections, some parent) := by
  induction sheets with
  | one lines =>
      rw [steps, noteSections_display, noteSections_pause _ (by simp)]
      simp [Block.noteSections, sections, Block.closeSection]
  | cons lines clears rest ih =>
      rw [steps, List.append_assoc, noteSections_display, List.cons_append]
      cases clears with
      | true =>
          rw [if_pos rfl, List.append_assoc, List.singleton_append, Block.noteSections, ih]
          rfl
      | false =>
          rw [if_neg (by simp), List.nil_append, List.nil_append,
            noteSections_pause _ (steps_head rest parent), ih]
          rfl

theorem steps_mapHead (line : Text) (sheets : Sheets) :
    steps (sheets.mapHead (line :: ·)) = .display line :: steps sheets := by
  cases sheets <;> rfl

theorem steps_join (clears : Bool) (front back : Sheets) :
    steps (Chain.join clears back front) =
      steps front ++ .pause :: ((if clears then [.clear] else []) ++ steps back) := by
  induction front with
  | one lines => rfl
  | cons lines own rest ih => simp [Chain.join, steps, ih]

def fill (linesPerScreen visible : Nat) : List Text → Sheets
  | [] => .one []
  | line :: rest =>
    if linesPerScreen ≤ visible then
      .cons [] false ((fill linesPerScreen 1 rest).mapHead (line :: ·))
    else (fill linesPerScreen (visible + 1) rest).mapHead (line :: ·)

/-- The sheets with those cut that have too many lines for the screen. -/
def fit (linesPerScreen : Nat) : Sheets → Sheets
  | .one lines => fill linesPerScreen 0 lines
  | .cons lines clears rest => Chain.join clears (fit linesPerScreen rest) (fill linesPerScreen 0 lines)

theorem showLines_eq (linesPerScreen visible : Nat) (lines : List Text) :
    (Page.showLines linesPerScreen visible lines).1 = steps (fill linesPerScreen visible lines) := by
  induction lines generalizing visible with
  | nil => rfl
  | cons line rest ih =>
      rw [Page.showLines, fill]
      split
      · have later := ih 1
        simp [steps, steps_mapHead, ← later]
      · have later := ih (visible + 1)
        simp [steps_mapHead, ← later]

theorem showItems_eq (linesPerScreen : Nat) (sheets : Sheets) :
    Page.showItems linesPerScreen 0 sheets.items = steps (fit linesPerScreen sheets) := by
  induction sheets with
  | one lines => simp [items, Page.showItems, fit, ← showLines_eq]
  | cons lines clears rest ih =>
      rw [items, fit, steps_join, ← ih, ← showLines_eq]
      cases clears <;> simp [Page.showItems]

theorem lines_fill (linesPerScreen visible : Nat) (lines : List Text) :
    (fill linesPerScreen visible lines).lines = lines := by
  induction lines generalizing visible with
  | nil => rfl
  | cons line rest ih =>
      have more := fun shown => Chain.pieces_ne_nil (fill linesPerScreen shown rest)
      rw [fill]
      split
      · have later := ih 1
        obtain ⟨first, others, shape⟩ := List.exists_cons_of_ne_nil (more 1)
        simp_all [Sheets.lines, Chain.pieces]
      · have later := ih (visible + 1)
        obtain ⟨first, others, shape⟩ := List.exists_cons_of_ne_nil (more (visible + 1))
        simp_all [Sheets.lines]

theorem lines_fit (linesPerScreen : Nat) (sheets : Sheets) :
    (fit linesPerScreen sheets).lines = sheets.lines := by
  induction sheets with
  | one lines => simpa [fit, Sheets.lines, Chain.pieces] using lines_fill linesPerScreen 0 lines
  | cons lines clears rest ih =>
      have first := lines_fill linesPerScreen 0 lines
      rw [fit]
      simp_all [Sheets.lines, Chain.pieces]

theorem fill_of_le {linesPerScreen visible : Nat} {lines : List Text}
    (room : visible + lines.length ≤ linesPerScreen) :
    fill linesPerScreen visible lines = .one lines := by
  induction lines generalizing visible with
  | nil => rfl
  | cons line rest ih =>
      rw [List.length_cons] at room
      rw [fill, if_neg (by omega), ih (by omega)]
      rfl

theorem fit_of_le {linesPerScreen : Nat} {sheets : Sheets}
    (room : ∀ lines ∈ sheets.pieces, lines.length ≤ linesPerScreen) :
    fit linesPerScreen sheets = sheets := by
  induction sheets with
  | one lines => exact fill_of_le (by simpa [Chain.pieces] using room)
  | cons lines clears rest ih =>
      have first := room lines (by simp [Chain.pieces])
      have later := ih fun other member => room other (by simp [Chain.pieces, member])
      rw [fit, fill_of_le (by omega), later]
      rfl

/-- Sheets are filled from their top, so that none has more lines than the screen; a screen without
lines still takes one. -/
theorem fill_bounds (linesPerScreen : Nat) (lines : List Text) (visible : Nat)
    (start : visible ≤ max 1 linesPerScreen) :
    ∃ first others, (fill linesPerScreen visible lines).pieces = first :: others ∧
      visible + first.length ≤ max 1 linesPerScreen ∧
      (visible < linesPerScreen → lines ≠ [] → first ≠ []) ∧
      ∀ sheet ∈ others, sheet ≠ [] ∧ sheet.length ≤ max 1 linesPerScreen := by
  induction lines generalizing visible with
  | nil => exact ⟨[], [], rfl, by simpa using start, by simp, by simp⟩
  | cons line rest ih =>
      rw [fill]
      split
      · rename_i full
        obtain ⟨first, others, shape, bound, _, later⟩ := ih 1 (Nat.le_max_left 1 _)
        refine ⟨[], (line :: first) :: others, by simp [Chain.pieces, shape], by simpa using start,
          fun room => by omega, ?_⟩
        intro sheet member
        rcases List.mem_cons.mp member with rfl | member
        · exact ⟨by simp, by rw [List.length_cons]; omega⟩
        · exact later sheet member
      · obtain ⟨first, others, shape, bound, _, later⟩ := ih (visible + 1) (by omega)
        refine ⟨line :: first, others, by simp [shape], ?_, by simp, later⟩
        rw [List.length_cons]
        omega

theorem mem_pieces_fit {linesPerScreen : Nat} {sheets : Sheets} {sheet : List Text}
    (member : sheet ∈ (fit linesPerScreen sheets).pieces) :
    ∃ lines ∈ sheets.pieces, sheet ∈ (fill linesPerScreen 0 lines).pieces := by
  induction sheets with
  | one lines => exact ⟨lines, .head _, member⟩
  | cons lines clears rest ih =>
      rw [fit, Chain.pieces_join] at member
      rcases List.mem_append.mp member with first | later
      · exact ⟨lines, .head _, first⟩
      · obtain ⟨others, listed, inside⟩ := ih later
        exact ⟨others, .tail _ listed, inside⟩

theorem fit_bounds {linesPerScreen : Nat} {sheets : Sheets} {sheet : List Text}
    (member : sheet ∈ (fit linesPerScreen sheets).pieces) :
    sheet.length ≤ max 1 linesPerScreen := by
  obtain ⟨lines, _, inside⟩ := mem_pieces_fit member
  obtain ⟨first, others, shape, bound, _, later⟩ :=
    fill_bounds linesPerScreen lines 0 (Nat.zero_le _)
  rw [shape] at inside
  rcases List.mem_cons.mp inside with rfl | rest
  · omega
  · exact (later sheet rest).2

theorem fit_filled {linesPerScreen : Nat} (tall : 1 ≤ linesPerScreen) {sheets : Sheets}
    (filled : ∀ lines ∈ sheets.pieces, lines ≠ []) :
    ∀ sheet ∈ (fit linesPerScreen sheets).pieces, sheet ≠ [] := by
  intro sheet member
  obtain ⟨lines, listed, inside⟩ := mem_pieces_fit member
  obtain ⟨first, others, shape, _, start, later⟩ :=
    fill_bounds linesPerScreen lines 0 (Nat.zero_le _)
  rw [shape] at inside
  rcases List.mem_cons.mp inside with rfl | rest
  · exact start (by omega) (filled lines listed)
  · exact (later sheet rest).1

end Note.Sheets

end CalcApp
