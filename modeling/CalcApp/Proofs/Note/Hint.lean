import CalcApp.Proofs.Note.Screenful
import CalcApp.Proofs.Note.Stable
import Mathlib.Algebra.Ring.Nat

/-! The pauses of a full screen and the hints that announce them. A note is shown row by row with
the number of the content line that each row comes from. The hints count whole content lines: they
start again at zero after a line that fills the screen, also if that line goes on below the pause.
The rows it carries over are then missing in the count, and the next pause is announced only if its
own line carries over as many. -/

namespace CalcApp.Note

/-- What stands at a place of a note's page: a row of the content line with a number, a pause since
the screen is full, or a break that the content asks for. -/
inductive Mark where
  | shows (number : Nat) (text : Text)
  | fills
  | breaks (clears : Bool)
  deriving DecidableEq

def Mark.steps : Mark → List Instruction
  | .shows _ text => [.display text]
  | .fills => [.pause]
  | .breaks clears => .pause :: if clears then [.clear] else []

def rows (width number : Nat) : List Text → List (Nat × Text)
  | [] => []
  | line :: rest =>
    (displayLines width line).map (number, ·) ++ rows width (number + 1) rest

def markRows (height visible : Nat) : List (Nat × Text) → List Mark
  | [] => []
  | (number, text) :: rest =>
    if height ≤ visible then .fills :: .shows number text :: markRows height 1 rest
    else .shows number text :: markRows height (visible + 1) rest

/-- The page of stretches from the content line with the number `number` on. The number of a line is
that of the newlines before it. -/
def marksFrom (settings : Settings) (number : Nat) : Chain Text Nat → List Mark
  | .one stretch =>
    markRows settings.linesPerScreen 0
      (rows settings.charsPerLine number (Text.split '\n' stretch))
  | .cons stretch run rest =>
    markRows settings.linesPerScreen 0
        (rows settings.charsPerLine number (Text.split '\n' stretch)) ++
      .breaks (decide (3 ≤ run)) :: marksFrom settings (number + stretch.count '\n' + run) rest

def marks (settings : Settings) (content : Text) : List Mark :=
  marksFrom settings 0 (stretches (Text.unifyNewlines content))

/-- The screen is full right after a row of the content line `number`, and goes on after a pause. -/
def PausesAfter (marks : List Mark) (number : Nat) : Prop :=
  ∃ text, [.shows number text, .fills] <:+: marks

theorem rows_snd (width number : Nat) (lines : List Text) :
    (rows width number lines).map Prod.snd = lines.flatMap (displayLines width) := by
  induction lines generalizing number with
  | nil => rfl
  | cons line rest ih =>
      rw [rows, List.map_append, List.map_map, ih, List.flatMap_cons]
      congr 1
      exact List.map_id _

theorem steps_markRows (height visible : Nat) (shown : List (Nat × Text)) :
    (markRows height visible shown).flatMap Mark.steps =
      (Page.showLines height visible (shown.map Prod.snd)).1 := by
  induction shown generalizing visible with
  | nil => rfl
  | cons row rest ih =>
      obtain ⟨number, text⟩ := row
      rw [markRows, List.map_cons, Page.showLines]
      split
      · rw [List.flatMap_cons, List.flatMap_cons, ih]
        rfl
      · rw [List.flatMap_cons, ih]
        rfl

theorem steps_marksFrom (settings : Settings) (number : Nat) (chain : Chain Text Nat) :
    (marksFrom settings number chain).flatMap Mark.steps =
      Sheets.steps (Sheets.fit settings.linesPerScreen
        (chain.map (groupLines settings.charsPerLine) fun run => decide (3 ≤ run))) := by
  have stretch : ∀ number piece, (markRows settings.linesPerScreen 0
      (rows settings.charsPerLine number (Text.split '\n' piece))).flatMap Mark.steps =
      Sheets.steps (Sheets.fill settings.linesPerScreen 0
        (groupLines settings.charsPerLine piece)) := by
    intro number piece
    rw [steps_markRows, rows_snd, Sheets.showLines_eq]
    rfl
  induction chain generalizing number with
  | one piece => exact stretch number piece
  | cons piece run rest ih =>
      rw [marksFrom, List.flatMap_append, stretch, List.flatMap_cons, ih, Chain.map, Sheets.fit,
        Sheets.steps_join]
      rfl

theorem steps_marks (settings : Settings) (content : Text) :
    (marks settings content).flatMap Mark.steps =
      Page.showItems settings.linesPerScreen 0 (paginate content settings.charsPerLine) := by
  rw [paginate_eq, Sheets.showItems_eq]
  exact steps_marksFrom settings 0 _

theorem mem_rows {width number place : Nat} {text : Text} {lines : List Text}
    (member : (place, text) ∈ rows width number lines) :
    ∃ i line, place = number + i ∧ lines[i]? = some line ∧ text ∈ displayLines width line := by
  induction lines generalizing number with
  | nil => cases member
  | cons line rest ih =>
      rcases List.mem_append.mp member with own | later
      · obtain ⟨_, inside, same⟩ := List.mem_map.mp own
        cases same
        exact ⟨0, line, rfl, rfl, inside⟩
      · obtain ⟨i, other, rfl, held, inside⟩ := ih later
        exact ⟨i + 1, other, by omega, held, inside⟩

theorem mem_of_shows {height visible number : Nat} {text : Text} {shown : List (Nat × Text)}
    (member : .shows number text ∈ markRows height visible shown) : (number, text) ∈ shown := by
  induction shown generalizing visible with
  | nil => cases member
  | cons row rest ih =>
      obtain ⟨first, line⟩ := row
      rw [markRows] at member
      split at member
      · simp only [List.mem_cons, reduceCtorEq, Mark.shows.injEq, false_or] at member
        rcases member with ⟨rfl, rfl⟩ | later
        · exact .head _
        · exact .tail _ (ih later)
      · simp only [List.mem_cons, Mark.shows.injEq] at member
        rcases member with ⟨rfl, rfl⟩ | later
        · exact .head _
        · exact .tail _ (ih later)

theorem length_split (separator : Char) (text : Text) :
    (Text.split separator text).length = text.count separator + 1 := by
  induction text with
  | nil => rfl
  | cons c rest ih =>
      rw [Text.split]
      split
      · rename_i same
        rw [List.length_cons, ih, same, List.count_cons_self]
      · rename_i other
        rw [List.length_modifyHead, ih, List.count_cons_of_ne other]

theorem shows_marksFrom {settings : Settings} {number place : Nat} {text : Text}
    {chain : Chain Text Nat} (runs : ∀ run ∈ chain.gaps, 2 ≤ run)
    (member : .shows place text ∈ marksFrom settings number chain) :
    ∃ i line, place = number + i ∧ (Text.split '\n' (weave chain))[i]? = some line ∧
      text ∈ displayLines settings.charsPerLine line := by
  induction chain generalizing number with
  | one stretch => exact mem_rows (mem_of_shows member)
  | cons stretch run rest ih =>
      have long := runs run (.head _)
      obtain ⟨more, rfl⟩ : ∃ more, run = more + 1 := ⟨run - 1, by omega⟩
      have width := length_split '\n' stretch
      rw [split_weave_cons]
      rcases List.mem_append.mp member with own | later
      · obtain ⟨i, line, rfl, held, inside⟩ := mem_rows (mem_of_shows own)
        have bound := (List.getElem?_eq_some_iff.mp held).1
        exact ⟨i, line, rfl, by rw [List.getElem?_append_left bound, held], inside⟩
      · simp only [List.mem_cons, reduceCtorEq, false_or] at later
        obtain ⟨i, line, rfl, held, inside⟩ :=
          ih (fun other listed => runs other (.tail _ listed)) later
        refine ⟨stretch.count '\n' + (more + 1) + i, line, by omega, ?_, inside⟩
        rw [List.getElem?_append_right (by omega), List.getElem?_append_right (by simp; omega),
          ← held]
        congr 1
        simp
        omega

theorem not_pausesAfter_nil (number : Nat) : ¬ PausesAfter [] number := by
  rintro ⟨text, inside⟩
  cases List.infix_nil.mp inside

theorem pausesAfter_fills {rest : List Mark} {number : Nat} :
    PausesAfter (.fills :: rest) number ↔ PausesAfter rest number := by
  simp [PausesAfter, List.infix_cons_iff]

theorem pausesAfter_shows {rest : List Mark} {number first : Nat} {text : Text} :
    PausesAfter (.shows first text :: rest) number ↔
      number = first ∧ rest.head? = some .fills ∨ PausesAfter rest number := by
  cases rest with
  | nil => simp [PausesAfter, List.infix_cons_iff]
  | cons next rest => simp [PausesAfter, List.infix_cons_iff, exists_or, eq_comm]

theorem pausesAfter_breaks {front back : List Mark} {clears : Bool} {number : Nat} :
    PausesAfter (front ++ .breaks clears :: back) number ↔
      PausesAfter front number ∨ PausesAfter back number := by
  constructor
  · rintro ⟨text, inside⟩
    rcases infix_of_not_mem inside (by simp) with before | after
    · exact .inl ⟨text, before⟩
    · exact .inr ⟨text, after⟩
  · rintro (⟨text, inside⟩ | ⟨text, inside⟩)
    · exact ⟨text, inside.trans (List.prefix_append _ _).isInfix⟩
    · exact ⟨text, inside.trans ⟨front ++ [.breaks clears], [], by simp⟩⟩

section Screen

variable {height visible : Nat}

theorem head?_markRows (room : visible < height) (shown : List (Nat × Text)) :
    (markRows height visible shown).head? ≠ some .fills := by
  cases shown with
  | nil => simp [markRows]
  | cons row rest => simp [markRows, Nat.not_le.mpr room]

theorem markRows_full (tall : 0 < height) {shown : List (Nat × Text)} (more : shown ≠ []) :
    markRows height height shown = .fills :: markRows height 0 shown := by
  cases shown with
  | nil => exact absurd rfl more
  | cons row rest => simp [markRows, Nat.not_le.mpr tall]

/-- A line that starts below `visible` rows is followed by a pause in it or right after it if its
rows fill the screen and there is more to show. The rows of later lines then start below those that
are left of it. -/
theorem pausesAfter_line (room : visible < height) (number : Nat) (texts : List Text)
    (later : List (Nat × Text)) {place : Nat} :
    PausesAfter (markRows height visible (texts.map (number, ·) ++ later)) place ↔
      (place = number ∧ height ≤ visible + texts.length ∧
        height < visible + texts.length + later.length) ∨
      PausesAfter (markRows height ((visible + texts.length) % height) later) place := by
  induction texts generalizing visible with
  | nil => simp [Nat.mod_eq_of_lt room, Nat.not_le.mpr room]
  | cons text texts ih =>
      rw [List.map_cons, List.cons_append, markRows, if_neg (Nat.not_le.mpr room),
        pausesAfter_shows, List.length_cons]
      by_cases full : visible + 1 = height
      · have total : visible + (texts.length + 1) = height + texts.length := by omega
        rw [total, Nat.add_mod_left, full]
        by_cases none : texts.map (number, ·) ++ later = []
        · obtain ⟨own, rfl⟩ := List.append_eq_nil_iff.mp none
          rw [List.map_eq_nil_iff] at own
          simp [own, markRows, not_pausesAfter_nil]
        · have more : 0 < texts.length + later.length := by
            have length := List.length_pos_iff.mpr none
            rwa [List.length_append, List.length_map] at length
          have here : height ≤ height + texts.length ∧
              height < height + texts.length + later.length := by omega
          have next := @ih 0 (by omega)
          rw [Nat.zero_add] at next
          rw [markRows_full (by omega) none, List.head?_cons, pausesAfter_fills, next]
          simp only [here, and_true]
          constructor
          · rintro (same | ⟨same, _⟩ | after)
            · exact .inl same
            · exact .inl same
            · exact .inr after
          · rintro (same | after)
            · exact .inl same
            · exact .inr (.inr after)
      · have total : visible + 1 + texts.length = visible + (texts.length + 1) := by omega
        have next := @ih (visible + 1) (by omega)
        rw [total] at next
        have unpaused : (markRows height (visible + 1) (texts.map (number, ·) ++ later)).head? ≠
            some .fills := head?_markRows (by omega) _
        rw [next]
        simp only [unpaused, and_false, false_or]

theorem pausesAfter_bounds {width number place : Nat} {lines : List Text}
    (pauses : PausesAfter (markRows height visible (rows width number lines)) place) :
    number ≤ place ∧ place < number + lines.length := by
  obtain ⟨text, inside⟩ := pauses
  obtain ⟨i, line, rfl, held, _⟩ := mem_rows (mem_of_shows (inside.subset (.head _)))
  have bound := (List.getElem?_eq_some_iff.mp held).1
  omega

end Screen

def rowCounts (width : Nat) (lines : List Text) : List Nat :=
  lines.map fun line => (displayLines width line).length

/-- Lines with so many rows each, below `visible` rows of which the hints have counted all but
`missed`: wherever a line fills the screen and more follows, it has at least as many rows after its
first pause as are missed. Those after its last pause are missed from then on. -/
def InStep (height visible missed : Nat) : List Nat → Prop
  | [] => True
  | count :: rest =>
    if height ≤ visible + count ∧ height < visible + count + rest.sum then
      missed + height ≤ visible + count ∧
        InStep height ((visible + count) % height) ((visible + count) % height) rest
    else InStep height (visible + count) missed rest

instance InStep.decide (height : Nat) :
    (visible missed : Nat) → (counts : List Nat) → Decidable (InStep height visible missed counts)
  | _, _, [] => isTrue trivial
  | visible, missed, count :: rest =>
    have := InStep.decide height ((visible + count) % height) ((visible + count) % height) rest
    have := InStep.decide height (visible + count) missed rest
    inferInstanceAs (Decidable
      (if height ≤ visible + count ∧ height < visible + count + rest.sum then
        missed + height ≤ visible + count ∧
          InStep height ((visible + count) % height) ((visible + count) % height) rest
      else InStep height (visible + count) missed rest))

theorem length_rows (width number : Nat) (lines : List Text) :
    (rows width number lines).length = (rowCounts width lines).sum := by
  induction lines generalizing number with
  | nil => rfl
  | cons line rest ih => simp [rows, rowCounts, ih]

theorem length_displayLines_pos (width : Nat) (line : Text) :
    0 < (displayLines width line).length :=
  List.length_pos_iff.mpr (displayLines_ne_nil width line)

variable {settings : Settings} {number counted : Nat} {lines : List Text}

theorem full_bounds {place : Nat}
    (member : place ∈ (lineBreaksFrom settings number counted lines).full) :
    number ≤ place ∧ place < number + lines.length := by
  induction lines generalizing number counted with
  | nil => cases member
  | cons line rest ih =>
      rw [lineBreaksFrom] at member
      split at member
      · have later := ih member
        rw [List.length_cons]
        omega
      · dsimp only at member
        rw [List.length_cons]
        split at member
        · rcases List.mem_cons.mp member with rfl | member
          · omega
          · have later := ih member
            omega
        · have later := ih member
          omega

theorem full_cons {line : Text} (shown : line ≠ []) (rest : List Text) :
    (lineBreaksFrom settings number counted (line :: rest)).full =
      if settings.linesPerScreen ≤ counted + (displayLines settings.charsPerLine line).length then
        number :: (lineBreaksFrom settings (number + 1) 0 rest).full
      else (lineBreaksFrom settings (number + 1)
        (counted + (displayLines settings.charsPerLine line).length) rest).full := by
  rw [lineBreaksFrom, if_neg (by simpa using shown)]
  dsimp only
  split <;> rfl

theorem eq_nil_of_length_rows {width : Nat} {rest : List Text}
    (none : (rows width number rest).length = 0) : rest = [] := by
  cases rest with
  | nil => rfl
  | cons line others =>
      have some := length_displayLines_pos width line
      rw [rows, List.length_append, List.length_map] at none
      omega

/-- A line that is followed by a pause is announced itself, or it is not announced at all: all that
comes later has a higher number. -/
theorem announced_cons {full paused : Prop} [Decidable full] {later : Nat → Prop}
    {after skipped : List Nat} (pauses : paused) (below : ∀ place, later place → number < place)
    (above : ∀ place ∈ skipped, number < place) :
    (∀ place, place = number ∧ paused ∨ later place →
      place ∈ if full then number :: after else skipped) ↔
    full ∧ ∀ place, later place → place ∈ after := by
  by_cases counts : full
  · simp only [counts, if_true, true_and]
    constructor
    · intro announced place following
      have other := Nat.ne_of_gt (below place following)
      exact (List.mem_cons.mp (announced place (.inr following))).resolve_left other
    · rintro announced place (⟨rfl, _⟩ | following)
      · exact .head _
      · exact .tail _ (announced place following)
  · simp only [counts, if_false, false_and, iff_false]
    intro announced
    exact Nat.lt_irrefl _ (above number (announced number (.inl ⟨rfl, pauses⟩)))

/-- The hints announce every pause of lines exactly if they stay in step. -/
theorem announced_iff (number counted missed : Nat)
    (room : counted + missed < settings.linesPerScreen)
    (filled : ∀ line ∈ lines.dropLast, line ≠ []) :
    (∀ place, PausesAfter (markRows settings.linesPerScreen (counted + missed)
        (rows settings.charsPerLine number lines)) place →
      place ∈ (lineBreaksFrom settings number counted lines).full) ↔
    InStep settings.linesPerScreen (counted + missed) missed
      (rowCounts settings.charsPerLine lines) := by
  induction lines generalizing number counted missed with
  | nil => simp [rows, markRows, not_pausesAfter_nil, rowCounts, InStep]
  | cons line rest ih =>
      have extent := length_rows settings.charsPerLine (number + 1) rest
      rw [rows, rowCounts, List.map_cons, ← rowCounts, InStep, ← extent]
      simp only [pausesAfter_line room]
      by_cases empty : line = []
      -- only the last line can be empty, and nothing is left to pause for
      · have last : rest = [] := by
          by_contra more
          exact filled line (by simp [List.dropLast_cons_of_ne_nil more]) empty
        subst empty last
        have fits : ¬ settings.linesPerScreen < counted + missed + 1 := by omega
        simp [rows, markRows, not_pausesAfter_nil, rowCounts, InStep, fits]
      · have later : ∀ other ∈ rest.dropLast, other ≠ [] := by
          intro other member
          have more : rest ≠ [] := by
            rintro rfl
            cases member
          exact filled other (by simp [List.dropLast_cons_of_ne_nil more, member])
        rw [full_cons empty]
        generalize (displayLines settings.charsPerLine line).length = count
        by_cases pauses : settings.linesPerScreen ≤ counted + missed + count ∧
            settings.linesPerScreen < counted + missed + count +
              (rows settings.charsPerLine (number + 1) rest).length
        -- the count starts again at zero and misses the rows that the line carries over
        · have next := ih (number + 1) 0 ((counted + missed + count) % settings.linesPerScreen)
            (by rw [Nat.zero_add]; exact Nat.mod_lt _ (by omega)) later
          have counts : missed + settings.linesPerScreen ≤ counted + missed + count ↔
              settings.linesPerScreen ≤ counted + count := by omega
          rw [Nat.zero_add] at next
          rw [if_pos pauses, ← next, counts]
          exact announced_cons pauses (fun place after => (pausesAfter_bounds after).1)
            (fun place member => (full_bounds member).1)
        · rw [if_neg pauses]
          simp only [pauses, and_false, false_or]
          by_cases fits : counted + missed + count < settings.linesPerScreen
          · have total : counted + count + missed = counted + missed + count := by omega
            have next := ih (number + 1) (counted + count) missed (by omega) later
            rw [total] at next
            rw [Nat.mod_eq_of_lt fits, if_neg (by omega), next]
          -- the last row of all is the last one of its screen
          · have none : (rows settings.charsPerLine (number + 1) rest).length = 0 := by omega
            rw [eq_nil_of_length_rows none]
            simp [rows, markRows, not_pausesAfter_nil, rowCounts, InStep]

/-- How many rows the hints miss at the top of a stretch: a newline at its start shows an empty row
that they do not count. -/
def overlooked (stretch : Text) : Nat := if stretch.head? = some '\n' then 1 else 0

theorem stretch_announced_newline (tall : 1 ≤ settings.linesPerScreen)
    (some : lines ≠ []) (filled : ∀ line ∈ lines.dropLast, line ≠ []) :
    (∀ place, PausesAfter (markRows settings.linesPerScreen 0
        (rows settings.charsPerLine number ([] :: lines))) place →
      place ∈ (lineBreaksFrom settings number 0 ([] :: lines)).full) ↔
    InStep settings.linesPerScreen 0 1 (rowCounts settings.charsPerLine ([] :: lines)) := by
  have hints : lineBreaksFrom settings number 0 ([] :: lines) =
      lineBreaksFrom settings (number + 1) 0 lines := rfl
  have shown : rows settings.charsPerLine number ([] :: lines) =
      [[]].map (number, ·) ++ rows settings.charsPerLine (number + 1) lines := rfl
  have counts : rowCounts settings.charsPerLine ([] :: lines) =
      1 :: rowCounts settings.charsPerLine lines := rfl
  have extent := length_rows settings.charsPerLine (number + 1) lines
  rw [hints, shown, counts, InStep, ← extent]
  simp only [pausesAfter_line tall, List.length_singleton, Nat.zero_add]
  by_cases low : settings.linesPerScreen = 1
  · have more : 0 < (rows settings.charsPerLine (number + 1) lines).length :=
      Nat.pos_of_ne_zero fun none => some (eq_nil_of_length_rows none)
    have pauses : settings.linesPerScreen ≤ 1 ∧ settings.linesPerScreen <
        1 + (rows settings.charsPerLine (number + 1) lines).length := by omega
    rw [if_pos pauses]
    constructor
    · intro announced
      have below := full_bounds (announced number (.inl ⟨rfl, pauses⟩))
      omega
    · rintro ⟨enough, _⟩
      omega
  · have fits : 1 < settings.linesPerScreen := by omega
    have next := announced_iff (number + 1) 0 1 (by omega) filled
    rw [if_neg (by omega), ← next, Nat.mod_eq_of_lt fits]
    simp only [Nat.not_le.mpr fits, false_and, and_false, false_or, Nat.zero_add]

theorem stretch_announced_iff (tall : 1 ≤ settings.linesPerScreen) {stretch : Text}
    (inner : ∀ line ∈ (Text.split '\n' stretch).tail.dropLast, line ≠ []) :
    (∀ place, PausesAfter (markRows settings.linesPerScreen 0
        (rows settings.charsPerLine number (Text.split '\n' stretch))) place →
      place ∈ (lineBreaksFrom settings number 0 (Text.split '\n' stretch)).full) ↔
    InStep settings.linesPerScreen 0 (overlooked stretch)
      (rowCounts settings.charsPerLine (Text.split '\n' stretch)) := by
  cases stretch with
  | nil => exact announced_iff number 0 0 tall (by simp [Text.split])
  | cons c rest =>
      by_cases newline : c = '\n'
      · subst newline
        exact stretch_announced_newline tall (Text.split_ne_nil _ _) inner
      · obtain ⟨line, others, shape⟩ := List.exists_cons_of_ne_nil (Text.split_ne_nil '\n' rest)
        have lines : Text.split '\n' (c :: rest) = (c :: line) :: others := by
          rw [Text.split, if_neg newline, shape]
          rfl
        have start : overlooked (c :: rest) = 0 := by simp [overlooked, newline]
        rw [lines, List.tail_cons] at inner
        rw [lines, start]
        exact announced_iff number 0 0 tall (dropLast_filled (List.cons_ne_nil c line) inner)

theorem stretch_inner {chain : Chain Text Nat}
    (inner : ∀ line ∈ (stretchLines chain).tail.dropLast, line ≠ []) :
    ∀ stretch ∈ chain.pieces, ∀ line ∈ (Text.split '\n' stretch).tail.dropLast, line ≠ [] := by
  induction chain with
  | one piece =>
      intro stretch member
      cases List.mem_singleton.mp member
      simpa [stretchLines, Chain.pieces] using inner
  | cons piece run rest ih =>
      have lines : (stretchLines (.cons piece run rest)).tail.dropLast =
          (Text.split '\n' piece).tail ++ (stretchLines rest).dropLast := by
        rw [stretchLines, Chain.pieces, List.flatMap_cons, ← stretchLines,
          List.tail_append_of_ne_nil (Text.split_ne_nil _ _),
          List.dropLast_append_of_ne_nil (stretchLines_ne_nil rest)]
      rw [lines] at inner
      intro stretch member line listed
      rcases List.mem_cons.mp member with rfl | later
      · exact inner line (List.mem_append_left _ (List.mem_of_mem_dropLast listed))
      · refine ih (fun other held => inner other (List.mem_append_right _ ?_)) stretch later line listed
        rw [← List.tail_dropLast] at held
        exact List.mem_of_mem_tail held

theorem full_append (front rest : List Text) :
    (lineBreaksFrom settings number counted (front ++ [] :: rest)).full =
      (lineBreaksFrom settings number counted front).full ++
        (lineBreaksFrom settings (number + front.length + 1) 0 rest).full := by
  induction front generalizing number counted with
  | nil => rfl
  | cons line others ih =>
      have place : number + 1 + others.length + 1 = number + (others.length + 1) + 1 := by omega
      by_cases empty : line = []
      · subst empty
        have later := @ih (number + 1) 0
        rw [place] at later
        exact later
      · rw [List.cons_append, full_cons empty, full_cons empty, ih, ih, List.length_cons, place]
        split <;> rfl

theorem lineBreaksFrom_newlines (count : Nat) (rest : List Text) :
    lineBreaksFrom settings number 0 (List.replicate count [] ++ rest) =
      lineBreaksFrom settings (number + count) 0 rest := by
  induction count generalizing number with
  | zero => rfl
  | succ count ih =>
      have later := @ih (number + 1)
      rw [Nat.add_right_comm] at later
      exact later

theorem full_weave (stretch : Text) {run : Nat} (long : 2 ≤ run) (rest : Chain Text Nat) :
    (lineBreaksFrom settings number 0 (Text.split '\n' (weave (.cons stretch run rest)))).full =
      (lineBreaksFrom settings number 0 (Text.split '\n' stretch)).full ++
        (lineBreaksFrom settings (number + stretch.count '\n' + run) 0
          (Text.split '\n' (weave rest))).full := by
  obtain ⟨more, rfl⟩ : ∃ more, run = more + 1 + 1 := ⟨run - 2, by omega⟩
  have place : number + (stretch.count '\n' + 1) + 1 + more =
      number + stretch.count '\n' + (more + 1 + 1) := by omega
  rw [split_weave_cons, List.replicate_succ, List.cons_append, full_append,
    lineBreaksFrom_newlines, length_split, place]

theorem le_of_pausesAfter {chain : Chain Text Nat} (runs : ∀ run ∈ chain.gaps, 2 ≤ run)
    {place : Nat} (pauses : PausesAfter (marksFrom settings number chain) place) :
    number ≤ place := by
  obtain ⟨text, inside⟩ := pauses
  obtain ⟨i, _, same, _⟩ := shows_marksFrom runs (inside.subset (.head _))
  omega

theorem marksFrom_announced_iff (tall : 1 ≤ settings.linesPerScreen) {chain : Chain Text Nat}
    (runs : ∀ run ∈ chain.gaps, 2 ≤ run)
    (inner : ∀ stretch ∈ chain.pieces, ∀ line ∈ (Text.split '\n' stretch).tail.dropLast,
      line ≠ []) :
    (∀ place, PausesAfter (marksFrom settings number chain) place →
      place ∈ (lineBreaksFrom settings number 0 (Text.split '\n' (weave chain))).full) ↔
    ∀ stretch ∈ chain.pieces, InStep settings.linesPerScreen 0 (overlooked stretch)
      (rowCounts settings.charsPerLine (Text.split '\n' stretch)) := by
  induction chain generalizing number with
  | one stretch =>
      rw [Chain.pieces, List.forall_mem_singleton]
      exact stretch_announced_iff tall (inner stretch (.head _))
  | cons stretch run rest ih =>
      have first := @stretch_announced_iff settings number tall stretch (inner stretch (.head _))
      have later := @ih (number + stretch.count '\n' + run)
        (fun other member => runs other (.tail _ member))
        (fun other member => inner other (.tail _ member))
      have width := length_split '\n' stretch
      have long := runs run (.head _)
      rw [Chain.pieces, List.forall_mem_cons, ← first, ← later, full_weave stretch long]
      simp only [marksFrom, pausesAfter_breaks]
      constructor
      · intro announced
        constructor
        · intro place pauses
          have above := pausesAfter_bounds pauses
          refine (List.mem_append.mp (announced place (.inl pauses))).resolve_right ?_
          intro member
          have below := full_bounds member
          omega
        · intro place pauses
          have below := le_of_pausesAfter (fun other member => runs other (.tail _ member)) pauses
          refine (List.mem_append.mp (announced place (.inr pauses))).resolve_left ?_
          intro member
          have above := full_bounds member
          omega
      · rintro ⟨own, others⟩ place (pauses | pauses)
        · exact List.mem_append_left _ (own place pauses)
        · exact List.mem_append_right _ (others place pauses)

/-- The page of a note is its marks without the numbers, and each row on it is one of those that
show the content line with its number. The hints announce every content line right after which a
full screen pauses exactly if they stay in step on every stretch of the content. -/
theorem lineBreaks_announce_iff (settings : Settings) (content : Text)
    (tall : 1 ≤ settings.linesPerScreen) :
    (∀ exit parent, Page.instructions exit settings.linesPerScreen
        (.note (paginate content settings.charsPerLine) parent) =
      .clear :: (marks settings content).flatMap Mark.steps ++ [.pause, .goto parent]) ∧
    (∀ number text, .shows number text ∈ marks settings content → ∃ line,
      (Text.split '\n' (Text.unifyNewlines content))[number]? = some line ∧
        text ∈ displayLines settings.charsPerLine line) ∧
    ((∀ number, PausesAfter (marks settings content) number →
        number ∈ (lineBreaks settings content).full) ↔
      ∀ stretch ∈ (stretches (Text.unifyNewlines content)).pieces,
        InStep settings.linesPerScreen 0 (overlooked stretch)
          (rowCounts settings.charsPerLine (Text.split '\n' stretch))) := by
  have runs : ∀ run ∈ (stretches (Text.unifyNewlines content)).gaps, 2 ≤ run :=
    fun run member => two_le_of_mem_gaps member
  have whole := weave_stretches (Text.unifyNewlines content)
  refine ⟨?_, ?_, ?_⟩
  · intro exit parent
    rw [Page.instructions, steps_marks]
  · intro number text member
    obtain ⟨i, line, same, held, inside⟩ := shows_marksFrom runs member
    rw [whole] at held
    exact ⟨line, by rw [same, Nat.zero_add, held], inside⟩
  · have inner := stretch_inner (stretchLines_inner 0 (Text.unifyNewlines content))
    have announced := @marksFrom_announced_iff settings 0 tall _ runs inner
    rw [whole] at announced
    exact announced

def evenLines : Text := "a\nbbb ccc\nddd eee\nf".toList

theorem lineBreaks_announce_iff_evenLines :
    1 ≤ (⟨3, 2, 8⟩ : Settings).linesPerScreen ∧
      PausesAfter (marks ⟨3, 2, 8⟩ evenLines) 1 ∧ PausesAfter (marks ⟨3, 2, 8⟩ evenLines) 2 ∧
      ∀ number, PausesAfter (marks ⟨3, 2, 8⟩ evenLines) number → number ∈ [1, 2] := by
  have tall : 1 ≤ (⟨3, 2, 8⟩ : Settings).linesPerScreen := by decide
  have full : (lineBreaks ⟨3, 2, 8⟩ evenLines).full = [1, 2] := by decide
  have announced := (lineBreaks_announce_iff ⟨3, 2, 8⟩ evenLines tall).2.2.mpr (by decide)
  rw [full] at announced
  exact ⟨tall, ⟨"bbb".toList, by decide⟩, ⟨"ddd".toList, by decide⟩, announced⟩

/-- The screen is full after the line `d` since a row of the line before it stands above; the hints
have not counted that row. -/
theorem pause_not_announced :
    ¬ ∀ (settings : Settings) (content : Text), 1 ≤ settings.charsPerLine →
      1 ≤ settings.linesPerScreen → ∀ number, PausesAfter (marks settings content) number →
        number ∈ (lineBreaks settings content).full := by
  intro announced
  have pauses : PausesAfter (marks ⟨3, 2, 8⟩ "a\nbbb ccc\nd\ne".toList) 2 :=
    ⟨"d".toList, by decide⟩
  have member := announced ⟨3, 2, 8⟩ _ (by decide) (by decide) 2 pauses
  revert member
  decide

end CalcApp.Note
