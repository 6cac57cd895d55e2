import CalcApp.Proofs.Note.Reread
import Mathlib.Data.List.Infix
import Mathlib.Tactic.MkIffOfInductiveProp

namespace CalcApp.Note

def stretchLines (chain : Chain Text Nat) : List Text := chain.pieces.flatMap (Text.split '\n')

theorem stretchLines_ne_nil (chain : Chain Text Nat) : stretchLines chain ≠ [] := by
  cases chain <;> simp [stretchLines, Chain.pieces, Text.split_ne_nil]

theorem stretchLines_character {c : Char} (other : c ≠ '\n') (chain : Chain Text Nat) :
    stretchLines (chain.mapHead (c :: ·)) = (stretchLines chain).modifyHead (c :: ·) := by
  have first : ∀ piece back, Text.split '\n' (c :: piece) ++ back =
      (Text.split '\n' piece ++ back).modifyHead (c :: ·) := by
    intro piece back
    obtain ⟨line, others, shape⟩ := List.exists_cons_of_ne_nil (Text.split_ne_nil '\n' piece)
    simp [Text.split, other, shape]
  cases chain <;> simp [stretchLines, Chain.mapHead, Chain.pieces, first]

theorem stretchLines_newline (chain : Chain Text Nat) :
    stretchLines (chain.mapHead ('\n' :: ·)) = [] :: stretchLines chain := by
  cases chain <;> simp [stretchLines, Chain.mapHead, Chain.pieces, Text.split]

theorem dropLast_filled {line : Text} {others : List Text} (first : line ≠ [])
    (later : ∀ next ∈ others.dropLast, next ≠ []) :
    ∀ next ∈ (line :: others).dropLast, next ≠ [] := by
  intro next member
  by_cases last : others = []
  · simp [last] at member
  · rw [List.dropLast_cons_of_ne_nil last] at member
    rcases List.mem_cons.mp member with rfl | member
    · exact first
    · exact later next member

/-- Only the first and the last line of the stretches can be empty: any other empty line stands
between two newlines. -/
theorem stretchLines_inner (pending : Nat) (text : Text) :
    ∀ line ∈ (stretchLines (stretchesAfter pending text)).tail.dropLast, line ≠ [] := by
  induction text generalizing pending with
  | nil =>
      match pending with
      | 0 => decide
      | 1 => decide
      | more + 2 =>
          rw [stretchesAfter, if_pos (by omega)]
          simp [stretchLines, Chain.pieces, Text.split]
  | cons c rest ih =>
      rw [stretchesAfter]
      split
      · exact ih (pending + 1)
      · rename_i other
        obtain ⟨line, others, shape⟩ :=
          List.exists_cons_of_ne_nil (stretchLines_ne_nil (stretchesAfter 0 rest))
        have inner := ih 0
        rw [shape, List.tail_cons] at inner
        have following : stretchLines ((stretchesAfter 0 rest).mapHead (c :: ·)) =
            (c :: line) :: others := by
          rw [stretchLines_character other, shape]
          rfl
        have later := dropLast_filled (List.cons_ne_nil c line) inner
        dsimp only
        match pending with
        | 0 =>
            rw [if_neg (by omega), Chain.mapHead_mapHead]
            simp only [List.replicate_zero, List.nil_append]
            rw [following]
            exact inner
        | 1 =>
            have front := stretchLines_newline ((stretchesAfter 0 rest).mapHead (c :: ·))
            rw [following] at front
            rw [if_neg (by omega)]
            simp only [List.replicate_one, List.singleton_append]
            rw [front]
            exact later
        | more + 2 =>
            have front : stretchLines (.cons [] (more + 2) ((stretchesAfter 0 rest).mapHead (c :: ·))) =
                [] :: (c :: line) :: others := by
              rw [← following]
              rfl
            rw [if_pos (by omega), front]
            exact later

theorem split_newlines (count : Nat) (text : Text) :
    Text.split '\n' (List.replicate count '\n' ++ text) =
      List.replicate count [] ++ Text.split '\n' text := by
  induction count with
  | zero => rfl
  | succ count ih =>
      rw [List.replicate_succ, List.cons_append, Text.split, if_pos rfl, ih]
      rfl

/-- A run of newlines leaves empty lines between the stretches, one less than it has newlines. -/
theorem split_weave_cons (stretch : Text) (more : Nat) (rest : Chain Text Nat) :
    Text.split '\n' (weave (.cons stretch (more + 1) rest)) =
      Text.split '\n' stretch ++ (List.replicate more [] ++ Text.split '\n' (weave rest)) := by
  rw [weave, List.append_assoc, List.replicate_succ, List.cons_append, Text.split_append,
    split_newlines]

theorem mem_split_weave {chain : Chain Text Nat} (runs : ∀ run ∈ chain.gaps, 2 ≤ run) {line : Text}
    (member : line ∈ stretchLines chain) : line ∈ Text.split '\n' (weave chain) := by
  induction chain with
  | one stretch => simpa [stretchLines, Chain.pieces, weave] using member
  | cons stretch run rest ih =>
      have long := runs run (by simp [Chain.gaps])
      obtain ⟨more, rfl⟩ : ∃ more, run = more + 1 := ⟨run - 1, by omega⟩
      rw [split_weave_cons]
      rcases List.mem_append.mp member with first | later
      · exact List.mem_append_left _ first
      · have below := ih (fun other listed => runs other (by simp [Chain.gaps, listed])) later
        exact List.mem_append_right _ (List.mem_append_right _ below)

theorem mem_split_of_stretch {text line : Text} (member : line ∈ stretchLines (stretches text)) :
    line ∈ Text.split '\n' text := by
  have inside := mem_split_weave (fun run listed => two_le_of_mem_gaps listed) member
  have whole := weave_stretches text
  rw [stretches] at whole
  rwa [whole] at inside

theorem flatMap_trailing {parts : Text → List Text} (empty : parts [] = [[]])
    {lines : List Text} (some : ∀ line ∈ lines, parts line ≠ [])
    (filled : ∀ line ∈ lines, line ≠ [] → ∀ part ∈ parts line, part ≠ [])
    (trailing : ∀ line ∈ lines.dropLast, line ≠ []) :
    ∀ part ∈ (lines.flatMap parts).dropLast, part ≠ [] := by
  induction lines with
  | nil => simp
  | cons line rest ih =>
      intro part member
      rw [List.flatMap_cons] at member
      by_cases last : rest = []
      · subst last
        rw [List.flatMap_nil, List.append_nil] at member
        by_cases none : line = []
        · rw [none, empty] at member
          cases member
        · exact filled line (by simp) none part (List.dropLast_subset _ member)
      · have more : rest.flatMap parts ≠ [] := by
          obtain ⟨next, others, rfl⟩ := List.exists_cons_of_ne_nil last
          simp [some next (by simp)]
        rw [List.dropLast_cons_of_ne_nil last] at trailing
        rw [List.dropLast_append_of_ne_nil more] at member
        rcases List.mem_append.mp member with first | later
        · exact filled line (by simp) (trailing line (by simp)) part first
        · exact ih (fun next listed => some next (by simp [listed]))
            (fun next listed => filled next (by simp [listed]))
            (fun next listed => trailing next (by simp [listed])) part later

theorem flatMap_inner {parts : Text → List Text} (empty : parts [] = [[]])
    {lines : List Text} (some : ∀ line ∈ lines, parts line ≠ [])
    (filled : ∀ line ∈ lines, line ≠ [] → ∀ part ∈ parts line, part ≠ [])
    (inner : ∀ line ∈ lines.tail.dropLast, line ≠ []) :
    ∀ part ∈ (lines.flatMap parts).tail.dropLast, part ≠ [] := by
  cases lines with
  | nil => simp
  | cons line rest =>
      rw [List.tail_cons] at inner
      by_cases none : line = []
      · rw [none, List.flatMap_cons, empty, List.singleton_append, List.tail_cons]
        exact flatMap_trailing empty (fun next listed => some next (by simp [listed]))
          (fun next listed => filled next (by simp [listed])) inner
      · have trailing := dropLast_filled none inner
        intro part member
        rw [← List.tail_dropLast] at member
        exact flatMap_trailing empty some filled trailing part (List.mem_of_mem_tail member)

theorem lines_sheets (width : Nat) (text : Text) :
    (sheets width text).lines =
      (stretchLines (stretches (Text.unifyNewlines text))).flatMap (displayLines width) := by
  rw [Sheets.lines, sheets, Chain.pieces_map, stretchLines, List.flatMap_assoc]
  rfl

theorem mem_lines_sheets {width : Nat} {text part : Text} (member : part ∈ (sheets width text).lines) :
    ∃ line ∈ Text.split '\n' (Text.unifyNewlines text), part ∈ displayLines width line := by
  rw [lines_sheets] at member
  obtain ⟨line, listed, inside⟩ := List.mem_flatMap.mp member
  exact ⟨line, mem_split_of_stretch listed, inside⟩

theorem sheets_filled (width : Nat) (text : Text) :
    ∀ lines ∈ (sheets width text).pieces, lines ≠ [] := by
  intro lines member
  rw [sheets, Chain.pieces_map] at member
  obtain ⟨stretch, _, rfl⟩ := List.mem_map.mp member
  obtain ⟨line, others, shape⟩ := List.exists_cons_of_ne_nil (Text.split_ne_nil '\n' stretch)
  simp [groupLines, shape, displayLines_ne_nil]

theorem sheets_plain (width : Nat) (text : Text) :
    ∀ line ∈ (sheets width text).lines, Text.OneLine line := by
  intro part member
  obtain ⟨line, listed, inside⟩ := mem_lines_sheets member
  have plain := Text.oneLine_of_mem_split (Text.return_not_mem_unifyNewlines text) listed
  exact oneLine_displayLines plain inside

theorem sheets_clean {width : Nat} {text : Text}
    (filled : ∀ line ∈ Text.split '\n' (Text.unifyNewlines text), line ≠ [] →
      ∀ part ∈ displayLines width line, part ≠ []) :
    Sheets.Clean (sheets width text) := by
  constructor
  · exact sheets_filled width text
  · rw [lines_sheets]
    apply flatMap_inner (displayLines_nil width)
    · intro line _
      exact displayLines_ne_nil width line
    · intro line member
      exact filled line (mem_split_of_stretch member)
    · exact stretchLines_inner 0 _
  · exact sheets_plain width text

theorem Sheets.Clean.fit {linesPerScreen : Nat} (tall : 1 ≤ linesPerScreen) {sheets : Sheets}
    (clean : Clean sheets) : Clean (Sheets.fit linesPerScreen sheets) := by
  constructor
  · exact fit_filled tall clean.filled
  · rw [lines_fit]
    exact clean.inner
  · rw [lines_fit]
    exact clean.plain

def shown (settings : Settings) (content : Text) : Sheets :=
  Sheets.fit settings.linesPerScreen (sheets settings.charsPerLine content)

def reread (settings : Settings) (content : Text) : Text := (shown settings content).content

theorem showItems_paginate (settings : Settings) (content : Text) :
    Page.showItems settings.linesPerScreen 0 (paginate content settings.charsPerLine) =
      (shown settings content).steps := by
  rw [paginate_eq, Sheets.showItems_eq, shown]

def Spaced (line : Text) : Prop :=
  line = [] ∨ Text.blank line = false ∧ ∀ c ∈ line, Text.isBlank c = true → c = ' '

-- the characters of the line are tried, not all characters
instance (line : Text) : Decidable (Spaced line) :=
  haveI : Decidable (∀ c ∈ line, Text.isBlank c = true → c = ' ') := List.decidableBAll _ line
  inferInstanceAs (Decidable (_ ∨ _))

/-- A note that was shown and read back is shown on the same sheets. -/
theorem shown_reread {settings : Settings} {content : Text} (wide : 1 ≤ settings.charsPerLine)
    (tall : 1 ≤ settings.linesPerScreen)
    (spaced : ∀ line ∈ Text.split '\n' (Text.unifyNewlines content), Spaced line) :
    shown settings (reread settings content) = shown settings content := by
  have clean : Sheets.Clean (sheets settings.charsPerLine content) := by
    apply sheets_clean
    intro line member some part inside
    obtain ⟨visible, spaces⟩ := (spaced line member).resolve_left some
    exact (displayLines_stable wide visible spaces part inside).1
  have stable : ∀ line ∈ (shown settings content).lines,
      displayLines settings.charsPerLine line = [line] := by
    intro part member
    rw [shown, Sheets.lines_fit] at member
    obtain ⟨line, listed, inside⟩ := mem_lines_sheets member
    rcases spaced line listed with rfl | ⟨visible, spaces⟩
    · cases List.mem_singleton.mp inside
      rfl
    · exact (displayLines_stable wide visible spaces part inside).2
  have again : sheets settings.charsPerLine (reread settings content) = shown settings content :=
    Sheets.sheets_content (clean.fit tall) stable
  rw [shown, again]
  apply Sheets.fit_of_le
  intro lines member
  have bound := Sheets.fit_bounds member
  omega

/-- A note that fits: its lines need no wrapping, its stretches no further pauses, and a run of
newlines is no longer than it has to be. -/
@[mk_iff]
structure Tidy (settings : Settings) (content : Text) : Prop where
  unreturned : '\r' ∉ content
  runs : ¬ List.replicate 4 '\n' <:+: content
  lines : ∀ line ∈ Text.split '\n' content, line = [] ∨
    Text.blank line = false ∧ line.head? ≠ some ' ' ∧ line.length ≤ settings.charsPerLine
  stretches : ∀ stretch ∈ (stretches content).pieces,
    (Text.split '\n' stretch).length ≤ settings.linesPerScreen

instance (settings : Settings) (content : Text) : Decidable (Tidy settings content) :=
  decidable_of_iff _ (tidy_iff settings content).symm

theorem replicate_infix_weave {chain : Chain Text Nat} {run : Nat} (member : run ∈ chain.gaps) :
    List.replicate run '\n' <:+: weave chain := by
  induction chain with
  | one stretch => cases member
  | cons stretch own rest ih =>
      rw [Chain.gaps, List.mem_cons] at member
      rcases member with rfl | later
      · exact ⟨stretch, weave rest, rfl⟩
      · exact (ih later).trans (List.suffix_append _ _).isInfix

theorem Tidy.run_le {settings : Settings} {content : Text} (tidy : Tidy settings content) {run : Nat}
    (member : run ∈ (Note.stretches content).gaps) : run ≤ 3 := by
  by_contra long
  have inside := replicate_infix_weave member
  rw [weave_stretches] at inside
  obtain ⟨more, rfl⟩ : ∃ more, run = 4 + more := ⟨run - 4, by omega⟩
  rw [List.replicate_add] at inside
  exact tidy.runs ((List.prefix_append _ _).isInfix.trans inside)

theorem Tidy.groupLines {settings : Settings} {content : Text} (tidy : Tidy settings content)
    {stretch : Text} (member : stretch ∈ (Note.stretches content).pieces) :
    Note.groupLines settings.charsPerLine stretch = Text.split '\n' stretch := by
  have whole : ∀ line ∈ Text.split '\n' stretch,
      displayLines settings.charsPerLine line = [line] := by
    intro line listed
    have inside := mem_split_of_stretch (List.mem_flatMap.mpr ⟨stretch, member, listed⟩)
    rcases tidy.lines line inside with rfl | ⟨visible, start, short⟩
    · rfl
    · have some : line ≠ [] := by
        rintro rfl
        cases visible
      exact Fits.displayLines ⟨some, start, short⟩ visible
  calc
    _ = (Text.split '\n' stretch).flatMap fun line => [line] := List.flatMap_congr whole
    _ = _ := List.flatMap_singleton' _

theorem reread_tidy {settings : Settings} {content : Text} (tidy : Tidy settings content) :
    reread settings content = content := by
  have paged : sheets settings.charsPerLine content =
      (stretches content).map (Text.split '\n') fun run => decide (3 ≤ run) := by
    rw [sheets, Text.unifyNewlines_of_not_mem tidy.unreturned]
    exact Chain.map_congr (fun stretch member => tidy.groupLines member) fun _ _ => rfl
  have room : shown settings content = sheets settings.charsPerLine content := by
    apply Sheets.fit_of_le
    intro lines member
    rw [paged, Chain.pieces_map] at member
    obtain ⟨stretch, listed, rfl⟩ := List.mem_map.mp member
    exact tidy.stretches stretch listed
  have gaps : ∀ run ∈ (stretches content).gaps, Sheets.runLength (decide (3 ≤ run)) = id run := by
    intro run member
    have most := tidy.run_le member
    have least : 2 ≤ run := two_le_of_mem_gaps member
    by_cases three : 3 ≤ run
    · simp [Sheets.runLength, three]
      omega
    · simp [Sheets.runLength, three]
      omega
  calc
    reread settings content = (sheets settings.charsPerLine content).content := by rw [reread, room]
    _ = weave (((stretches content).map (Text.split '\n') fun run => decide (3 ≤ run)).map
          (Text.join ['\n']) Sheets.runLength) := by
      rw [Sheets.content_eq (sheets_filled _ _), paged]
    _ = weave ((stretches content).map id id) := by
      rw [Chain.map_map, Chain.map_congr (fun stretch _ => Text.join_split '\n' stretch) gaps]
      rfl
    _ = content := by rw [Chain.map_id, weave_stretches]

end CalcApp.Note
