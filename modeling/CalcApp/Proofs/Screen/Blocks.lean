import CalcApp.Proofs.Listing.Order
import CalcApp.Proofs.Runs
import CalcApp.Screen
import Mathlib.Data.List.DropRight

/-! Two ways to cut a program into blocks. The reader collects lines between blank ones; the preview
goes over the lines with their newlines and takes slices of the text. Without carriage returns both
find the same blocks, and the label that the first line of a block defines is that of its slice. -/

namespace CalcApp

namespace Text

def bare (line : Text) : Text := line.rdropWhile fun c => c = '\n' || c = '\r'

theorem exists_ending (line : Text) :
    ∃ ending, line = bare line ++ ending ∧ blank ending = true := by
  have parts := List.takeWhile_append_dropWhile (p := fun c => c = '\n' || c = '\r')
    (l := line.reverse)
  refine ⟨(line.reverse.takeWhile fun c => c = '\n' || c = '\r').reverse, ?_, ?_⟩
  · rw [bare, List.rdropWhile, ← List.reverse_append, parts, List.reverse_reverse]
  · rw [blank, List.all_eq_true]
    intro c member
    have ends := List.mem_takeWhile_imp (List.mem_reverse.mp member)
    simp only [Bool.or_eq_true, decide_eq_true_eq] at ends
    rcases ends with rfl | rfl <;> decide

theorem blank_append (front back : Text) : blank (front ++ back) = (blank front && blank back) :=
  List.all_append

theorem blank_bare (line : Text) : blank (bare line) = blank line := by
  obtain ⟨ending, whole, empty⟩ := exists_ending line
  have parts := blank_append (bare line) ending
  rw [← whole, empty, Bool.and_true] at parts
  exact parts.symm

theorem bare_of_oneLine {line : Text} (plain : OneLine line) : bare line = line := by
  rw [bare, List.rdropWhile_eq_self_iff]
  intro more ends
  have member := List.getLast_mem more
  simp only [Bool.or_eq_true, decide_eq_true_eq] at ends
  rcases ends with newline | returned
  · exact plain.1 (newline ▸ member)
  · exact plain.2 (returned ▸ member)

theorem bare_ended {line : Text} (plain : OneLine line) : bare (line ++ ['\n']) = line := by
  rw [bare, List.rdropWhile_concat_pos _ _ _ (by decide)]
  exact bare_of_oneLine plain

theorem exists_lines {text : Text} (unreturned : '\r' ∉ text) :
    ∃ front last, (∀ line ∈ front ++ [last], OneLine line) ∧
      lines text = front ++ (if last.isEmpty then [] else [last]) ∧
      fullLines text = front.map (· ++ ['\n']) ++ (if last.isEmpty then [] else [last]) := by
  have some := split_ne_nil '\n' text
  obtain ⟨front, last, cut⟩ : ∃ front last, split '\n' text = front ++ [last] :=
    ⟨_, _, (List.dropLast_append_getLast some).symm⟩
  have plain : ∀ line ∈ front ++ [last], OneLine line := by
    intro line member
    exact oneLine_of_mem_split unreturned (cut ▸ member)
  refine ⟨front, last, plain, ?_, ?_⟩
  · have kept : front.map dropReturn = front := by
      rw [List.map_congr_left fun line member =>
        dropReturn_of_oneLine (plain line (List.mem_append_left _ member)), List.map_id']
    rw [lines, cut, List.getLast?_concat, Option.getD_some, List.dropLast_concat, kept]
  · have joined : text = join ['\n'] (front ++ [last]) := by rw [← cut, join_split]
    have whole : ∀ line ∈ front ++ [last], '\n' ∉ line := fun line member => (plain line member).1
    by_cases empty : last = []
    · subst empty
      rw [List.isEmpty_nil, if_pos rfl, List.append_nil, joined]
      by_cases alone : front = []
      · subst alone
        rfl
      · have inner := fullLines_block alone (fun line member => whole line (by simp [member])) []
        rw [join_append _ alone (by simp), join_singleton, List.append_assoc,
          List.singleton_append, inner, fullLines, List.append_nil]
    · rw [if_neg (by simpa using empty), joined, fullLines_join empty whole]

theorem oneLine_of_mem_lines {text line : Text} (unreturned : '\r' ∉ text)
    (member : line ∈ lines text) : OneLine line := by
  obtain ⟨front, last, plain, cut, _⟩ := exists_lines unreturned
  apply plain
  rw [cut] at member
  split at member
  · rw [List.append_nil] at member
    exact List.mem_append_left _ member
  · exact member

theorem lines_eq_bare {text : Text} (unreturned : '\r' ∉ text) :
    lines text = (fullLines text).map bare := by
  obtain ⟨front, last, plain, cut, full⟩ := exists_lines unreturned
  have inner : (front.map (· ++ ['\n'])).map bare = front := by
    rw [List.map_map]
    conv_rhs => rw [← List.map_id front]
    apply List.map_congr_left
    intro line member
    exact bare_ended (plain line (List.mem_append_left _ member))
  have final : (if last.isEmpty then [] else [last]).map bare =
      if last.isEmpty then [] else [last] := by
    split
    · rfl
    · rw [List.map_singleton, bare_of_oneLine (plain last (by simp))]
  rw [cut, full, List.map_append, inner, final]

theorem ended_of_mem_dropLast {text line : Text} (unreturned : '\r' ∉ text)
    (member : line ∈ (fullLines text).dropLast) : line = bare line ++ ['\n'] := by
  obtain ⟨front, last, plain, _, full⟩ := exists_lines unreturned
  have inner : line ∈ front.map (· ++ ['\n']) := by
    rw [full] at member
    split at member
    · rw [List.append_nil] at member
      exact List.dropLast_subset _ member
    · rwa [List.dropLast_concat] at member
  obtain ⟨piece, listed, rfl⟩ := List.mem_map.mp inner
  rw [bare_ended (plain piece (List.mem_append_left _ listed))]

/-- Lines of which all but the last have a newline are their bare lines with newlines between them,
and a blank end. -/
theorem flatten_eq_join {lines : List Text} (some : lines ≠ [])
    (ended : ∀ line ∈ lines.dropLast, line = bare line ++ ['\n']) :
    ∃ ending, lines.flatten = join ['\n'] (lines.map bare) ++ ending ∧ blank ending = true := by
  induction lines with
  | nil => exact absurd rfl some
  | cons line rest ih =>
      by_cases last : rest = []
      · subst last
        obtain ⟨ending, whole, empty⟩ := exists_ending line
        refine ⟨ending, ?_, empty⟩
        rw [List.map_singleton, join_singleton, List.flatten_singleton, ← whole]
      · rw [List.dropLast_cons_of_ne_nil last] at ended
        have here := ended line (List.mem_cons_self ..)
        obtain ⟨ending, whole, empty⟩ :=
          ih last fun other member => ended other (List.mem_cons_of_mem _ member)
        refine ⟨ending, ?_, empty⟩
        calc
          (line :: rest).flatten = line ++ rest.flatten := List.flatten_cons
          _ = bare line ++ ['\n'] ++ (join ['\n'] (rest.map bare) ++ ending) := by
            rw [← here, whole]
          _ = join ['\n'] ((line :: rest).map bare) ++ ending := by
            rw [List.map_cons, join_cons _ _ (by simpa using last), List.append_assoc,
              List.append_assoc, List.append_assoc]

theorem paragraphs_bare (lines : List Text) :
    paragraphs (lines.map bare) = (paragraphs lines).map (List.map bare) := by
  rw [paragraphs, runs_map]
  simp only [blank_bare]
  rfl

theorem paragraph_of_mem {text : Text} (unreturned : '\r' ∉ text) {block : List Text}
    (member : block ∈ paragraphs (lines text)) : Paragraph block := by
  obtain ⟨filled, all, before, after, whole, _⟩ := mem_runs_iff.mp member
  refine ⟨filled, ?_⟩
  intro line inside
  have listed : line ∈ lines text := by
    rw [whole]
    simp [inside]
  exact ⟨by simpa using all line inside, oneLine_of_mem_lines unreturned listed⟩

theorem trim_trimStart (text : Text) : trim (trimStart text) = trim text := by
  rw [trim, trimStart, trimStart, List.dropWhile_idempotent, ← trimStart, ← trim]

theorem trim_trim (text : Text) : trim (trim text) = trim text := by
  have twice : trimEnd (trimEnd text) = trimEnd text := by
    rw [trimEnd, trimEnd, List.reverse_reverse, List.dropWhile_idempotent]
  calc
    trim (trim text) = trim (trimEnd text) := by
      rw [← trimStart_trimEnd text, trim_trimStart]
    _ = trimStart (trimEnd (trimEnd text)) := (trimStart_trimEnd _).symm
    _ = trim text := by rw [twice, trimStart_trimEnd]

theorem mem_of_mem_trim {c : Char} {text : Text} (member : c ∈ trim text) : c ∈ text := by
  rw [trim, trimEnd, List.mem_reverse] at member
  have inner := List.mem_reverse.mp ((List.dropWhile_sublist _).subset member)
  exact (List.dropWhile_sublist _).subset inner

theorem exists_trimStart {text : Text} (shown : blank text = false) :
    ∃ c rest, trimStart text = c :: rest ∧ isBlank c = false := by
  induction text with
  | nil => cases shown
  | cons c rest ih =>
      cases visible : isBlank c with
      | false => exact ⟨c, rest, trimStart_of_first visible, visible⟩
      | true =>
          have skipped : trimStart (c :: rest) = trimStart rest :=
            List.dropWhile_cons_of_pos visible
          rw [skipped]
          exact ih (by simpa [visible] using shown)

theorem trim_ne_nil {text : Text} (shown : blank text = false) : trim text ≠ [] := by
  obtain ⟨c, rest, start, visible⟩ := exists_trimStart shown
  rw [trim, start, trimEnd_cons (by simp [visible])]
  exact List.cons_ne_nil _ _

theorem trimEnd_append {back : Text} (shown : blank back = false) (front : Text) :
    trimEnd (front ++ back) = front ++ trimEnd back := by
  induction front with
  | nil => rfl
  | cons c rest ih =>
      have visible : blank (c :: (rest ++ back)) = false := by simp [blank_append, shown]
      rw [List.cons_append, trimEnd_cons visible, ih, List.cons_append]

theorem trim_append {front back : Text} (shown : blank front = false) (more : blank back = false) :
    trim (front ++ back) = trimStart front ++ trimEnd back := by
  obtain ⟨c, rest, start, _⟩ := exists_trimStart shown
  have first : trimStart (front ++ back) = trimStart front ++ back := by
    rw [trimStart, List.dropWhile_append, ← trimStart, start]
    rfl
  rw [trim, first, trimEnd_append more]

theorem blank_join (separator : Text) {line : Text} (shown : blank line = false)
    (others : List Text) : blank (join separator (line :: others)) = false := by
  by_cases last : others = []
  · rw [last, join_singleton, shown]
  · rw [join_cons _ _ last, blank_append, blank_append, shown, Bool.false_and, Bool.false_and]

end Text

namespace Instruction

theorem ofLine_congr {line other : Text} (same : Text.trim line = Text.trim other) :
    ofLine line = ofLine other := by
  rw [ofLine, ofLine, body, body, same]

end Instruction

def Listing.blocksOf (text : Text) : List (List Text) := Text.paragraphs (Text.lines text)

namespace Screen

def sectionOf (block : List Text) : Text := Text.trim (Text.join ['\n'] block)

def heading? (block : List Text) : Option Label :=
  match block.head?.map Instruction.ofLine with
  | some (.define label) => some label
  | _ => none

theorem sections_eq {text : Text} (unreturned : '\r' ∉ text) :
    sections text = (Listing.blocksOf text).map sectionOf := by
  have same : ∀ block ∈ Text.paragraphs (Text.fullLines text),
      Text.trim block.flatten = sectionOf (block.map Text.bare) := by
    intro block member
    obtain ⟨filled, _, before, after, whole, _⟩ := mem_runs_iff.mp member
    have ended : ∀ line ∈ block.dropLast, line = Text.bare line ++ ['\n'] := by
      intro line inside
      apply Text.ended_of_mem_dropLast unreturned
      rw [whole]
      by_cases final : after = []
      · rw [final, List.append_nil, List.dropLast_append_of_ne_nil filled]
        exact List.mem_append_right _ inside
      · rw [List.dropLast_append_of_ne_nil final]
        simp [List.dropLast_subset _ inside]
    obtain ⟨ending, joined, empty⟩ := Text.flatten_eq_join filled ended
    rw [joined, Text.trim_append_blank empty]
    rfl
  calc
    sections text = (Text.paragraphs (Text.fullLines text)).map fun block =>
        sectionOf (block.map Text.bare) := List.map_congr_left same
    _ = ((Text.paragraphs (Text.fullLines text)).map (List.map Text.bare)).map sectionOf := by
      rw [List.map_map]
      rfl
    _ = (Listing.blocksOf text).map sectionOf := by
      rw [Listing.blocksOf, Text.lines_eq_bare unreturned, Text.paragraphs_bare]

theorem exists_first {line : Text} {rest : List Text} (proper : Text.Paragraph (line :: rest)) :
    ∃ first, (Text.lines (sectionOf (line :: rest))).head? = some first ∧
      Text.trim first = Text.trim line := by
  obtain ⟨shown, plain⟩ := proper.2 line (List.mem_cons_self ..)
  by_cases last : rest = []
  · subst last
    have whole : '\n' ∉ Text.trim line := fun member => plain.1 (Text.mem_of_mem_trim member)
    refine ⟨Text.trim line, ?_, Text.trim_trim line⟩
    rw [sectionOf, Text.join_singleton, Text.lines_of_not_mem (Text.trim_ne_nil shown) whole,
      List.head?_cons]
  · refine ⟨Text.trimStart line, ?_, Text.trim_trimStart line⟩
    obtain ⟨next, others, rfl⟩ := List.exists_cons_of_ne_nil last
    have visible := (proper.2 next (by simp)).1
    have below : Text.blank ('\n' :: Text.join ['\n'] (next :: others)) = false := by
      rw [Text.blank_cons, Text.blank_join _ visible, Bool.and_false]
    have start : Text.OneLine (Text.trimStart line) :=
      ⟨fun member => plain.1 ((List.dropWhile_sublist _).subset member),
        fun member => plain.2 ((List.dropWhile_sublist _).subset member)⟩
    rw [sectionOf, Text.join_cons _ _ last, List.append_assoc, List.singleton_append,
      Text.trim_append shown below, Text.trimEnd_cons below, Text.lines_append start,
      List.head?_cons]

theorem label?_sectionOf {block : List Text} (proper : Text.Paragraph block) :
    label? (sectionOf block) = heading? block := by
  cases block with
  | nil => exact absurd rfl proper.1
  | cons line rest =>
      obtain ⟨first, found, same⟩ := exists_first proper
      have read : (Text.lines (sectionOf (line :: rest))).head?.map Instruction.ofLine =
          (line :: rest).head?.map Instruction.ofLine := by
        rw [found, List.head?_cons, Option.map_some, Option.map_some, Instruction.ofLine_congr same]
      rw [label?, read]
      rfl

def slice (text : Text) (start stop : Nat) : Text := (text.take stop).drop start

theorem slice_append (front part back : Text) :
    slice (front ++ part ++ back) front.length (front.length + part.length) = part := by
  rw [slice, ← List.length_append, List.take_left, List.drop_left]

/-- Where a scan over the lines of a program stands: the place where the section in progress starts,
if there is one, the place where its last line ends, and the place of the next line. -/
structure Cursor where
  start : Option Nat
  stop : Nat
  offset : Nat

namespace Cursor

def close (program : Text) (cursor : Cursor) : List Text :=
  match cursor.start with
  | none => []
  | some start => [Text.trim (slice program start cursor.stop)]

def skip (cursor : Cursor) (line : Text) : Cursor :=
  ⟨none, cursor.stop, cursor.offset + line.length⟩

def take (cursor : Cursor) (line : Text) : Cursor :=
  ⟨some (cursor.start.getD cursor.offset), cursor.offset + (Text.bare line).length,
    cursor.offset + line.length⟩

end Cursor

def slicesFrom (program : Text) (cursor : Cursor) : List Text → List Text
  | [] => cursor.close program
  | line :: rest =>
    if Text.blank (Text.bare line) then
      cursor.close program ++ slicesFrom program (cursor.skip line) rest
    else slicesFrom program (cursor.take line) rest

def slices (program : Text) : List Text :=
  slicesFrom program ⟨none, 0, 0⟩ (Text.fullLines program)

/-- The cursor stands behind the text `read` and the lines `held` of the section in progress. -/
structure Cursor.Tracks (program read : Text) (held : List Text) (cursor : Cursor) : Prop where
  offset : cursor.offset = read.length + held.flatten.length
  start : cursor.start = if held.isEmpty then none else some read.length
  close : cursor.close program = if held.isEmpty then [] else [Text.trim held.flatten]

namespace Cursor.Tracks

variable {program read line rest : Text} {held : List Text} {cursor : Cursor}

theorem skip (tracks : cursor.Tracks program read held) (line : Text) :
    (cursor.skip line).Tracks program (read ++ held.flatten ++ line) [] := by
  refine ⟨?_, rfl, rfl⟩
  rw [Cursor.skip, tracks.offset, List.length_append, List.length_append]
  rfl

theorem take (tracks : cursor.Tracks program read held)
    (whole : program = read ++ (held.flatten ++ line) ++ rest) :
    (cursor.take line).Tracks program read (held ++ [line]) := by
  have start : cursor.start.getD cursor.offset = read.length := by
    rw [tracks.start, tracks.offset]
    cases held <;> rfl
  obtain ⟨ending, parts, empty⟩ := Text.exists_ending line
  -- the slice stops before the end of the line, of which only blanks are left out
  have cut : slice program read.length (cursor.offset + (Text.bare line).length) =
      held.flatten ++ Text.bare line := by
    have split : program = read ++ (held.flatten ++ Text.bare line) ++ (ending ++ rest) := by
      calc
        program = read ++ (held.flatten ++ line) ++ rest := whole
        _ = read ++ (held.flatten ++ (Text.bare line ++ ending)) ++ rest := by rw [← parts]
        _ = read ++ (held.flatten ++ Text.bare line) ++ (ending ++ rest) := by
          simp only [List.append_assoc]
    have stop : cursor.offset + (Text.bare line).length =
        read.length + (held.flatten ++ Text.bare line).length := by
      rw [tracks.offset, List.length_append, Nat.add_assoc]
    rw [split, stop, slice_append]
  have joined : (held ++ [line]).flatten = held.flatten ++ line := by
    rw [List.flatten_append, List.flatten_singleton]
  refine ⟨?_, ?_, ?_⟩
  · rw [joined, List.length_append, ← Nat.add_assoc, ← tracks.offset]
    rfl
  · rw [Cursor.take, start]
    cases held <;> rfl
  · have same : Text.trim (held.flatten ++ line) = Text.trim (held.flatten ++ Text.bare line) := by
      rw [parts, ← List.append_assoc, Text.trim_append_blank empty, ← parts]
    rw [joined, same, ← cut, Cursor.close, Cursor.take, start]
    cases held <;> rfl

end Cursor.Tracks

theorem slicesFrom_eq {program read : Text} {held lines : List Text} {cursor : Cursor}
    (tracks : cursor.Tracks program read held)
    (whole : program = read ++ held.flatten ++ lines.flatten) :
    slicesFrom program cursor lines =
      (runsAfter (fun line => !Text.blank line) held lines).map fun lines =>
        Text.trim lines.flatten := by
  induction lines generalizing read held cursor with
  | nil =>
      rw [slicesFrom, tracks.close, runsAfter]
      cases held <;> rfl
  | cons line rest ih =>
      rw [List.flatten_cons] at whole
      rw [slicesFrom, runsAfter, Text.blank_bare]
      cases empty : Text.blank line with
      | true =>
          have later := ih (tracks.skip line) (by rw [whole]; simp)
          rw [if_pos rfl, later, tracks.close, Bool.not_true, if_neg Bool.false_ne_true,
            List.map_append]
          cases held <;> rfl
      | false =>
          have split : program = read ++ (held.flatten ++ line) ++ rest.flatten := by
            rw [whole]
            simp only [List.append_assoc]
          have later := ih (tracks.take split) (by rw [whole]; simp)
          rw [if_neg Bool.false_ne_true, later, Bool.not_false, if_pos rfl]

theorem slices_eq (program : Text) : slices program = sections program := by
  have initial : Cursor.Tracks program [] [] ⟨none, 0, 0⟩ := ⟨rfl, rfl, rfl⟩
  exact slicesFrom_eq initial (Text.flatten_fullLines program).symm

theorem findSection_eq {text : Text} (unreturned : '\r' ∉ text) (label : Label) :
    findSection text label =
      ((Listing.blocksOf text).find? fun block => heading? block = some label).map sectionOf := by
  have same : (Listing.blocksOf text).filter (fun block => label? (sectionOf block) = some label) =
      (Listing.blocksOf text).filter fun block => heading? block = some label := by
    apply List.filter_congr
    intro block member
    rw [label?_sectionOf (Text.paragraph_of_mem unreturned member)]
  calc
    findSection text label = ((Listing.blocksOf text).map sectionOf).find? fun code =>
        label? code = some label := by rw [findSection, findIn, sections_eq unreturned]
    _ = ((Listing.blocksOf text).filter fun block =>
        label? (sectionOf block) = some label).head?.map sectionOf := by
      rw [List.find?_map, List.head?_filter]
      rfl
    _ = ((Listing.blocksOf text).find? fun block => heading? block = some label).map sectionOf := by
      rw [same, List.head?_filter]

/-- In a text without carriage returns, the sections of the preview are the blocks that the reader
finds, in their order and trimmed, and they are slices of the text. The section of a label is the
first block whose first line defines it, and so the only one if there is no other. -/
theorem sections_eq_blocks (text : Text) (unreturned : '\r' ∉ text) :
    Listing.ofText text = Listing.addBlocks [] (Listing.blocksOf text) ∧
      sections text = (Listing.blocksOf text).map sectionOf ∧
      sections text = slices text ∧
      (∀ label, findSection text label =
        ((Listing.blocksOf text).find? fun block => heading? block = some label).map sectionOf) ∧
      ∀ label block,
        (Listing.blocksOf text).filter (fun block => heading? block = some label) = [block] →
          findSection text label = some (sectionOf block) := by
  refine ⟨?_, sections_eq unreturned, (slices_eq text).symm, findSection_eq unreturned, ?_⟩
  · rw [Listing.ofText, Text.unifyNewlines_of_not_mem unreturned, Listing.blocksOf]
  · intro label block single
    rw [findSection_eq unreturned, ← List.head?_filter, single]
    rfl

def looseText : Text :=
  "\u2003\n  :Lbl AB\n:Stop\t\n\u00a0 \n\n Lbl AA\n:ClrHome\n\nLbl AA".toList

theorem sections_eq_blocks_looseText :
    '\r' ∉ looseText ∧
      (Listing.blocksOf looseText).filter
          (fun block => heading? block = some (Program.labelOf 1)) =
        [["  :Lbl AB".toList, ":Stop\t".toList]] ∧
      findSection looseText (Program.labelOf 1) = some ":Lbl AB\n:Stop".toList ∧
      findSection looseText (Program.labelOf 0) = some "Lbl AA\n:ClrHome".toList ∧
      sections looseText =
        [":Lbl AB\n:Stop".toList, "Lbl AA\n:ClrHome".toList, "Lbl AA".toList] := by
  have unreturned : '\r' ∉ looseText := by decide
  have single : (Listing.blocksOf looseText).filter
      (fun block => heading? block = some (Program.labelOf 1)) =
        [["  :Lbl AB".toList, ":Stop\t".toList]] := by decide +kernel
  obtain ⟨_, blocks, _, first, unique⟩ := sections_eq_blocks looseText unreturned
  refine ⟨unreturned, single, unique _ _ single, ?_, ?_⟩
  · rw [first]
    decide +kernel
  · rw [blocks]
    decide +kernel

end Screen

end CalcApp
