import CalcApp.Text
import Mathlib.Data.List.Basic
import Mathlib.Data.List.TakeWhile

namespace CalcApp

theorem mem_intercalate {α : Type} {separator : List α} {pieces : List (List α)} {x : α}
    (member : x ∈ separator.intercalate pieces) : x ∈ separator ∨ ∃ piece ∈ pieces, x ∈ piece := by
  induction pieces with
  | nil => simp at member
  | cons piece rest ih =>
      by_cases last : rest = []
      · subst last
        exact .inr ⟨piece, by simp, by simpa using member⟩
      · rw [List.intercalate_cons_of_ne_nil last, List.mem_append, List.mem_append] at member
        rcases member with (here | between) | later
        · exact .inr ⟨piece, by simp, here⟩
        · exact .inl between
        · rcases ih later with between | ⟨other, listed, inside⟩
          · exact .inl between
          · exact .inr ⟨other, by simp [listed], inside⟩

namespace Text

@[simp] theorem join_nil (separator : Text) : join separator [] = [] := rfl

@[simp] theorem join_singleton (separator piece : Text) : join separator [piece] = piece := by
  simp [join]

theorem join_cons (separator piece : Text) {pieces : List Text} (more : pieces ≠ []) :
    join separator (piece :: pieces) = piece ++ separator ++ join separator pieces :=
  List.intercalate_cons_of_ne_nil more

theorem join_append (separator : Text) {front back : List Text} (some : front ≠ [])
    (more : back ≠ []) :
    join separator (front ++ back) = join separator front ++ separator ++ join separator back := by
  induction front with
  | nil => exact absurd rfl some
  | cons piece rest ih =>
      by_cases last : rest = []
      · subst last
        rw [List.singleton_append, join_cons _ _ more, join_singleton]
      · rw [List.cons_append, join_cons _ _ (by simp [last]), ih last, join_cons _ _ last]
        simp

theorem length_first_le_join (separator first : Text) (others : List Text) :
    first.length ≤ (join separator (first :: others)).length := by
  by_cases last : others = []
  · subst last
    rw [join_singleton]
  · rw [join_cons _ _ last, List.length_append, List.length_append]
    omega

theorem split_ne_nil (separator : Char) (text : Text) : split separator text ≠ [] := by
  induction text with
  | nil => simp [split]
  | cons c rest ih =>
      rw [split]
      split
      · simp
      · cases pieces : split separator rest with
        | nil => exact absurd pieces ih
        | cons first others => simp

theorem split_of_not_mem {separator : Char} {text : Text} (absent : separator ∉ text) :
    split separator text = [text] := by
  induction text with
  | nil => rfl
  | cons c rest ih =>
      simp only [List.mem_cons, not_or] at absent
      have other : c ≠ separator := fun same => absent.1 same.symm
      simp [split, other, ih absent.2]

theorem split_append (separator : Char) (front back : Text) :
    split separator (front ++ separator :: back) =
      split separator front ++ split separator back := by
  induction front with
  | nil => simp [split]
  | cons c rest ih =>
      rw [List.cons_append, split, split, ih]
      split
      · rfl
      · cases pieces : split separator rest with
        | nil => exact absurd pieces (split_ne_nil separator rest)
        | cons first others => simp

theorem split_join_flatMap (separator : Char) {parts : List Text} (some : parts ≠ []) :
    split separator (join [separator] parts) = parts.flatMap (split separator) := by
  induction parts with
  | nil => exact absurd rfl some
  | cons part rest ih =>
      by_cases last : rest = []
      · subst last
        simp
      · rw [join_cons _ _ last, List.append_assoc, List.singleton_append, split_append, ih last,
          List.flatMap_cons]

theorem split_join {separator : Char} {pieces : List Text} (some : pieces ≠ [])
    (absent : ∀ piece ∈ pieces, separator ∉ piece) :
    split separator (join [separator] pieces) = pieces := by
  calc
    _ = pieces.flatMap (split separator) := split_join_flatMap separator some
    _ = pieces.flatMap fun piece => [piece] :=
      List.flatMap_congr fun piece listed => split_of_not_mem (absent piece listed)
    _ = pieces := List.flatMap_singleton' pieces

theorem join_split (separator : Char) (text : Text) :
    join [separator] (split separator text) = text := by
  induction text with
  | nil => rfl
  | cons c rest ih =>
      rw [split]
      split
      · rename_i same
        rw [join_cons _ _ (split_ne_nil separator rest), ih, same]
        rfl
      · cases pieces : split separator rest with
        | nil => exact absurd pieces (split_ne_nil separator rest)
        | cons first others =>
            rw [pieces] at ih
            rw [List.modifyHead_cons, ← ih]
            cases others <;> simp [join_cons]

theorem not_mem_of_mem_split {separator : Char} {text piece : Text}
    (member : piece ∈ split separator text) : separator ∉ piece := by
  induction text generalizing piece with
  | nil => simp_all [split]
  | cons c rest ih =>
      rw [split] at member
      split at member
      · rcases List.mem_cons.mp member with rfl | later
        · simp
        · exact ih later
      · rename_i other
        cases pieces : split separator rest with
        | nil => exact absurd pieces (split_ne_nil separator rest)
        | cons first others =>
            rw [pieces, List.modifyHead_cons, List.mem_cons] at member
            rcases member with rfl | later
            · have absent : separator ∉ first := ih (by simp [pieces])
              simpa [Ne.symm other] using absent
            · exact ih (by simp [pieces, later])

theorem mem_of_mem_split {separator c : Char} {text piece : Text}
    (member : piece ∈ split separator text) (inside : c ∈ piece) : c ∈ text := by
  rw [← join_split separator text]
  generalize split separator text = pieces at member
  induction pieces with
  | nil => cases member
  | cons first rest ih =>
      by_cases last : rest = []
      · subst last
        simp_all
      · rw [join_cons _ _ last]
        rcases List.mem_cons.mp member with rfl | later
        · simp [inside]
        · simp [ih later]

@[simp] theorem blank_cons (c : Char) (text : Text) :
    blank (c :: text) = (isBlank c && blank text) := rfl

theorem trimEnd_eq_nil {text : Text} (empty : blank text = true) : trimEnd text = [] := by
  have dropped : text.reverse.dropWhile isBlank = [] := by
    rw [List.dropWhile_eq_nil_iff]
    intro c member
    exact List.all_eq_true.mp empty c (List.mem_reverse.mp member)
  rw [trimEnd, dropped]
  rfl

theorem trimEnd_cons {c : Char} {text : Text} (shown : blank (c :: text) = false) :
    trimEnd (c :: text) = c :: trimEnd text := by
  rw [trimEnd, trimEnd, List.reverse_cons, List.dropWhile_append]
  cases empty : blank text with
  | true =>
      have dropped : text.reverse.dropWhile isBlank = [] := by
        rw [List.dropWhile_eq_nil_iff]
        intro other member
        exact List.all_eq_true.mp empty other (List.mem_reverse.mp member)
      have visible : isBlank c = false := by simpa [empty] using shown
      simp [dropped, visible]
  | false =>
      have more : text.reverse.dropWhile isBlank ≠ [] := by
        rw [ne_eq, List.dropWhile_eq_nil_iff]
        intro all
        have every : blank text = true :=
          List.all_eq_true.mpr fun other member => all other (List.mem_reverse.mpr member)
        rw [empty] at every
        cases every
      simp [more]

theorem trimStart_trimEnd (text : Text) : trimStart (trimEnd text) = trim text := by
  induction text with
  | nil => rfl
  | cons c rest ih =>
      cases visible : isBlank c with
      | true =>
          have start : trimStart (c :: rest) = trimStart rest := by simp [trimStart, visible]
          rw [trim, start, ← trim, ← ih]
          cases empty : blank rest with
          | true =>
              rw [trimEnd_eq_nil empty, trimEnd_eq_nil (by simp [visible, empty])]
          | false =>
              rw [trimEnd_cons (by simp [empty])]
              simp [trimStart, visible]
      | false =>
          have start : trimStart (c :: rest) = c :: rest := by simp [trimStart, visible]
          rw [trim, start, trimEnd_cons (by simp [visible])]
          simp [trimStart, visible]

theorem trimEnd_of_last {text : Text} {last : Char} (visible : isBlank last = false) :
    trimEnd (text ++ [last]) = text ++ [last] := by
  simp [trimEnd, visible]

theorem trimStart_of_first {text : Text} {first : Char} (visible : isBlank first = false) :
    trimStart (first :: text) = first :: text := by
  simp [trimStart, visible]

theorem trim_of_ends {text : Text} {first last : Char} (start : isBlank first = false)
    (stop : isBlank last = false) : trim (first :: text ++ [last]) = first :: text ++ [last] := by
  rw [trim, List.cons_append, trimStart_of_first start, ← List.cons_append, trimEnd_of_last stop]

theorem trim_append_blank {ending : Text} (empty : blank ending = true) (text : Text) :
    trim (text ++ ending) = trim text := by
  have dropped : trimEnd (text ++ ending) = trimEnd text := by
    rw [trimEnd, trimEnd, List.reverse_append, List.dropWhile_append_of_pos]
    intro c member
    exact List.all_eq_true.mp empty c (List.mem_reverse.mp member)
  rw [← trimStart_trimEnd, dropped, trimStart_trimEnd]

theorem unifyNewlines_cons {c : Char} {rest : Text} (other : c ≠ '\r') :
    unifyNewlines (c :: rest) = c :: unifyNewlines rest := by
  rw [unifyNewlines.eq_2]
  · simp [other]
  · intro next same
    exact absurd same other

theorem unifyNewlines_of_not_mem {text : Text} (absent : '\r' ∉ text) :
    unifyNewlines text = text := by
  induction text with
  | nil => rfl
  | cons c rest ih =>
      simp only [List.mem_cons, not_or] at absent
      rw [unifyNewlines_cons (fun same => absent.1 same.symm), ih absent.2]

theorem return_not_mem_unifyNewlines (text : Text) : '\r' ∉ unifyNewlines text := by
  fun_induction unifyNewlines text with
  | case1 rest ih => simp [ih]
  | case2 c rest _ ih =>
      rw [List.mem_cons, not_or]
      refine ⟨?_, ih⟩
      split
      · decide
      · rename_i other
        exact fun same => other same.symm
  | case3 => simp

/-- A carriage return stands for a newline, together with a newline right after it. -/
structure UnifiesNewlines (f : Text → Text) : Prop where
  plain : ∀ text, '\r' ∉ text → f text = text
  pair : ∀ front back, f (front ++ '\r' :: '\n' :: back) = f front ++ '\n' :: f back
  lone : ∀ front back, back.head? ≠ some '\n' →
    f (front ++ '\r' :: back) = f front ++ '\n' :: f back

theorem unifyNewlines_lone {rest : Text} (next : rest.head? ≠ some '\n') :
    unifyNewlines ('\r' :: rest) = '\n' :: unifyNewlines rest := by
  rw [unifyNewlines.eq_2]
  · rfl
  · rintro following _ rfl
    exact next rfl

theorem unifyNewlines_append_return (front back : Text) :
    unifyNewlines (front ++ '\r' :: back) =
      unifyNewlines front ++ unifyNewlines ('\r' :: back) := by
  fun_induction unifyNewlines front with
  | case1 rest ih => simp only [List.cons_append, unifyNewlines, ih]
  | case2 c rest other ih =>
      rw [List.cons_append, unifyNewlines.eq_2, ih, List.cons_append]
      intro following same next
      cases rest with
      | nil => cases next
      | cons d others =>
          cases next
          exact other others same rfl
  | case3 => rfl

theorem unifiesNewlines_unifyNewlines : UnifiesNewlines unifyNewlines where
  plain _ := unifyNewlines_of_not_mem
  pair front back := unifyNewlines_append_return front ('\n' :: back)
  lone front back next := by rw [unifyNewlines_append_return, unifyNewlines_lone next]

/-- Unified newlines are fixed by their laws. -/
theorem unifiesNewlines_iff {f : Text → Text} : UnifiesNewlines f ↔ f = unifyNewlines := by
  have unified := unifiesNewlines_unifyNewlines
  constructor
  · intro laws
    funext text
    induction size : text.length using Nat.strong_induction_on generalizing text with
    | _ n ih =>
        by_cases returns : '\r' ∈ text
        · obtain ⟨front, back, rfl⟩ := List.append_of_mem returns
          simp only [List.length_append, List.length_cons] at size
          have before := ih front.length (by omega) front rfl
          by_cases next : back.head? = some '\n'
          · obtain ⟨rest, rfl⟩ := List.head?_eq_some_iff.mp next
            rw [List.length_cons] at size
            have behind := ih rest.length (by omega) rest rfl
            rw [laws.pair, unified.pair, before, behind]
          · have behind := ih back.length (by omega) back rfl
            rw [laws.lone _ _ next, unified.lone _ _ next, before, behind]
        · rw [laws.plain text returns, unified.plain text returns]
  · rintro rfl
    exact unified

def OneLine (text : Text) : Prop := '\n' ∉ text ∧ '\r' ∉ text

instance (text : Text) : Decidable (OneLine text) := inferInstanceAs (Decidable (_ ∧ _))

@[simp] theorem oneLine_nil : OneLine [] := by simp [OneLine]

theorem oneLine_of_mem_split {text piece : Text} (unified : '\r' ∉ text)
    (member : piece ∈ split '\n' text) : OneLine piece :=
  ⟨not_mem_of_mem_split member, fun inside => unified (mem_of_mem_split member inside)⟩

theorem dropReturn_of_oneLine {line : Text} (plain : OneLine line) : dropReturn line = line := by
  have other : line.getLast? ≠ some '\r' := fun same => plain.2 (List.mem_of_getLast? same)
  rw [dropReturn, if_neg other]

theorem lines_of_not_mem {line : Text} (shown : line ≠ []) (whole : '\n' ∉ line) :
    lines line = [line] := by
  simp [lines, split_of_not_mem whole, shown]

theorem lines_append {line : Text} (plain : OneLine line) (rest : Text) :
    lines (line ++ '\n' :: rest) = line :: lines rest := by
  have cut : split '\n' (line ++ '\n' :: rest) = line :: split '\n' rest := by
    rw [split_append, split_of_not_mem plain.1, List.singleton_append]
  cases pieces : split '\n' rest with
  | nil => exact absurd pieces (split_ne_nil '\n' rest)
  | cons first others => simp [lines, cut, pieces, dropReturn_of_oneLine plain]

theorem lines_join {pieces : List Text} {last : Text} (shown : last ≠ []) (whole : '\n' ∉ last)
    (plain : ∀ piece ∈ pieces, OneLine piece) :
    lines (join ['\n'] (pieces ++ [last])) = pieces ++ [last] := by
  induction pieces with
  | nil => rw [List.nil_append, join_singleton, lines_of_not_mem shown whole]
  | cons piece rest ih =>
      have later := ih fun other member => plain other (by simp [member])
      rw [List.cons_append, join_cons _ _ (by simp), List.append_assoc, List.singleton_append,
        lines_append (plain piece (by simp)), later]

theorem fullLines_cons {c : Char} {rest : Text} (other : c ≠ '\n') (more : rest ≠ []) :
    fullLines (c :: rest) = (fullLines rest).modifyHead (c :: ·) := by
  cases rest with
  | nil => exact absurd rfl more
  | cons next following =>
      rw [fullLines]
      exact other

theorem fullLines_of_not_mem {line : Text} (shown : line ≠ []) (whole : '\n' ∉ line) :
    fullLines line = [line] := by
  induction line with
  | nil => exact absurd rfl shown
  | cons c rest ih =>
      simp only [List.mem_cons, not_or] at whole
      have other : c ≠ '\n' := fun same => whole.1 same.symm
      by_cases last : rest = []
      · subst last
        rw [fullLines]
        exact other
      · rw [fullLines_cons other last, ih last whole.2, List.modifyHead_cons]

theorem fullLines_append {line : Text} (whole : '\n' ∉ line) (rest : Text) :
    fullLines (line ++ '\n' :: rest) = (line ++ ['\n']) :: fullLines rest := by
  induction line with
  | nil => rw [List.nil_append, fullLines, List.nil_append]
  | cons c following ih =>
      simp only [List.mem_cons, not_or] at whole
      have other : c ≠ '\n' := fun same => whole.1 same.symm
      rw [List.cons_append, fullLines_cons other (by simp), ih whole.2, List.modifyHead_cons,
        List.cons_append]

theorem fullLines_block {block : List Text} (some : block ≠ [])
    (whole : ∀ line ∈ block, '\n' ∉ line) (rest : Text) :
    fullLines (join ['\n'] block ++ '\n' :: rest) = block.map (· ++ ['\n']) ++ fullLines rest := by
  induction block with
  | nil => exact absurd rfl some
  | cons line others ih =>
      have first := fullLines_append (whole line (by simp))
      by_cases last : others = []
      · subst last
        rw [join_singleton, first, List.map_singleton, List.singleton_append]
      · have later := ih last fun other member => whole other (by simp [member])
        rw [join_cons _ _ last, List.append_assoc, List.append_assoc, List.singleton_append, first,
          later, List.map_cons, List.cons_append]

theorem fullLines_join {pieces : List Text} {last : Text} (shown : last ≠ [])
    (whole : ∀ line ∈ pieces ++ [last], '\n' ∉ line) :
    fullLines (join ['\n'] (pieces ++ [last])) = pieces.map (· ++ ['\n']) ++ [last] := by
  have final := fullLines_of_not_mem shown (whole last (by simp))
  by_cases alone : pieces = []
  · subst alone
    rw [List.nil_append, join_singleton, final, List.map_nil, List.nil_append]
  · have front := fullLines_block alone (fun line member => whole line (by simp [member])) last
    rw [join_append _ alone (by simp), join_singleton, List.append_assoc, List.singleton_append,
      front, final]

theorem flatten_fullLines (text : Text) : (fullLines text).flatten = text := by
  fun_induction fullLines text with
  | case1 => rfl
  | case2 rest ih => rw [List.flatten_cons, ih, List.singleton_append]
  | case3 c _ => rfl
  | case4 c next rest _ ih =>
      cases pieces : fullLines (next :: rest) with
      | nil =>
          rw [pieces] at ih
          cases ih
      | cons first others =>
          rw [pieces, List.flatten_cons] at ih
          rw [List.modifyHead_cons, List.flatten_cons, List.cons_append, ih]

theorem length_le_byteSize (text : Text) : text.length ≤ text.byteSize := by
  induction text with
  | nil => exact Nat.le_refl _
  | cons c rest ih =>
      have positive := Char.utf8Size_pos c
      rw [byteSize, List.length_cons]
      omega

theorem byteSize_append (front back : Text) :
    (front ++ back).byteSize = front.byteSize + back.byteSize := by
  induction front with
  | nil => exact (Nat.zero_add _).symm
  | cons c rest ih => rw [List.cons_append, byteSize, byteSize, ih, Nat.add_assoc]

theorem length_le_of_byteSize_le {first second text : Text} (start : first <+: text)
    (other : second <+: text) (bytes : first.byteSize ≤ second.byteSize) :
    first.length ≤ second.length := by
  rcases List.prefix_or_prefix_of_prefix start other with shorter | longer
  · exact shorter.length_le
  · obtain ⟨more, rfl⟩ := longer
    have characters := length_le_byteSize more
    rw [byteSize_append] at bytes
    rw [List.length_append]
    omega

end Text

theorem runs_concat {α : Type} {p : α → Bool} {last : α} (other : p last = false) (front : List α) :
    runs p (front ++ [last]) = runs p front := by
  have after : ∀ run, runsAfter p run (front ++ [last]) = runsAfter p run front := by
    induction front with
    | nil => simp [runsAfter, other]
    | cons x rest ih => simp [runsAfter, ih]
  exact after []

theorem runsAfter_append {α : Type} {p : α → Bool} {block : List α}
    (all : ∀ x ∈ block, p x = true) (run rest : List α) :
    runsAfter p run (block ++ rest) = runsAfter p (run ++ block) rest := by
  induction block generalizing run with
  | nil => simp
  | cons x others ih =>
      have here := all x (by simp)
      rw [List.cons_append, runsAfter, if_pos here, ih (fun y member => all y (by simp [member]))]
      simp

theorem runs_of_all {α : Type} {p : α → Bool} {block : List α} (some : block ≠ [])
    (all : ∀ x ∈ block, p x = true) : runs p block = [block] := by
  have alone := runsAfter_append all [] []
  rw [List.append_nil, List.nil_append] at alone
  simp [runs, alone, runsAfter, some]

theorem runs_append {α : Type} {p : α → Bool} {block : List α} {between : α} (some : block ≠ [])
    (all : ∀ x ∈ block, p x = true) (other : p between = false) (rest : List α) :
    runs p (block ++ between :: rest) = block :: runs p rest := by
  simp [runs, runsAfter_append all, runsAfter, other, some]

theorem runs_intercalate {α : Type} {p : α → Bool} {between : α} (other : p between = false)
    {blocks : List (List α)} (full : ∀ block ∈ blocks, block ≠ [] ∧ ∀ x ∈ block, p x = true) :
    runs p ([between].intercalate blocks) = blocks := by
  induction blocks with
  | nil => rfl
  | cons block rest ih =>
      obtain ⟨some, all⟩ := full block (by simp)
      have later := ih fun next member => full next (by simp [member])
      by_cases last : rest = []
      · subst last
        rw [List.intercalate_singleton, runs_of_all some all]
      · rw [List.intercalate_cons_of_ne_nil last, List.append_assoc, List.singleton_append,
          runs_append some all other, later]

namespace Text

theorem join_blocks {blocks : List (List Text)} (full : ∀ block ∈ blocks, block ≠ []) :
    join ['\n', '\n'] (blocks.map (join ['\n'])) = join ['\n'] ([[]].intercalate blocks) := by
  induction blocks with
  | nil => rfl
  | cons block rest ih =>
      have some := full block (by simp)
      have later := ih fun next member => full next (by simp [member])
      by_cases last : rest = []
      · subst last
        simp
      · have more : [[]].intercalate rest ≠ [] := by
          cases rest with
          | nil => exact absurd rfl last
          | cons next others =>
              have start := full next (by simp)
              cases others <;> simp [start]
        have apart : join ['\n'] ([] :: [[]].intercalate rest) =
            '\n' :: join ['\n'] ([[]].intercalate rest) := join_cons _ _ more
        rw [List.map_cons, join_cons _ _ (by simpa using last), later,
          List.intercalate_cons_of_ne_nil last, List.append_assoc block, List.singleton_append,
          join_append _ some (List.cons_ne_nil _ _), apart]
        simp

theorem intercalate_last {blocks : List (List Text)} (some : blocks ≠ [])
    (full : ∀ block ∈ blocks, block ≠ []) :
    ∃ front last, [[]].intercalate blocks = front ++ [last] ∧ ∃ block ∈ blocks, last ∈ block := by
  induction blocks with
  | nil => exact absurd rfl some
  | cons block rest ih =>
      by_cases last : rest = []
      · subst last
        have more := full block (by simp)
        refine ⟨block.dropLast, block.getLast more, ?_, block, by simp, List.getLast_mem more⟩
        simp [List.dropLast_append_getLast more]
      · obtain ⟨front, final, whole, held, listed, inside⟩ :=
          ih last fun next member => full next (by simp [member])
        refine ⟨block ++ [[]] ++ front, final, ?_, held, by simp [listed], inside⟩
        rw [List.intercalate_cons_of_ne_nil last, whole]
        simp

theorem paragraphs_join {blocks : List (List Text)}
    (full : ∀ block ∈ blocks, block ≠ [] ∧
      ∀ line ∈ block, blank line = false ∧ OneLine line) :
    paragraphs (lines (unifyNewlines (join ['\n', '\n'] (blocks.map (join ['\n']))))) = blocks := by
  by_cases none : blocks = []
  · subst none
    rfl
  have filled : ∀ block ∈ blocks, block ≠ [] := fun block member => (full block member).1
  have plain : ∀ line ∈ [[]].intercalate blocks, OneLine line := by
    intro line member
    rcases mem_intercalate member with empty | ⟨block, listed, inside⟩
    · cases List.mem_singleton.mp empty
      simp
    · exact ((full block listed).2 line inside).2
  obtain ⟨front, last, whole, block, listed, inside⟩ := intercalate_last none filled
  have shown : last ≠ [] := by
    rintro rfl
    cases ((full block listed).2 [] inside).1
  have unreturned : '\r' ∉ join ['\n'] ([[]].intercalate blocks) := by
    intro member
    rcases mem_intercalate member with newline | ⟨line, inside, character⟩
    · cases List.mem_singleton.mp newline
    · exact (plain line inside).2 character
  have parts : ∀ line ∈ front ++ [last], OneLine line := whole ▸ plain
  rw [join_blocks filled, unifyNewlines_of_not_mem unreturned, whole,
    lines_join shown (parts last (by simp)).1 (fun line member => parts line (by simp [member])),
    ← whole]
  apply runs_intercalate
  · rfl
  · intro block listed
    refine ⟨filled block listed, ?_⟩
    intro line inside
    simp [((full block listed).2 line inside).1]

/-- An empty line at the end of a text is not told from the newline before it, which makes no
difference to the paragraphs. -/
theorem paragraphs_lines {lines : List Text} (whole : ∀ line ∈ lines, OneLine line) :
    paragraphs (Text.lines (unifyNewlines (join ['\n'] lines))) = paragraphs lines := by
  have unreturned : '\r' ∉ join ['\n'] lines := by
    intro member
    rcases mem_intercalate member with newline | ⟨line, listed, inside⟩
    · cases List.mem_singleton.mp newline
    · exact (whole line listed).2 inside
  rw [unifyNewlines_of_not_mem unreturned]
  by_cases none : lines = []
  · subst none
    rfl
  obtain ⟨front, last, rfl⟩ : ∃ front last, lines = front ++ [last] :=
    ⟨lines.dropLast, lines.getLast none, (List.dropLast_append_getLast none).symm⟩
  have cut := split_join none fun line listed => (whole line listed).1
  have kept : front.map dropReturn = front := by
    rw [List.map_congr_left fun line listed =>
      dropReturn_of_oneLine (whole line (List.mem_append_left _ listed)), List.map_id']
  rw [Text.lines, cut, List.getLast?_concat, Option.getD_some, List.dropLast_concat, kept]
  by_cases empty : last = []
  · subst empty
    rw [List.isEmpty_nil, if_pos rfl, List.append_nil, paragraphs, paragraphs, runs_concat rfl]
  · rw [if_neg (by simpa using empty)]

theorem paragraphs_split (text : Text) :
    paragraphs (lines (unifyNewlines text)) = paragraphs (split '\n' (unifyNewlines text)) := by
  have unreturned := return_not_mem_unifyNewlines text
  have whole : ∀ line ∈ split '\n' (unifyNewlines text), OneLine line := fun _ listed =>
    oneLine_of_mem_split unreturned listed
  have same := paragraphs_lines whole
  rwa [join_split, unifyNewlines_of_not_mem unreturned] at same

end Text

end CalcApp
