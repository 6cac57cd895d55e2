import CalcApp.Proofs.Note.Sheet

namespace CalcApp.Note

theorem stretchesAfter_newlines (pending count : Nat) (text : Text) :
    stretchesAfter pending (List.replicate count '\n' ++ text) =
      stretchesAfter (pending + count) text := by
  induction count generalizing pending with
  | zero => rfl
  | succ count ih =>
      rw [List.replicate_succ, List.cons_append, stretchesAfter, if_pos rfl, ih]
      congr 1
      omega

theorem stretchesAfter_run {pending : Nat} (long : 2 ≤ pending) {text : Text}
    (start : text.head? ≠ some '\n') :
    stretchesAfter pending text = .cons [] pending (stretchesAfter 0 text) := by
  cases text with
  | nil =>
      rw [stretchesAfter, if_pos long]
      rfl
  | cons c rest =>
      have other : c ≠ '\n' := by simpa using start
      rw [stretchesAfter, if_neg other, if_pos long, stretchesAfter, if_neg other,
        if_neg (by omega), Chain.mapHead_mapHead]
      rfl

theorem stretchesAfter_newline {text : Text} (start : text.head? ≠ some '\n')
    (filled : text ≠ []) :
    stretchesAfter 0 ('\n' :: text) = (stretchesAfter 0 text).mapHead ('\n' :: ·) := by
  obtain ⟨c, rest, rfl⟩ := List.exists_cons_of_ne_nil filled
  have other : c ≠ '\n' := by simpa using start
  rw [stretchesAfter, if_pos rfl, stretchesAfter, if_neg other, if_neg (by omega), stretchesAfter,
    if_neg other, if_neg (by omega), Chain.mapHead_mapHead, Chain.mapHead_mapHead,
    Chain.mapHead_mapHead]
  rfl

theorem stretchesAfter_line {line : Text} (plain : '\n' ∉ line) (text : Text) :
    stretchesAfter 0 (line ++ text) = (stretchesAfter 0 text).mapHead (line ++ ·) := by
  induction line with
  | nil =>
      rw [List.nil_append]
      cases stretchesAfter 0 text <;> rfl
  | cons c rest ih =>
      simp only [List.mem_cons, not_or] at plain
      have other : c ≠ '\n' := fun same => plain.1 same.symm
      rw [List.cons_append, stretchesAfter, if_neg other, if_neg (by omega), ih plain.2,
        Chain.mapHead_mapHead, Chain.mapHead_mapHead]
      rfl

theorem head?_join {line : Text} (filled : line ≠ []) (lines : List Text) (text : Text) :
    (Text.join ['\n'] (line :: lines) ++ text).head? = line.head? := by
  by_cases last : lines = []
  · subst last
    rw [Text.join_singleton, List.head?_append_of_ne_nil _ filled]
  · rw [Text.join_cons _ _ last, List.append_assoc, List.append_assoc,
      List.head?_append_of_ne_nil _ filled]

theorem stretchesAfter_join {line : Text} {lines : List Text} (filled : ∀ next ∈ lines, next ≠ [])
    (plain : ∀ next ∈ line :: lines, '\n' ∉ next) (text : Text) :
    stretchesAfter 0 (Text.join ['\n'] (line :: lines) ++ text) =
      (stretchesAfter 0 text).mapHead (Text.join ['\n'] (line :: lines) ++ ·) := by
  induction lines generalizing line with
  | nil =>
      rw [Text.join_singleton]
      exact stretchesAfter_line (plain line (by simp)) text
  | cons next others ih =>
      have some := filled next (by simp)
      have single := plain next (by simp)
      have later := @ih next (fun other member => filled other (by simp [member]))
        (fun other member => plain other (List.mem_cons_of_mem _ member))
      have start : (Text.join ['\n'] (next :: others) ++ text).head? ≠ Option.some '\n' := by
        rw [head?_join some]
        exact fun same => single (List.mem_of_head? same)
      have more : Text.join ['\n'] (next :: others) ++ text ≠ [] := by
        intro empty
        have head := head?_join some others text
        rw [empty] at head
        exact some (List.head?_eq_none_iff.mp head.symm)
      rw [Text.join_cons _ _ (List.cons_ne_nil _ _), List.append_assoc, List.append_assoc,
        stretchesAfter_line (plain line (by simp)), List.singleton_append,
        stretchesAfter_newline start more, later, Chain.mapHead_mapHead, Chain.mapHead_mapHead]
      simp

theorem stretches_join {lines : List Text} (some : lines ≠ [])
    (filled : ∀ line ∈ lines.tail.dropLast, line ≠ []) (plain : ∀ line ∈ lines, '\n' ∉ line) :
    stretches (Text.join ['\n'] lines) = .one (Text.join ['\n'] lines) := by
  obtain ⟨line, others, rfl⟩ := List.exists_cons_of_ne_nil some
  rw [List.tail_cons] at filled
  by_cases last : others.getLast? = Option.some []
  · obtain ⟨front, rfl⟩ := List.getLast?_eq_some_iff.mp last
    rw [List.dropLast_concat] at filled
    have single : ∀ next ∈ line :: front, '\n' ∉ next := by
      intro next member
      apply plain next
      rw [← List.cons_append]
      exact List.mem_append_left _ member
    have whole := stretchesAfter_join filled single ['\n']
    have shape : Text.join ['\n'] (line :: (front ++ [[]])) =
        Text.join ['\n'] (line :: front) ++ ['\n'] := by
      rw [← List.cons_append, Text.join_append _ (List.cons_ne_nil _ _) (List.cons_ne_nil _ _)]
      simp
    rw [shape, stretches, whole]
    rfl
  · have every : ∀ next ∈ others, next ≠ [] := by
      rintro next member rfl
      by_cases none : others = []
      · rw [none] at member
        cases member
      · rw [← List.dropLast_append_getLast none, List.mem_append, List.mem_singleton] at member
        rcases member with early | final
        · exact filled [] early rfl
        · exact last (by rw [List.getLast?_eq_some_getLast none, ← final])
    have whole := stretchesAfter_join every plain []
    rw [List.append_nil] at whole
    rw [stretches, whole, stretchesAfter, if_neg (by omega)]
    simp [Chain.mapHead]

namespace Sheets

def runLength (clears : Bool) : Nat := if clears then 3 else 2

theorem two_le_runLength (clears : Bool) : 2 ≤ runLength clears := by
  cases clears <;> decide

/-- Sheets as pagination makes them: none is empty, and only the first and the last of all lines
can be empty. -/
structure Clean (sheets : Sheets) : Prop where
  filled : ∀ lines ∈ sheets.pieces, lines ≠ []
  inner : ∀ line ∈ sheets.lines.tail.dropLast, line ≠ []
  plain : ∀ line ∈ sheets.lines, Text.OneLine line

theorem sections_ne_nil {sheets : Sheets} (filled : ∀ lines ∈ sheets.pieces, lines ≠ []) :
    sheets.sections ≠ [] := by
  cases sheets with
  | one lines => simpa [sections, Block.closeSection, Chain.pieces] using filled
  | cons lines clears rest =>
      have first := filled lines (by simp [Chain.pieces])
      simp [sections, Block.closeSection, first]

theorem content_eq {sheets : Sheets} (filled : ∀ lines ∈ sheets.pieces, lines ≠ []) :
    sheets.content = weave (sheets.map (Text.join ['\n']) runLength) := by
  induction sheets with
  | one lines =>
      have some := filled lines (by simp [Chain.pieces])
      simp [content, sections, Block.closeSection, some, Chain.map, weave]
  | cons lines clears rest ih =>
      have some := filled lines (by simp [Chain.pieces])
      have others : ∀ next ∈ rest.pieces, next ≠ [] := fun next member =>
        filled next (by simp [Chain.pieces, member])
      have later := ih others
      have more := sections_ne_nil others
      rw [Chain.map, weave, ← later, content, sections, Block.closeSection]
      rw [if_neg (by simpa using some), List.singleton_append, Text.join_cons _ _ more, ← content]
      cases clears <;> simp [runLength, List.replicate]

theorem lines_ne_nil {sheets : Sheets} (filled : ∀ lines ∈ sheets.pieces, lines ≠ []) :
    sheets.lines ≠ [] := by
  obtain ⟨first, others, shape⟩ := List.exists_cons_of_ne_nil sheets.pieces_ne_nil
  simp [Sheets.lines, shape, filled first (by simp [shape])]

theorem Clean.rest {lines : List Text} {clears : Bool} {rest : Sheets}
    (clean : Clean (.cons lines clears rest)) :
    Clean rest ∧ (∀ line ∈ lines.tail, line ≠ []) ∧ ∀ line ∈ rest.lines.dropLast, line ≠ [] := by
  have others : ∀ next ∈ rest.pieces, next ≠ [] := fun next member =>
    clean.filled next (by simp [Chain.pieces, member])
  obtain ⟨line, following, rfl⟩ :=
    List.exists_cons_of_ne_nil (clean.filled lines (by simp [Chain.pieces]))
  have whole : (Sheets.lines (.cons (line :: following) clears rest)).tail.dropLast =
      following ++ rest.lines.dropLast := List.dropLast_append_of_ne_nil (lines_ne_nil others)
  have inner := clean.inner
  rw [whole] at inner
  have below : ∀ line ∈ rest.lines.dropLast, line ≠ [] := fun line member =>
    inner line (List.mem_append_right _ member)
  refine ⟨⟨others, ?_, ?_⟩, fun line member => inner line (List.mem_append_left _ member), below⟩
  · intro line member
    rw [← List.tail_dropLast] at member
    exact below line (List.mem_of_mem_tail member)
  · intro line member
    exact clean.plain line (List.mem_append_right _ member)

theorem head?_weave {sheets : Sheets} (clean : Clean sheets)
    (filled : ∀ line ∈ sheets.lines.dropLast, line ≠ []) :
    (weave (sheets.map (Text.join ['\n']) runLength)).head? ≠ some '\n' := by
  have first : ∀ line ∈ sheets.lines, line.head? ≠ some '\n' := fun line member same =>
    (clean.plain line member).1 (List.mem_of_head? same)
  cases sheets with
  | one lines =>
      obtain ⟨line, others, rfl⟩ :=
        List.exists_cons_of_ne_nil (clean.filled lines (by simp [Chain.pieces]))
      have visible := first line (by simp [Sheets.lines, Chain.pieces])
      rw [Chain.map, weave]
      by_cases last : others = []
      · rw [last, Text.join_singleton]
        exact visible
      · have some : line ≠ [] := by
          apply filled line
          simp [Sheets.lines, Chain.pieces, List.dropLast_cons_of_ne_nil last]
        have head := head?_join some others []
        rw [List.append_nil] at head
        rw [head]
        exact visible
  | cons lines clears rest =>
      have more := lines_ne_nil clean.rest.1.filled
      obtain ⟨line, others, rfl⟩ :=
        List.exists_cons_of_ne_nil (clean.filled lines (by simp [Chain.pieces]))
      have whole : (Sheets.lines (.cons (line :: others) clears rest)).dropLast =
          line :: others ++ (Sheets.lines rest).dropLast := List.dropLast_append_of_ne_nil more
      have some := filled line (by simp [whole])
      rw [Chain.map, weave, List.append_assoc, head?_join some]
      exact first line (List.mem_append_left _ (List.mem_cons_self ..))

/-- The stretches of the text that is read from sheets are those sheets. -/
theorem stretches_weave {sheets : Sheets} (clean : Clean sheets) :
    stretches (weave (sheets.map (Text.join ['\n']) runLength)) =
      sheets.map (Text.join ['\n']) runLength := by
  induction sheets with
  | one lines =>
      have shape : Sheets.lines (.one lines) = lines := by simp [Sheets.lines, Chain.pieces]
      have inner := clean.inner
      have plain := clean.plain
      rw [shape] at inner plain
      exact stretches_join (clean.filled lines (by simp [Chain.pieces])) inner
        fun line member => (plain line member).1
  | cons lines clears rest ih =>
      obtain ⟨below, filled, later⟩ := clean.rest
      obtain ⟨line, others, rfl⟩ :=
        List.exists_cons_of_ne_nil (clean.filled lines (by simp [Chain.pieces]))
      have plain : ∀ next ∈ line :: others, '\n' ∉ next := fun next member =>
        (clean.plain next (List.mem_append_left _ member)).1
      rw [List.tail_cons] at filled
      have start := head?_weave below later
      rw [Chain.map, weave, List.append_assoc, stretches, stretchesAfter_join filled plain,
        stretchesAfter_newlines, Nat.zero_add, stretchesAfter_run (two_le_runLength clears) start,
        ← stretches, ih below]
      simp [Chain.mapHead]

theorem return_not_mem_content {sheets : Sheets} (clean : Clean sheets) : '\r' ∉ sheets.content := by
  rw [content_eq clean.filled]
  have plain := clean.plain
  clear clean
  induction sheets with
  | one lines =>
      intro member
      rcases mem_intercalate member with newline | ⟨line, listed, inside⟩
      · cases List.mem_singleton.mp newline
      · exact (plain line (by simpa [Sheets.lines, Chain.pieces] using listed)).2 inside
  | cons lines clears rest ih =>
      have later := ih fun line member => plain line (List.mem_append_right _ member)
      rw [Chain.map, weave, List.mem_append, List.mem_append]
      rintro ((first | newline) | others)
      · rcases mem_intercalate first with newline | ⟨line, listed, inside⟩
        · cases List.mem_singleton.mp newline
        · exact (plain line (List.mem_append_left _ listed)).2 inside
      · cases List.eq_of_mem_replicate newline
      · exact later others

theorem sheets_content {width : Nat} {sheets : Sheets} (clean : Clean sheets)
    (stable : ∀ line ∈ sheets.lines, displayLines width line = [line]) :
    Note.sheets width sheets.content = sheets := by
  have pieces : ∀ lines ∈ sheets.pieces, groupLines width (Text.join ['\n'] lines) = id lines := by
    intro lines member
    have inside : ∀ line ∈ lines, line ∈ sheets.lines := fun line listed =>
      List.mem_flatten.mpr ⟨lines, member, listed⟩
    rw [groupLines, Text.split_join (clean.filled lines member)
      fun line listed => (clean.plain line (inside line listed)).1]
    calc
      _ = lines.flatMap fun line => [line] :=
        List.flatMap_congr fun line listed => stable line (inside line listed)
      _ = lines := List.flatMap_singleton' lines
  have gaps : ∀ clears ∈ sheets.gaps, decide (3 ≤ runLength clears) = id clears := by
    intro clears _
    cases clears <;> rfl
  calc
    Note.sheets width sheets.content =
        (stretches (weave (sheets.map (Text.join ['\n']) runLength))).map (groupLines width)
          fun run => decide (3 ≤ run) := by
      rw [Note.sheets, Text.unifyNewlines_of_not_mem (return_not_mem_content clean),
        content_eq clean.filled]
    _ = sheets.map id id := by
      rw [stretches_weave clean, Chain.map_map, Chain.map_congr pieces gaps]
    _ = sheets := Chain.map_id sheets

end Sheets

end CalcApp.Note
