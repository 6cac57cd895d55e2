import CalcApp.Note
import CalcApp.Proofs.Text

namespace CalcApp.Note

/-- A line that fits the screen and starts with a word. -/
structure Fits (width : Nat) (line : Text) : Prop where
  filled : line ≠ []
  start : line.head? ≠ some ' '
  length : line.length ≤ width

theorem wrapWords_start {width : Nat} {word : Text} (short : word.length ≤ width)
    (words : List Text) : wrapWords width [] (word :: words) = wrapWords width word words := by
  rw [wrapWords]
  split
  · rfl
  · rw [List.take_of_length_le short]
    rfl

theorem wrapWords_room {width : Nat} {current word : Text} (begun : current ≠ [])
    (room : current.length + word.length + 1 ≤ width) (words : List Text) :
    wrapWords width current (word :: words) = wrapWords width (current ++ ' ' :: word) words := by
  rw [wrapWords, if_pos room, if_neg (by simpa using begun)]

theorem wrapWords_full {width : Nat} {current word : Text} (begun : current ≠ [])
    (short : word.length ≤ width) (full : ¬ current.length + word.length + 1 ≤ width)
    (words : List Text) :
    wrapWords width current (word :: words) = current :: wrapWords width word words := by
  rw [wrapWords, if_neg full, if_neg (by simpa using begun), List.take_of_length_le short]
  rfl

theorem wrapWords_append {width : Nat} {current : Text} {words : List Text} (begun : current ≠ [])
    (fits : (Text.join [' '] (current :: words)).length ≤ width) (rest : List Text) :
    wrapWords width current (words ++ rest) =
      wrapWords width (Text.join [' '] (current :: words)) rest := by
  induction words generalizing current with
  | nil => rw [List.nil_append, Text.join_singleton]
  | cons word others ih =>
      have shape : Text.join [' '] (current :: word :: others) =
          Text.join [' '] ((current ++ ' ' :: word) :: others) := by
        rw [Text.join_cons _ _ (List.cons_ne_nil _ _)]
        by_cases last : others = []
        · subst last
          simp
        · rw [Text.join_cons _ _ last, Text.join_cons _ _ last]
          simp
      rw [shape] at fits ⊢
      have room : current.length + word.length + 1 ≤ width := by
        have start := Text.length_first_le_join [' '] (current ++ ' ' :: word) others
        rw [List.length_append, List.length_cons] at start
        omega
      rw [List.cons_append, wrapWords_room begun room, ih (by simp) fits]

theorem Fits.pieces {width : Nat} {line : Text} (fits : Fits width line) :
    ∃ first others, Text.split ' ' line = first :: others ∧ first ≠ [] ∧ first.length ≤ width ∧
      ∀ rest, wrapWords width first (others ++ rest) = wrapWords width line rest := by
  obtain ⟨first, others, pieces⟩ := List.exists_cons_of_ne_nil (Text.split_ne_nil ' ' line)
  have whole : Text.join [' '] (first :: others) = line := by rw [← pieces, Text.join_split]
  have shown : first ≠ [] := by
    intro none
    rw [none] at whole
    by_cases last : others = []
    · rw [last, Text.join_singleton] at whole
      exact fits.filled whole.symm
    · rw [Text.join_cons _ _ last] at whole
      exact fits.start (by simp [← whole])
  have within : (Text.join [' '] (first :: others)).length ≤ width := whole ▸ fits.length
  have short := (Text.length_first_le_join [' '] first others).trans within
  refine ⟨first, others, pieces, shown, short, ?_⟩
  intro rest
  rw [wrapWords_append shown within, whole]

theorem Fits.wrap {width : Nat} {line : Text} (fits : Fits width line) :
    Note.wrap line width = [line] := by
  obtain ⟨first, others, pieces, _, short, whole⟩ := fits.pieces
  have lines : wrapWords width [] (Text.split ' ' line) = [line] := by
    have ended := whole []
    rw [List.append_nil] at ended
    rw [pieces, wrapWords_start short, ended, wrapWords, if_neg (by simpa using fits.filled)]
  simp [Note.wrap, lines]

theorem wrapWords_fits {width : Nat} {words : List Text} (spaceless : ∀ word ∈ words, ' ' ∉ word)
    {current : Text} (start : current = [] ∨ Fits width current) :
    ∀ line ∈ wrapWords width current words, Fits width line := by
  induction words generalizing current with
  | nil =>
      intro line member
      by_cases empty : current = []
      · simp [wrapWords, empty] at member
      · have same : line = current := by simpa [wrapWords, empty] using member
        subst same
        exact start.resolve_left empty
  | cons word rest ih =>
      have others : ∀ other ∈ rest, ' ' ∉ other := fun other member =>
        spaceless other (by simp [member])
      have plain := spaceless word (by simp)
      have first : word.head? ≠ some ' ' := fun same => plain (List.mem_of_head? same)
      intro line member
      rw [wrapWords] at member
      split at member
      · rename_i room
        refine ih others ?_ line member
        by_cases empty : current = []
        · subst empty
          by_cases none : word = []
          · exact .inl (by simp [none])
          · exact .inr ⟨by simpa using none, by simpa using first, by simp at room ⊢; omega⟩
        · have begun := start.resolve_left empty
          refine .inr ⟨by simp [empty], ?_, ?_⟩
          · simpa [empty, List.head?_append_of_ne_nil _ empty] using begun.start
          · simp only [List.isEmpty_iff, empty, if_false, List.length_append, List.length_cons]
            omega
      · rcases List.mem_append.mp member with here | member
        · by_cases empty : current = []
          · simp [empty] at here
          · have same : line = current := by simpa [empty] using here
            subst same
            exact start.resolve_left empty
        · refine ih others ?_ line member
          by_cases none : word.take width = []
          · exact .inl none
          · refine .inr ⟨none, ?_, List.length_take_le _ _⟩
            rw [List.head?_take]
            split <;> simp_all

theorem mem_wrapWords {width : Nat} {words : List Text} {current line : Text} {c : Char}
    (member : line ∈ wrapWords width current words) (inside : c ∈ line) :
    c = ' ' ∨ c ∈ current ∨ ∃ word ∈ words, c ∈ word := by
  induction words generalizing current with
  | nil =>
      by_cases empty : current = []
      · simp [wrapWords, empty] at member
      · have same : line = current := by simpa [wrapWords, empty] using member
        exact .inr (.inl (same ▸ inside))
  | cons word rest ih =>
      rw [wrapWords] at member
      split at member
      · rcases ih member with space | now | ⟨other, listed, within⟩
        · exact .inl space
        · by_cases empty : current = []
          · exact .inr (.inr ⟨word, by simp, by simpa [empty] using now⟩)
          · simp only [List.isEmpty_iff, empty, if_false, List.mem_append, List.mem_cons] at now
            rcases now with before | space | within
            · exact .inr (.inl before)
            · exact .inl space
            · exact .inr (.inr ⟨word, by simp, within⟩)
        · exact .inr (.inr ⟨other, by simp [listed], within⟩)
      · rcases List.mem_append.mp member with here | member
        · by_cases empty : current = []
          · simp [empty] at here
          · have same : line = current := by simpa [empty] using here
            exact .inr (.inl (same ▸ inside))
        · rcases ih member with space | now | ⟨other, listed, within⟩
          · exact .inl space
          · exact .inr (.inr ⟨word, by simp, List.mem_of_mem_take now⟩)
          · exact .inr (.inr ⟨other, by simp [listed], within⟩)

theorem wrapWords_eq_nil {width : Nat} (wide : 1 ≤ width) {words : List Text} {current : Text}
    (none : wrapWords width current words = []) : current = [] ∧ ∀ word ∈ words, word = [] := by
  induction words generalizing current with
  | nil =>
      by_cases empty : current = []
      · exact ⟨empty, by simp⟩
      · simp [wrapWords, empty] at none
  | cons word rest ih =>
      rw [wrapWords] at none
      split at none
      · obtain ⟨now, later⟩ := ih none
        by_cases empty : current = []
        · exact ⟨empty, by simpa [empty] using And.intro (by simpa [empty] using now) later⟩
        · simp [empty] at now
      · obtain ⟨here, none⟩ := List.append_eq_nil_iff.mp none
        obtain ⟨now, later⟩ := ih none
        have empty : current = [] := by
          by_contra begun
          simp [begun] at here
        have word : word = [] := by
          rcases List.take_eq_nil_iff.mp now with zero | nothing
          · omega
          · exact nothing
        exact ⟨empty, by simpa [word] using later⟩

theorem displayLines_ne_nil (width : Nat) (line : Text) : displayLines width line ≠ [] := by
  rw [displayLines]
  split
  · simp
  · rw [wrap]
    split <;> simp_all

@[simp] theorem displayLines_nil (width : Nat) : displayLines width [] = [[]] := rfl

theorem Fits.displayLines {width : Nat} {line : Text} (fits : Fits width line)
    (shown : Text.blank line = false) : Note.displayLines width line = [line] := by
  rw [Note.displayLines, shown, fits.wrap]
  rfl

theorem mem_displayLines {width : Nat} {line shown : Text} {c : Char}
    (member : shown ∈ displayLines width line) (inside : c ∈ shown) : c = ' ' ∨ c ∈ line := by
  rw [displayLines] at member
  split at member
  · cases List.mem_singleton.mp member
    cases inside
  · rw [wrap] at member
    split at member
    · cases List.mem_singleton.mp member
      cases inside
    · rcases mem_wrapWords member inside with space | nothing | ⟨word, listed, within⟩
      · exact .inl space
      · cases nothing
      · exact .inr (Text.mem_of_mem_split listed within)

theorem oneLine_displayLines {width : Nat} {line shown : Text} (plain : Text.OneLine line)
    (member : shown ∈ displayLines width line) : Text.OneLine shown := by
  constructor
  · intro inside
    rcases mem_displayLines member inside with space | within
    · cases space
    · exact plain.1 within
  · intro inside
    rcases mem_displayLines member inside with space | within
    · cases space
    · exact plain.2 within

theorem displayLines_stable {width : Nat} (wide : 1 ≤ width) {line : Text}
    (shown : Text.blank line = false) (spaces : ∀ c ∈ line, Text.isBlank c = true → c = ' ') :
    ∀ part ∈ displayLines width line, part ≠ [] ∧ displayLines width part = [part] := by
  intro part member
  have wrapped : part ∈ wrapWords width [] (Text.split ' ' line) := by
    rw [displayLines, shown, if_neg (by simp), wrap] at member
    split at member
    · rename_i none
      -- a line that shows has a word, and of each word at least one character is kept
      obtain ⟨_, words⟩ := wrapWords_eq_nil wide (List.isEmpty_iff.mp none)
      obtain ⟨c, inside, visible⟩ : ∃ c ∈ line, Text.isBlank c = false := by
        simpa [Text.blank] using shown
      rw [← Text.join_split ' ' line] at inside
      rcases mem_intercalate inside with space | ⟨word, listed, within⟩
      · cases List.mem_singleton.mp space
        cases visible
      · rw [words word listed] at within
        cases within
    · exact member
  have fits : Fits width part :=
    wrapWords_fits (fun word listed => Text.not_mem_of_mem_split listed) (.inl rfl) part wrapped
  refine ⟨fits.filled, fits.displayLines ?_⟩
  obtain ⟨first, rest, rfl⟩ := List.exists_cons_of_ne_nil fits.filled
  have visible : Text.isBlank first = false := by
    by_contra blank
    have start : first ≠ ' ' := by simpa using fits.start
    rcases mem_displayLines member (List.mem_cons_self ..) with space | within
    · exact start space
    · exact start (spaces first within (by simpa using blank))
  simp [visible]

end CalcApp.Note
