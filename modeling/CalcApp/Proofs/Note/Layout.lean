import CalcApp.Proofs.Note.Greedy
import Mathlib.Tactic.MkIffOfInductiveProp

/-! Word wrap among all ways to lay words out on lines. Lines that fit and are broken only where
they must be are the lines that wrapping their text gives, so that wrapping twice changes nothing.
Wrapping makes such lines, and no layout of the same words has fewer. -/

namespace CalcApp.Note

theorem Fits.wrapWords_forced {width : Nat} {current line : Text} (fits : Fits width line)
    (begun : current ≠ []) (forced : Forced width current line) (rest : List Text) :
    wrapWords width current (Text.split ' ' line ++ rest) =
      current :: wrapWords width line rest := by
  obtain ⟨first, others, pieces, _, short, whole⟩ := fits.pieces
  have start : Text.firstWord line = first := by
    rw [Text.firstWord, pieces]
    rfl
  have full : ¬ current.length + first.length + 1 ≤ width := by
    rw [Forced, start] at forced
    omega
  rw [pieces, List.cons_append, wrapWords_full begun short full, whole]

theorem wrapWords_lines {width : Nat} {line : Text} {lines : List Text} (begun : line ≠ [])
    (fits : ∀ next ∈ lines, Fits width next) (breaks : (line :: lines).IsChain (Forced width)) :
    wrapWords width line (lines.flatMap (Text.split ' ')) = line :: lines := by
  induction lines generalizing line with
  | nil => rw [List.flatMap_nil, wrapWords, if_neg (by simpa using begun)]
  | cons next rest ih =>
      obtain ⟨here, below⟩ := List.forall_mem_cons.mp fits
      have later := ih here.filled below breaks.of_cons
      have forced : Forced width line next := List.rel_of_isChain_cons_cons breaks
      rw [List.flatMap_cons, here.wrapWords_forced begun forced, later]

/-- Lines that fit and are broken only where they must be come back when their text is wrapped. -/
theorem wrap_join_lines {width : Nat} {lines : List Text} (some : lines ≠ [])
    (fits : ∀ line ∈ lines, Fits width line) (breaks : lines.IsChain (Forced width)) :
    wrap (Text.join [' '] lines) width = lines := by
  obtain ⟨line, rest, rfl⟩ := List.exists_cons_of_ne_nil some
  obtain ⟨here, below⟩ := List.forall_mem_cons.mp fits
  obtain ⟨first, others, pieces, _, short, whole⟩ := here.pieces
  have again : wrapWords width [] (Text.split ' ' (Text.join [' '] (line :: rest))) =
      line :: rest := by
    calc
      _ = wrapWords width [] (first :: (others ++ rest.flatMap (Text.split ' '))) := by
        rw [Text.split_join_flatMap ' ' some, List.flatMap_cons, pieces, List.cons_append]
      _ = wrapWords width line (rest.flatMap (Text.split ' ')) := by
        rw [wrapWords_start short, whole]
      _ = line :: rest := wrapWords_lines here.filled below breaks
  rw [wrap, again]
  rfl

theorem wrap_nil (width : Nat) : wrap [] width = [[]] := by
  simp [wrap, Text.split, wrapWords]

/-- Wrapping a text that was wrapped gives the same lines, and each of them is a line of its own. -/
theorem wrap_stable (text : Text) (width : Nat) :
    wrap (Text.join [' '] (wrap text width)) width = wrap text width ∧
      ∀ line ∈ wrap text width, wrap line width = [line] := by
  have spaceless : ∀ piece ∈ Text.split ' ' text, ' ' ∉ piece := fun piece listed =>
    Text.not_mem_of_mem_split listed
  have fits : ∀ line ∈ wrapWords width [] (Text.split ' ' text), Fits width line :=
    wrapWords_fits spaceless (.inl rfl)
  by_cases none : wrapWords width [] (Text.split ' ' text) = []
  · have empty : wrap text width = [[]] := by
      rw [wrap, none]
      rfl
    rw [empty]
    refine ⟨wrap_nil width, ?_⟩
    intro line member
    rw [List.mem_singleton.mp member, wrap_nil]
  · have shown : wrap text width = wrapWords width [] (Text.split ' ' text) :=
      if_neg (by simpa using none)
    rw [shown]
    exact ⟨wrap_join_lines none fits (forced_wrapWords spaceless),
      fun line member => (fits line member).wrap⟩

-- words are cut, and spaces are kept at the end of a line only
example : wrap "  abcdef   a  b ".toList 3 = ["abc".toList, "a ".toList, "b ".toList] := by decide

/-- A way to set words on lines of a width: the words on each line, in order. -/
@[mk_iff]
structure Layout (width : Nat) (words : List Text) (parts : List (List Text)) : Prop where
  flatten : parts.flatten = words
  filled : ∀ part ∈ parts, part ≠ []
  fits : ∀ part ∈ parts, (Text.join [' '] part).length ≤ width

instance (width : Nat) (words : List Text) (parts : List (List Text)) :
    Decidable (Layout width words parts) :=
  decidable_of_iff _ (layout_iff width words parts).symm

@[mk_iff]
structure Word (width : Nat) (word : Text) : Prop where
  filled : word ≠ []
  spaceless : ' ' ∉ word
  length : word.length ≤ width

instance (width : Nat) (word : Text) : Decidable (Word width word) :=
  decidable_of_iff _ (word_iff width word).symm

/-- The shorter line in progress stays ahead of the longer one, but by no more than a line. -/
theorem wrapWords_ahead {width : Nat} {words : List Text} (shown : ∀ word ∈ words, Word width word)
    {short long : Text} (first : short ≠ []) (second : long ≠ [])
    (ordered : short.length ≤ long.length) :
    (wrapWords width short words).length ≤ (wrapWords width long words).length ∧
      (wrapWords width long words).length ≤ (wrapWords width short words).length + 1 := by
  induction words generalizing short long with
  | nil => simp [wrapWords, first, second]
  | cons word rest ih =>
      obtain ⟨here, later⟩ := List.forall_mem_cons.mp shown
      by_cases room : short.length + word.length + 1 ≤ width
      · rw [wrapWords_room first room]
        by_cases wide : long.length + word.length + 1 ≤ width
        · have still : (short ++ ' ' :: word).length ≤ (long ++ ' ' :: word).length := by
            rw [List.length_append, List.length_append]
            omega
          rw [wrapWords_room second wide]
          exact ih later (by simp) (by simp) still
        · -- the longer line ends, and the word alone is now ahead of the line that it joins
          have behind : word.length ≤ (short ++ ' ' :: word).length := by
            rw [List.length_append, List.length_cons]
            omega
          have gained := ih later here.filled (by simp) behind
          rw [wrapWords_full second here.length wide, List.length_cons]
          omega
      · rw [wrapWords_full first here.length room, wrapWords_full second here.length (by omega)]
        exact ⟨Nat.le_refl _, Nat.le_succ _⟩

/-- A line in progress adds at most one line to those of the words behind it. -/
theorem length_wrapWords_le {width : Nat} {words : List Text}
    (shown : ∀ word ∈ words, Word width word) {current : Text} (begun : current ≠ []) :
    (wrapWords width current words).length ≤ (wrapWords width [] words).length + 1 := by
  cases words with
  | nil => simp [wrapWords, begun]
  | cons word rest =>
      obtain ⟨here, later⟩ := List.forall_mem_cons.mp shown
      rw [wrapWords_start here.length]
      by_cases room : current.length + word.length + 1 ≤ width
      · have behind : word.length ≤ (current ++ ' ' :: word).length := by
          rw [List.length_append, List.length_cons]
          omega
        rw [wrapWords_room begun room]
        exact (wrapWords_ahead later here.filled (by simp) behind).2
      · rw [wrapWords_full begun here.length room, List.length_cons]

theorem Layout.length_wrapWords_le {width : Nat} {words : List Text} {parts : List (List Text)}
    (layout : Layout width words parts) (shown : ∀ word ∈ words, Word width word) :
    (wrapWords width [] words).length ≤ parts.length := by
  obtain ⟨rfl, filled, fits⟩ := layout
  induction parts with
  | nil => exact Nat.le_refl 0
  | cons part rest ih =>
      obtain ⟨word, others, rfl⟩ :=
        List.exists_cons_of_ne_nil (filled part (List.mem_cons_self ..))
      have here := shown word (by simp)
      have within := fits _ (List.mem_cons_self ..)
      have begun : Text.join [' '] (word :: others) ≠ [] := by
        have start := Text.length_first_le_join [' '] word others
        have some := List.length_pos_of_ne_nil here.filled
        apply List.ne_nil_of_length_pos
        omega
      have below : ∀ other ∈ rest.flatten, Word width other := fun other member =>
        shown other (List.mem_append_right _ member)
      have later := ih (fun other member => filled other (List.mem_cons_of_mem _ member))
        (fun other member => fits other (List.mem_cons_of_mem _ member)) below
      calc
        (wrapWords width [] (word :: others ++ rest.flatten)).length =
            (wrapWords width (Text.join [' '] (word :: others)) rest.flatten).length := by
          rw [List.cons_append, wrapWords_start here.length,
            wrapWords_append here.filled within]
        _ ≤ (wrapWords width [] rest.flatten).length + 1 := Note.length_wrapWords_le below begun
        _ ≤ rest.length + 1 := Nat.add_le_add_right later 1

theorem split_wrapWords {width : Nat} {words : List Text} (shown : ∀ word ∈ words, Word width word)
    {current : Text} (begun : current ≠ []) :
    (wrapWords width current words).flatMap (Text.split ' ') = Text.split ' ' current ++ words := by
  induction words generalizing current with
  | nil => simp [wrapWords, begun]
  | cons word rest ih =>
      obtain ⟨here, later⟩ := List.forall_mem_cons.mp shown
      have alone : Text.split ' ' word = [word] := Text.split_of_not_mem here.spaceless
      by_cases room : current.length + word.length + 1 ≤ width
      · rw [wrapWords_room begun room, ih later (by simp), Text.split_append, alone,
          List.append_assoc, List.singleton_append]
      · rw [wrapWords_full begun here.length room, List.flatMap_cons, ih later here.filled, alone,
          List.singleton_append]

theorem layout_wrapWords {width : Nat} {words : List Text}
    (shown : ∀ word ∈ words, Word width word) :
    Layout width words ((wrapWords width [] words).map (Text.split ' ')) := by
  constructor
  · cases words with
    | nil => rfl
    | cons word rest =>
        obtain ⟨here, later⟩ := List.forall_mem_cons.mp shown
        have whole := split_wrapWords later here.filled
        rw [wrapWords_start here.length, ← List.flatMap_def, whole,
          Text.split_of_not_mem here.spaceless, List.singleton_append]
  · intro part member
    obtain ⟨line, _, rfl⟩ := List.mem_map.mp member
    exact Text.split_ne_nil ' ' line
  · intro part member
    obtain ⟨line, listed, rfl⟩ := List.mem_map.mp member
    rw [Text.join_split]
    exact (wrapWords_fits (fun word inside => (shown word inside).spaceless) (.inl rfl) line
      listed).length

/-- Wrapping words that can be shown whole lays them out, and no layout has fewer lines. -/
theorem wrap_fewest_lines {width : Nat} {words : List Text} (some : words ≠ [])
    (shown : ∀ word ∈ words, Word width word) :
    (∃ parts, Layout width words parts ∧
        wrap (Text.join [' '] words) width = parts.map (Text.join [' '])) ∧
      ∀ parts, Layout width words parts →
        (wrap (Text.join [' '] words) width).length ≤ parts.length := by
  have layout := layout_wrapWords shown
  have begun : wrapWords width [] words ≠ [] := by
    intro none
    rw [none] at layout
    exact some layout.flatten.symm
  have lines : wrap (Text.join [' '] words) width = wrapWords width [] words := by
    rw [wrap, Text.split_join some fun word member => (shown word member).spaceless]
    exact if_neg (by simpa using begun)
  rw [lines]
  refine ⟨⟨_, layout, ?_⟩, fun parts other => other.length_wrapWords_le shown⟩
  rw [List.map_map]
  exact (List.map_id'' (fun line => Text.join_split ' ' line) _).symm

def tightWords : List Text := ["a".toList, "bb".toList, "cc".toList, "ddddd".toList, "e".toList]

theorem wrap_fewest_lines_tightWords :
    tightWords ≠ [] ∧ (∀ word ∈ tightWords, Word 5 word) ∧
      wrap (Text.join [' '] tightWords) 5 =
        ["a bb".toList, "cc".toList, "ddddd".toList, "e".toList] ∧
      Layout 5 tightWords
        [["a".toList], ["bb".toList, "cc".toList], ["ddddd".toList], ["e".toList]] ∧
      ∀ parts, Layout 5 tightWords parts → 4 ≤ parts.length := by
  have shown : ∀ word ∈ tightWords, Word 5 word := by decide
  have lines : wrap (Text.join [' '] tightWords) 5 =
      ["a bb".toList, "cc".toList, "ddddd".toList, "e".toList] := by decide
  refine ⟨by decide, shown, lines, by decide, ?_⟩
  have fewest := (wrap_fewest_lines (by decide) shown).2
  rw [lines] at fewest
  exact fewest

end CalcApp.Note
