import CalcApp.Proofs.MenuTree
import CalcApp.Proofs.Text

namespace CalcApp

namespace Text

def Paragraph (block : List Text) : Prop :=
  block ≠ [] ∧ ∀ line ∈ block, blank line = false ∧ OneLine line

instance (block : List Text) : Decidable (Paragraph block) := inferInstanceAs (Decidable (_ ∧ _))

/-- Lines that hold blocks in their order, with one or more blank lines between neighbours and any
number of blank lines around them. -/
inductive Holds : List Text → List (List Text) → Prop
  | none : Holds [] []
  | last (block : List Text) : Holds block [block]
  | gap (line : Text) {lines : List Text} {blocks : List (List Text)} (empty : blank line = true)
      (whole : OneLine line) (rest : Holds lines blocks) : Holds (line :: lines) blocks
  | block (block : List Text) (line : Text) {lines : List Text} {blocks : List (List Text)}
      (empty : blank line = true) (whole : OneLine line) (rest : Holds lines blocks) :
      Holds (block ++ line :: lines) (block :: blocks)

namespace Holds

variable {lines : List Text} {blocks : List (List Text)}

theorem oneLine (holds : Holds lines blocks) (proper : ∀ block ∈ blocks, Paragraph block) :
    ∀ line ∈ lines, OneLine line := by
  induction holds with
  | none => exact fun _ member => nomatch member
  | last block => exact fun line member => ((proper block (.head _)).2 line member).2
  | gap line empty whole rest ih =>
      intro line member
      rcases List.mem_cons.mp member with rfl | later
      · exact whole
      · exact ih proper line later
  | block block line empty whole rest ih =>
      intro line member
      rcases List.mem_append.mp member with inside | later
      · exact ((proper block (.head _)).2 line inside).2
      · rcases List.mem_cons.mp later with rfl | later
        · exact whole
        · exact ih (fun other listed => proper other (.tail _ listed)) line later

theorem paragraphs (holds : Holds lines blocks) (proper : ∀ block ∈ blocks, Paragraph block) :
    Text.paragraphs lines = blocks := by
  have shown : ∀ block ∈ blocks, ∀ line ∈ block, (!blank line) = true := by
    intro block listed line inside
    rw [((proper block listed).2 line inside).1, Bool.not_false]
  induction holds with
  | none => rfl
  | last block => exact runs_of_all (proper block (.head _)).1 (shown block (.head _))
  | gap line empty whole rest ih =>
      have later := ih proper shown
      rw [Text.paragraphs, runs] at later ⊢
      simpa [runsAfter, empty] using later
  | block block line empty whole rest ih =>
      have later := ih (fun other listed => proper other (.tail _ listed))
        fun other listed => shown other (.tail _ listed)
      rw [Text.paragraphs] at later ⊢
      rw [runs_append (proper block (.head _)).1 (shown block (.head _)) (by simp [empty]), later]

end Holds

end Text

namespace Block

def counts (lines : List Text) : Bool := (classify lines).isSome

def opens (lines : List Text) : Bool := BlockMap.isTop ((classify lines).map Prod.snd)

theorem filterMap_counts (blocks : List (List Text)) :
    (blocks.filter counts).filterMap classify = blocks.filterMap classify := by
  rw [List.filterMap_filter]
  congr 1
  funext lines
  cases read : classify lines <;> simp [counts, read]

end Block

namespace Listing

variable {first second : Listing}

theorem labelled_holds {lines : List Text} {blocks : List (List Text)}
    (holds : Text.Holds lines blocks) (proper : ∀ block ∈ blocks, Text.Paragraph block) :
    labelled (Text.join ['\n'] lines) = blocks.filterMap Block.classify := by
  rw [labelled, Text.paragraphs_lines (holds.oneLine proper), holds.paragraphs proper]

theorem lookup_perm (perm : first.Perm second) (distinct : (first.map Prod.fst).Nodup)
    (label : Label) : first.lookup label = second.lookup label := by
  cases found : first.lookup label with
  | some block =>
      obtain ⟨front, back, split, _⟩ := List.lookup_eq_some_iff.mp found
      have member : (label, block) ∈ second := perm.mem_iff.mp (by rw [split]; simp)
      exact (Program.lookup_of_mem ((perm.map Prod.fst).nodup_iff.mp distinct) member).symm
  | none =>
      rw [List.lookup_eq_none_iff] at found
      exact (List.lookup_eq_none_iff.mpr fun pair member =>
        found pair (perm.mem_iff.mpr member)).symm

theorem root?_filterMap (blocks : List (List Text)) :
    root? (blocks.filterMap Block.classify) =
      (blocks.find? Block.opens).bind fun lines => root? (Block.classify lines).toList := by
  induction blocks with
  | nil => rfl
  | cons lines rest ih =>
      cases read : Block.classify lines with
      | none =>
          rw [List.filterMap_cons_none read, List.find?_cons_of_neg (by simp [Block.opens, read,
            BlockMap.isTop]), ih]
      | some pair =>
          obtain ⟨label, block⟩ := pair
          rw [List.filterMap_cons_some read]
          by_cases top : Block.opens lines = true
          · rw [List.find?_cons_of_pos top, Option.bind_some, read]
            rw [Block.opens, read] at top
            obtain ⟨title, entries, same⟩ := BlockMap.isTop_iff.mp top
            cases same
            rfl
          · rw [List.find?_cons_of_neg top, ← ih, root?]
            rintro _ title entries same
            cases same
            rw [Block.opens, read] at top
            exact top rfl

/-- Reading follows labels only. -/
theorem unfold_congr (same : ∀ label, first.lookup label = second.lookup label)
    (above : List Label) (menu : Label) (progress : Progress) (entries : List Choice) :
    (unfold first above menu progress entries).result =
      (unfold second above menu progress entries).result := by
  induction above, menu, progress, entries using unfold.induct first with
  | case1 above menu progress => rw [result_unfold_nil, result_unfold_nil]
  | case2 above menu progress name target rest missing =>
      rw [result_unfold_unknown missing, result_unfold_unknown (same target ▸ missing)]
  | case3 above menu progress name target rest found ih =>
      rw [result_unfold_quit found, result_unfold_quit (same target ▸ found), ih]
  | case4 above menu progress name target rest content parent found ih =>
      rw [result_unfold_note found, result_unfold_note (same target ▸ found), ih]
  | case5 above menu progress name target rest content parent found ih =>
      rw [result_unfold_code found, result_unfold_code (same target ▸ found), ih]
  | case6 above menu progress name target rest title entries parent found ihBelow ihLater =>
      rw [result_unfold_menu found, result_unfold_menu (same target ▸ found)]
      split
      · rfl
      · rename_i off
        split
        · rfl
        · rw [ihBelow off]
          congr 1
          funext inner
          rw [ihLater inner.2]

theorem outline_congr (same : ∀ label, first.lookup label = second.lookup label)
    (root : first.root? = second.root?) : first.outline.result = second.outline.result := by
  rw [outline, outline, root]
  cases second.root? with
  | none => rfl
  | some top =>
      obtain ⟨label, title, entries⟩ := top
      dsimp only
      rw [Traced.result_bind, Traced.result_bind, unfold_congr same]

end Listing

namespace Outline

/-- The order of blocks with different labels does not matter to what is read, or to the failure,
as long as the first block that can be the root stays the same, and neither do blocks that define
no label: they may stand anywhere or be missing. -/
theorem parse_reordered {blocks others : List (List Text)} {lines otherLines : List Text}
    (proper : ∀ block ∈ blocks, Text.Paragraph block)
    (otherProper : ∀ block ∈ others, Text.Paragraph block)
    (written : Text.Holds lines blocks) (otherWritten : Text.Holds otherLines others)
    (distinct : ((blocks.filterMap Block.classify).map Prod.fst).Nodup)
    (reordered : (blocks.filter Block.counts).Perm (others.filter Block.counts))
    (opening : blocks.find? Block.opens = others.find? Block.opens) :
    (parse (Text.join ['\n'] lines)).result = (parse (Text.join ['\n'] otherLines)).result := by
  have perm : (blocks.filterMap Block.classify).Perm (others.filterMap Block.classify) := by
    rw [← Block.filterMap_counts blocks, ← Block.filterMap_counts others]
    exact reordered.filterMap Block.classify
  have otherDistinct := (perm.map Prod.fst).nodup_iff.mp distinct
  rw [parse_result, parse_result, Listing.labelled_holds written proper,
    Listing.labelled_holds otherWritten otherProper,
    Listing.defineAll_append (by simpa using distinct),
    Listing.defineAll_append (by simpa using otherDistinct), List.nil_append, List.nil_append]
  apply Listing.outline_congr
  · exact Listing.lookup_perm perm distinct
  · rw [Listing.root?_filterMap, Listing.root?_filterMap, opening]

def looseBlocks : List (List Text) :=
  [["Lbl AA".toList, "ClrHome".toList, "Menu(\"T\",\"S\",AB,\"C\",AC)".toList],
    ["Lbl AB".toList, "ClrHome".toList, "Menu(\"S\",\"C\",AC,\"Back\",AA)".toList],
    ["Lbl AC".toList, "X".toList], ["Lbl AD".toList, "ClrHome".toList, "Menu(\"U\")".toList]]

def shuffledBlocks : List (List Text) :=
  [["Lbl AC".toList, "X".toList], ["Goto AD".toList, "Lbl AD".toList],
    ["Lbl AB".toList, "ClrHome".toList, "Menu(\"S\",\"C\",AC,\"Back\",AA)".toList],
    ["Lbl AA".toList, "ClrHome".toList, "Menu(\"T\",\"S\",AB,\"C\",AC)".toList],
    ["Lbl AC".toList], ["Lbl AD".toList, "ClrHome".toList, "Menu(\"U\")".toList]]

theorem parse_reordered_looseBlocks :
    ∃ lines otherLines, Text.Holds lines looseBlocks ∧ Text.Holds otherLines shuffledBlocks ∧
      ((looseBlocks.filterMap Block.classify).map Prod.fst).Nodup ∧
      (looseBlocks.filter Block.counts).Perm (shuffledBlocks.filter Block.counts) ∧
      looseBlocks.find? Block.opens = shuffledBlocks.find? Block.opens ∧
      (parse (Text.join ['\n'] lines)).result = (parse (Text.join ['\n'] otherLines)).result ∧
      ((parse (Text.join ['\n'] lines)).result.toOption.map fun outline =>
        (outline.root.nodes.map Node.title, outline.nextId)) =
          some ([['T'], ['S'], ['C'], ['C']], 4) := by
  have written : Text.Holds _ looseBlocks :=
    .block _ [] rfl (by decide) (.block _ [] rfl (by decide)
      (.block _ [] rfl (by decide) (.last _)))
  have otherWritten : Text.Holds _ shuffledBlocks :=
    .gap [' '] rfl (by decide) (.block _ [] rfl (by decide)
      (.block _ ['\t'] rfl (by decide) (.gap [] rfl (by decide)
        (.block _ [] rfl (by decide) (.block _ [] rfl (by decide)
          (.block _ [] rfl (by decide) (.block _ [] rfl (by decide) .none)))))))
  have distinct : ((looseBlocks.filterMap Block.classify).map Prod.fst).Nodup := by decide +kernel
  have reordered : (looseBlocks.filter Block.counts).Perm (shuffledBlocks.filter Block.counts) := by
    decide +kernel
  have opening : looseBlocks.find? Block.opens = shuffledBlocks.find? Block.opens := by
    decide +kernel
  exact ⟨_, _, written, otherWritten, distinct, reordered, opening,
    parse_reordered (by decide +kernel) (by decide +kernel) written otherWritten distinct reordered
      opening, by decide +kernel⟩

end Outline

end CalcApp
