import CalcApp.Proofs.Instruction
import CalcApp.Proofs.Listing.Labelled
import Mathlib.Algebra.Ring.Nat

namespace CalcApp

namespace Text

def extent (lines : List Text) : Nat := (lines.map List.length).sum

@[simp] theorem extent_nil : extent [] = 0 := rfl

@[simp] theorem extent_cons (line : Text) (rest : List Text) :
    extent (line :: rest) = line.length + extent rest := rfl

@[simp] theorem extent_append (front back : List Text) :
    extent (front ++ back) = extent front + extent back := by
  simp [extent]

theorem length_trimStart_le (text : Text) : (trimStart text).length ≤ text.length :=
  (List.dropWhile_sublist _).length_le

theorem length_trimEnd_le (text : Text) : (trimEnd text).length ≤ text.length := by
  have shorter := (List.dropWhile_sublist (l := text.reverse) isBlank).length_le
  rw [List.length_reverse] at shorter
  rw [trimEnd, List.length_reverse]
  exact shorter

theorem length_unifyNewlines_le (text : Text) : (unifyNewlines text).length ≤ text.length := by
  induction text using unifyNewlines.induct with
  | case1 rest ih =>
      rw [unifyNewlines]
      simp only [List.length_cons]
      omega
  | case2 c rest _ ih =>
      rw [unifyNewlines]
      · simp only [List.length_cons]
        omega
      · assumption
  | case3 => exact Nat.le_refl _

theorem extent_split_le (separator : Char) (text : Text) :
    extent (split separator text) ≤ text.length := by
  induction text with
  | nil => exact Nat.le_refl _
  | cons c rest ih =>
      rw [split]
      split
      · simp only [extent_cons, List.length_nil, List.length_cons]
        omega
      · cases pieces : split separator rest with
        | nil => exact Nat.zero_le _
        | cons first others =>
            rw [pieces, extent_cons] at ih
            simp only [List.modifyHead_cons, extent_cons, List.length_cons]
            omega

theorem length_dropReturn_le (line : Text) : (dropReturn line).length ≤ line.length := by
  unfold dropReturn
  split
  · exact (List.dropLast_sublist line).length_le
  · exact Nat.le_refl _

theorem extent_map_dropReturn_le (lines : List Text) : extent (lines.map dropReturn) ≤ extent lines := by
  induction lines with
  | nil => exact Nat.le_refl _
  | cons line rest ih => exact Nat.add_le_add (length_dropReturn_le line) ih

theorem extent_lines_le (text : Text) : extent (lines text) ≤ text.length := by
  have some := split_ne_nil '\n' text
  have pieces := extent_split_le '\n' text
  have front := extent_map_dropReturn_le (split '\n' text).dropLast
  have back : extent (if ((split '\n' text).getLast some).isEmpty then []
      else [(split '\n' text).getLast some]) ≤ ((split '\n' text).getLast some).length := by
    split
    · exact Nat.zero_le _
    · exact Nat.le_refl _
  rw [← List.dropLast_concat_getLast some, extent_append, extent_cons, extent_nil] at pieces
  rw [lines, List.getLast?_eq_some_getLast some, extent_append]
  exact Nat.le_trans (Nat.add_le_add front back) pieces

theorem extent_runsAfter_le (p : Text → Bool) (run lines : List Text) :
    ((runsAfter p run lines).map extent).sum ≤ extent run + extent lines := by
  induction lines generalizing run with
  | nil =>
      rw [runsAfter]
      split
      · exact Nat.zero_le _
      · exact Nat.le_refl _
  | cons line rest ih =>
      rw [runsAfter]
      split
      · have longer := ih (run ++ [line])
        simp only [extent_append, extent_cons, extent_nil] at longer ⊢
        omega
      · have later := ih []
        have closed : ((if run.isEmpty then [] else [run]).map extent).sum ≤ extent run := by
          split
          · exact Nat.zero_le _
          · exact Nat.le_refl _
        rw [List.map_append, List.sum_append]
        simp only [extent_cons, extent_nil] at later ⊢
        omega

end Text

namespace Instruction

theorem length_body_le (line : Text) : (body line).length ≤ line.length := by
  have colon : ∀ text : Text, (dropColon text).length ≤ text.length := by
    intro text
    unfold dropColon
    split
    · exact Nat.le_succ _
    · exact Nat.le_refl _
  calc
    (body line).length ≤ (dropColon (Text.trim line)).length := Text.length_trimStart_le _
    _ ≤ (Text.trim line).length := colon _
    _ ≤ (Text.trimStart line).length := Text.length_trimEnd_le _
    _ ≤ line.length := Text.length_trimStart_le _

theorem length_choices_le (text : Text) : (choices text).1.length ≤ text.length := by
  induction text using choices.induct with
  | case1 text choice rest found shorter ih =>
      rw [choices]
      split
      · rename_i read
        cases found.symm.trans read
        simp only [List.length_cons]
        omega
      · exact Nat.zero_le _
  | case2 text missing =>
      rw [choices]
      split
      · rename_i read
        cases missing.symm.trans read
      · exact Nat.zero_le _

theorem length_menu?_le {body title : Text} {written : List Choice}
    (read : menu? body = some (menu title written)) : written.length ≤ body.length := by
  simp only [menu?, Option.bind_eq_some_iff] at read
  obtain ⟨start, opened, ⟨heading, rest⟩, quote, read⟩ := read
  split at read
  · cases read
    have named := quoted?_shorter quote
    have gap := length_skipGap_le start
    have listed := length_choices_le rest
    have opening : start.length ≤ body.length := by
      unfold after? at opened
      split at opened
      · cases opened
        exact (List.drop_sublist _ _).length_le
      · cases opened
    show (choices rest).1.length ≤ body.length
    omega
  · cases read

theorem length_choices_of_ofLine {line title : Text} {written : List Choice}
    (read : ofLine line = menu title written) : written.length ≤ line.length :=
  Nat.le_trans (length_menu?_le (menu?_of_ofBody read)) (length_body_le line)

end Instruction

namespace Block

theorem length_entries_ofLines (first : Text) (rest : List Text) :
    (ofLines first rest).entries.length ≤ Text.extent (first :: rest) := by
  unfold ofLines
  split
  · rename_i title choices following clear read
    cases rest with
    | nil => cases read
    | cons second others =>
        have listed := Instruction.length_choices_of_ofLine (List.cons.inj read).1
        have kept : (ofMenu title choices).entries.length ≤ choices.length :=
          List.length_filter_le _ _
        simp only [Text.extent_cons]
        omega
  · split <;> exact Nat.zero_le _
  · exact Nat.zero_le _
  · exact Nat.zero_le _

theorem length_entries_classify {lines : List Text} {pair : Label × Block}
    (read : classify lines = some pair) : pair.2.entries.length ≤ Text.extent lines := by
  unfold classify at read
  split at read
  · rename_i head first rest
    split at read
    · cases read
      have listed := length_entries_ofLines first rest
      show (ofLines first rest).entries.length ≤ Text.extent (head :: first :: rest)
      rw [Text.extent_cons]
      omega
    · cases read
  · cases read

end Block

namespace Listing

def entryCount (pairs : List (Label × Block)) : Nat :=
  (pairs.map fun pair => pair.2.entries.length).sum

@[simp] theorem entryCount_cons (pair : Label × Block) (rest : List (Label × Block)) :
    entryCount (pair :: rest) = pair.2.entries.length + entryCount rest := rfl

theorem entryCount_le_sum {measure : List Text → Nat}
    (bound : ∀ {lines pair}, Block.classify lines = some pair →
      pair.2.entries.length ≤ measure lines) (blocks : List (List Text)) :
    entryCount (blocks.filterMap Block.classify) ≤ (blocks.map measure).sum := by
  induction blocks with
  | nil => exact Nat.le_refl _
  | cons lines rest ih =>
      rw [List.map_cons, List.sum_cons]
      cases read : Block.classify lines with
      | none =>
          rw [List.filterMap_cons_none read]
          omega
      | some pair =>
          have own := bound read
          rw [List.filterMap_cons_some read, entryCount_cons]
          omega

theorem entryCount_labelled_le (text : Text) : entryCount (labelled text) ≤ text.length := by
  have lines := Text.extent_lines_le (Text.unifyNewlines text)
  have runs := Text.extent_runsAfter_le (fun line => !Text.blank line) []
    (Text.lines (Text.unifyNewlines text))
  rw [Text.extent_nil, Nat.zero_add] at runs
  calc
    entryCount (labelled text)
      ≤ ((Text.paragraphs (Text.lines (Text.unifyNewlines text))).map Text.extent).sum :=
        entryCount_le_sum Block.length_entries_classify _
    _ ≤ Text.extent (Text.lines (Text.unifyNewlines text)) := runs
    _ ≤ (Text.unifyNewlines text).length := lines
    _ ≤ text.length := Text.length_unifyNewlines_le text

theorem entryCount_define_le (label : Label) (block : Block) (listing : Listing) :
    entryCount (define label block listing) ≤ entryCount listing + block.entries.length := by
  induction listing with
  | nil => exact Nat.le_of_eq (Nat.add_comm _ _)
  | cons entry rest ih =>
      obtain ⟨known, old⟩ := entry
      rw [define]
      split
      · simp only [entryCount_cons]
        omega
      · simp only [entryCount_cons]
        omega

theorem entryCount_defineAll_le (listing : Listing) (pairs : List (Label × Block)) :
    entryCount (defineAll listing pairs) ≤ entryCount listing + entryCount pairs := by
  induction pairs generalizing listing with
  | nil => exact Nat.le_refl _
  | cons pair rest ih =>
      have first := entryCount_define_le pair.1 pair.2 listing
      have later := ih (define pair.1 pair.2 listing)
      rw [defineAll, List.foldl_cons, ← defineAll, entryCount_cons]
      omega

theorem sum_if_le {labels : List Label} (distinct : labels.Nodup) (known : Label) (own : Nat)
    (value : Label → Nat) :
    (labels.map fun label => if label = known then own else value label).sum ≤
      own + (labels.map value).sum := by
  induction labels with
  | nil => exact Nat.zero_le _
  | cons label rest ih =>
      rw [List.nodup_cons] at distinct
      have later := ih distinct.2
      simp only [List.map_cons, List.sum_cons]
      split
      · rename_i same
        have others : (rest.map fun label => if label = known then own else value label) =
            rest.map value := by
          apply List.map_congr_left
          intro other member
          rw [if_neg]
          rintro rfl
          exact distinct.1 (same ▸ member)
        rw [others]
        omega
      · omega

theorem length_targets_le (listing : Listing) {labels : List Label} (distinct : labels.Nodup) :
    (labels.flatMap listing.blocks.targets).length ≤ entryCount listing := by
  rw [List.length_flatMap]
  induction listing with
  | nil => simp [BlockMap.targets, blocks, entryCount]
  | cons entry rest ih =>
      have split : ∀ label ∈ labels, (BlockMap.targets (blocks (entry :: rest)) label).length =
          if label = entry.1 then entry.2.entries.length
          else (BlockMap.targets (blocks rest) label).length := by
        intro label _
        unfold BlockMap.targets blocks
        rw [lookup_cons_if]
        by_cases same : label = entry.1 <;> simp [same]
      rw [List.map_congr_left split, entryCount_cons]
      exact Nat.le_trans (sum_if_le distinct entry.1 _ _) (Nat.add_le_add_left ih _)

end Listing

end CalcApp
