import CalcApp.Proofs.Note.Wrap
import Mathlib.Data.List.Chain

namespace CalcApp

namespace Text

def filled (pieces : List Text) : List Text := pieces.filter fun piece => !piece.isEmpty

def words (text : Text) : List Text := filled (split ' ' text)

def firstWord (text : Text) : Text := (split ' ' text).headD []

@[simp] theorem filled_nil : filled [] = [] := rfl

theorem filled_cons (piece : Text) (rest : List Text) :
    filled (piece :: rest) = filled [piece] ++ filled rest :=
  List.filter_append [piece] rest

theorem filled_map_take (width : Nat) (pieces : List Text) :
    filled ((filled pieces).map (List.take width)) = filled (pieces.map (List.take width)) := by
  induction pieces with
  | nil => rfl
  | cons piece rest ih =>
      rw [filled_cons, List.map_append, List.map_cons, filled_cons (piece.take width)]
      cases piece with
      | nil => simpa [filled] using ih
      | cons first others =>
          rw [← ih]
          exact filled_cons _ _

theorem words_append (front back : Text) :
    words (front ++ ' ' :: back) = words front ++ words back := by
  rw [words, split_append]
  exact List.filter_append ..

theorem words_of_not_mem {text : Text} (spaceless : ' ' ∉ text) : words text = filled [text] := by
  rw [words, split_of_not_mem spaceless]

theorem firstWord_of_not_mem {text : Text} (spaceless : ' ' ∉ text) : firstWord text = text := by
  rw [firstWord, split_of_not_mem spaceless]
  rfl

theorem firstWord_append (front back : Text) :
    firstWord (front ++ ' ' :: back) = firstWord front := by
  obtain ⟨first, others, pieces⟩ := List.exists_cons_of_ne_nil (split_ne_nil ' ' front)
  rw [firstWord, firstWord, split_append, pieces]
  rfl

end Text

namespace Note

open Text (filled words firstWord)

theorem words_ended (line : Text) :
    (if line.isEmpty then [] else [line]).flatMap words = words line := by
  cases line with
  | nil => rfl
  | cons first rest => exact List.flatMap_singleton ..

theorem words_extended (line piece : Text) :
    words (if line.isEmpty then piece else line ++ ' ' :: piece) = words line ++ words piece := by
  cases line with
  | nil => rfl
  | cons first rest => exact Text.words_append (first :: rest) piece

/-- Wrapping shows the words of the line in progress, and of each word that follows as much as fits
a line. -/
theorem words_wrapWords {width : Nat} {pieces : List Text} {current : Text}
    (spaceless : ∀ piece ∈ pieces, ' ' ∉ piece) :
    (wrapWords width current pieces).flatMap words =
      words current ++ filled (pieces.map (List.take width)) := by
  induction pieces generalizing current with
  | nil => rw [wrapWords, words_ended, List.map_nil, Text.filled_nil, List.append_nil]
  | cons piece rest ih =>
      have others : ∀ other ∈ rest, ' ' ∉ other := fun other member =>
        spaceless other (.tail _ member)
      have plain : ' ' ∉ piece.take width := fun member =>
        spaceless piece (List.mem_cons_self ..) (List.mem_of_mem_take member)
      rw [wrapWords, List.map_cons, Text.filled_cons, ← Text.words_of_not_mem plain]
      split
      · have whole : piece.take width = piece := List.take_of_length_le (by omega)
        rw [ih others, words_extended, whole, List.append_assoc]
      · rw [List.flatMap_append, words_ended, ih others]

def Forced (width : Nat) (line next : Text) : Prop :=
  width < line.length + 1 + (firstWord next).length

theorem firstWord_wrapWords {width : Nat} {pieces : List Text} {current : Text}
    (begun : current ≠ []) :
    (wrapWords width current pieces).head?.map firstWord = some (firstWord current) := by
  have unempty : current.isEmpty = false := by simpa using begun
  induction pieces generalizing current with
  | nil =>
      rw [wrapWords, unempty]
      rfl
  | cons piece rest ih =>
      rw [wrapWords, unempty]
      split
      · have longer : current ++ ' ' :: piece ≠ [] := by simp
        rw [if_neg Bool.false_ne_true, ih longer (by simp), Text.firstWord_append]
      · rfl

theorem forced_of_full {width : Nat} {current piece next : Text}
    (full : ¬ current.length + piece.length + 1 ≤ width)
    (starts : piece.take width ≠ [] → firstWord next = piece.take width) :
    Forced width current next := by
  rw [Forced]
  by_cases nothing : piece.take width = []
  · -- the line is as long as the screen is wide, so that no word fits behind it
    rcases List.take_eq_nil_iff.mp nothing with zero | empty
    · omega
    · rw [empty, List.length_nil] at full
      omega
  · rw [starts nothing, List.length_take]
    omega

theorem forced_wrapWords {width : Nat} {pieces : List Text} {current : Text}
    (spaceless : ∀ piece ∈ pieces, ' ' ∉ piece) :
    (wrapWords width current pieces).IsChain (Forced width) := by
  induction pieces generalizing current with
  | nil =>
      rw [wrapWords]
      split
      · exact .nil
      · exact .singleton _
  | cons piece rest ih =>
      have others : ∀ other ∈ rest, ' ' ∉ other := fun other member =>
        spaceless other (.tail _ member)
      rw [wrapWords]
      split
      · exact ih others
      · rename_i full
        split
        · exact ih others
        · rw [List.singleton_append, List.isChain_cons]
          refine ⟨?_, ih others⟩
          intro next first
          apply forced_of_full full
          intro begun
          have plain : ' ' ∉ piece.take width := fun member =>
            spaceless piece (List.mem_cons_self ..) (List.mem_of_mem_take member)
          apply Option.some.inj
          calc
            some (firstWord next) = (wrapWords width (piece.take width) rest).head?.map firstWord := by
              rw [Option.mem_def.mp first, Option.map_some]
            _ = some (piece.take width) := by
              rw [firstWord_wrapWords begun, Text.firstWord_of_not_mem plain]

/-- What the lines of a wrapped text are: they fit the screen and start with a word, unless the
text has none to show; they have the words of the text, each cut to the width; and they are broken
only where the next word does not fit. -/
structure Wrapped (width : Nat) (text : Text) (lines : List Text) : Prop where
  shown : lines ≠ []
  fits : ∀ line ∈ lines, line.length ≤ width
  start : ∀ line ∈ lines, line.head? ≠ some ' '
  empty : [] ∈ lines → lines = [[]]
  words : lines.flatMap words = filled ((words text).map (List.take width))
  breaks : lines.IsChain (Forced width)

/-- Wrapping loses nothing of a text but the ends of words that are wider than the screen, and
breaks lines only where it must. -/
theorem wrap_greedy (text : Text) (width : Nat) : Wrapped width text (wrap text width) := by
  have spaceless : ∀ piece ∈ Text.split ' ' text, ' ' ∉ piece := fun piece listed =>
    Text.not_mem_of_mem_split listed
  have fits : ∀ line ∈ wrapWords width [] (Text.split ' ' text), Fits width line :=
    wrapWords_fits spaceless (.inl rfl)
  have kept : (wrapWords width [] (Text.split ' ' text)).flatMap words =
      filled ((words text).map (List.take width)) := by
    rw [words_wrapWords spaceless]
    exact (Text.filled_map_take width _).symm
  rw [wrap]
  split
  · -- no word shows, and an empty line stands for the text
    rename_i none
    rw [List.isEmpty_iff.mp none] at kept
    exact {
      shown := List.cons_ne_nil _ _
      fits := by simp
      start := by simp
      empty := fun _ => rfl
      words := kept
      breaks := .singleton _ }
  · rename_i some
    exact {
      shown := by simpa using some
      fits := fun line member => (fits line member).length
      start := fun line member => (fits line member).start
      empty := fun member => absurd rfl (fits [] member).filled
      words := kept
      breaks := forced_wrapWords spaceless }

end Note

end CalcApp
