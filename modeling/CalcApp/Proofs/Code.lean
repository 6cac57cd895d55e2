import CalcApp.Instruction
import CalcApp.Proofs.Text

namespace CalcApp.Code

def lines (content : Text) : List Text :=
  ((Text.split '\n' (Text.unifyNewlines content)).filter fun line => !Text.blank line).map
    Instruction.dropColon

def reread (content : Text) : Text := Text.join ['\n'] (lines content)

/-- Lines of code that are not taken for a menu, a note or the quit page. -/
def Recognizable : List Text → Prop
  | [] => True
  | first :: rest =>
    Text.trim first ≠ "Stop".toList ∧
      (Text.trim first = "ClrHome".toList →
        (∀ second ∈ rest.head?, Instruction.menu? (Text.trim second) = none) ∧
          ∀ line ∈ rest, Instruction.display? (Text.trim line) = none)

theorem mem_dropColon {line : Text} {c : Char} (member : c ∈ Instruction.dropColon line) : c ∈ line := by
  unfold Instruction.dropColon at member
  split at member
  · exact List.mem_cons_of_mem _ member
  · exact member

theorem oneLine_lines (content : Text) : ∀ line ∈ lines content, Text.OneLine line := by
  intro body member
  obtain ⟨line, listed, rfl⟩ := List.mem_map.mp member
  have plain := Text.oneLine_of_mem_split (Text.return_not_mem_unifyNewlines content)
    (List.mem_filter.mp listed).1
  exact ⟨fun inside => plain.1 (mem_dropColon inside), fun inside => plain.2 (mem_dropColon inside)⟩

instance (lines : List Text) : Decidable (Recognizable lines) :=
  match lines with
  | [] => inferInstanceAs (Decidable True)
  | _ :: _ => inferInstanceAs (Decidable (_ ∧ _))

def Bare (line : Text) : Prop := Text.blank line = false ∧ line.head? ≠ some ':'

instance (line : Text) : Decidable (Bare line) := inferInstanceAs (Decidable (_ ∧ _))

theorem lines_of_bare {content : Text} (unreturned : '\r' ∉ content)
    (bare : ∀ line ∈ Text.split '\n' content, Bare line) :
    lines content = Text.split '\n' content := by
  have shown : (Text.split '\n' content).filter (fun line => !Text.blank line) =
      Text.split '\n' content := by
    rw [List.filter_eq_self]
    intro line member
    simp [(bare line member).1]
  have whole : ∀ line ∈ Text.split '\n' content, Instruction.dropColon line = id line := by
    intro line member
    unfold Instruction.dropColon
    split
    · exact absurd rfl (bare _ member).2
    · rfl
  rw [lines, Text.unifyNewlines_of_not_mem unreturned, shown, List.map_congr_left whole, List.map_id]

theorem lines_reread {content : Text} (bare : ∀ line ∈ lines content, Bare line) :
    lines (reread content) = lines content := by
  by_cases none : lines content = []
  · rw [reread, none]
    rfl
  · have plain := oneLine_lines content
    have cut : Text.split '\n' (reread content) = lines content :=
      Text.split_join none fun line member => (plain line member).1
    have unreturned : '\r' ∉ reread content := by
      intro member
      rcases mem_intercalate member with newline | ⟨line, listed, inside⟩
      · cases List.mem_singleton.mp newline
      · exact (plain line listed).2 inside
    rw [lines_of_bare unreturned (by rw [cut]; exact bare), cut]

def Tidy (content : Text) : Prop :=
  content = [] ∨ '\r' ∉ content ∧ (∀ line ∈ Text.split '\n' content, Bare line) ∧
    Recognizable (Text.split '\n' content)

instance (content : Text) : Decidable (Tidy content) := inferInstanceAs (Decidable (_ ∨ _))

theorem Tidy.recognizable {content : Text} (tidy : Tidy content) : Recognizable (lines content) := by
  rcases tidy with rfl | ⟨unreturned, bare, recognizable⟩
  · trivial
  · rw [lines_of_bare unreturned bare]
    exact recognizable

theorem reread_tidy {content : Text} (tidy : Tidy content) : reread content = content := by
  rcases tidy with rfl | ⟨unreturned, bare, _⟩
  · rfl
  · rw [reread, lines_of_bare unreturned bare, Text.join_split]

end CalcApp.Code
