import CalcApp.Instruction
import CalcApp.Proofs.Text

namespace CalcApp

namespace Label

theorem letter_of_lt : ∀ n < 26, (letter n).isUpper = true ∧ (letter n).toNat = 65 + n ∧
    Text.isBlank (letter n) = false ∧ letter n ≠ ' ' ∧ letter n ≠ '\t' ∧ letter n ≠ '\n' ∧
    letter n ≠ '\r' := by
  decide

theorem text_eq (label : Label) : ∃ first second, label.text = [letter first, letter second] ∧
    first < 26 ∧ second < 26 ∧ first * 26 + second = label.index.val := by
  have bound := label.index.isLt
  exact ⟨label.index.val / 26, label.index.val % 26, rfl, by omega, by omega, by omega⟩

theorem ofLetters?_letter {label : Label} {first second : Nat} (low : first < 26)
    (high : second < 26) (index : first * 26 + second = label.index.val) :
    ofLetters? (letter first) (letter second) = some label := by
  obtain ⟨upper, value, _⟩ := letter_of_lt first low
  obtain ⟨upper', value', _⟩ := letter_of_lt second high
  have total : (65 + first - 65) * 26 + (65 + second - 65) = label.index.val := by omega
  rw [ofLetters?, upper, upper', value, value', total]
  simp [ofIndex?]

theorem mem_text {label : Label} {c : Char} (member : c ∈ label.text) : ∃ n < 26, c = letter n := by
  obtain ⟨first, second, text, low, high, _⟩ := text_eq label
  rw [text] at member
  rcases List.mem_cons.mp member with rfl | member
  · exact ⟨first, low, rfl⟩
  · exact ⟨second, high, List.mem_singleton.mp member⟩

end Label

namespace Instruction

theorem after?_append (word rest : Text) : after? word (word ++ rest) = some rest := by
  have start : word.isPrefixOf (word ++ rest) = true :=
    List.isPrefixOf_iff_prefix.mpr (List.prefix_append word rest)
  simp [after?, start]

theorem eq_of_after? {word text rest : Text} (found : after? word text = some rest) :
    text = word ++ rest := by
  unfold after? at found
  split at found
  · rename_i start
    obtain ⟨following, rfl⟩ := List.isPrefixOf_iff_prefix.mp start
    rw [List.drop_left] at found
    rw [Option.some.inj found]
  · cases found

theorem skipGap_of_not {c : Char} {rest : Text} (other : isGap c = false) :
    skipGap (c :: rest) = c :: rest := by
  simp [skipGap, other]

theorem isGap_letter {n : Nat} (bound : n < 26) : isGap (Label.letter n) = false := by
  obtain ⟨_, _, _, space, tab, _⟩ := Label.letter_of_lt n bound
  simp [isGap, space, tab]

theorem labelAfter?_text (word : Text) (label : Label) :
    labelAfter? word (word ++ ' ' :: label.text) = some label := by
  obtain ⟨first, second, text, low, high, index⟩ := Label.text_eq label
  have read : gap? (' ' :: label.text) = some [Label.letter first, Label.letter second] := by
    rw [text, gap?, if_pos (by decide), skipGap_of_not (isGap_letter low)]
  simp [labelAfter?, after?_append, read, Label.ofLetters?_letter low high index]

theorem quoted?_quoted {name : Text} (plain : '"' ∉ name) (rest : Text) :
    quoted? (quoted name ++ rest) = some (name, rest) := by
  have unquoted : ∀ c ∈ name, decide (c ≠ '"') = true := by
    intro c member
    simpa using fun same : c = '"' => plain (same ▸ member)
  have dropped : (name ++ '"' :: rest).dropWhile (· ≠ '"') = '"' :: rest := by
    rw [List.dropWhile_append_of_pos unquoted]
    simp
  have taken : (name ++ '"' :: rest).takeWhile (· ≠ '"') = name := by
    rw [List.takeWhile_append_of_pos unquoted]
    simp
  have shape : quoted name ++ rest = '"' :: (name ++ '"' :: rest) := by simp [quoted]
  rw [shape, quoted?, dropped, taken]

theorem comma?_comma {c : Char} (rest : Text) (other : isGap c = false) :
    comma? (',' :: c :: rest) = some (c :: rest) := by
  have comma : isGap ',' = false := by decide
  rw [comma?, skipGap_of_not comma]
  simp [skipGap_of_not other]

def choiceText (choice : Choice) : Text := ',' :: quoted choice.name ++ ',' :: choice.target.text

theorem choice?_choiceText {choice : Choice} (plain : '"' ∉ choice.name) (rest : Text) :
    choice? (choiceText choice ++ rest) = some (choice, rest) := by
  obtain ⟨first, second, text, low, high, index⟩ := Label.text_eq choice.target
  have shape : choiceText choice ++ rest =
      ',' :: (quoted choice.name ++ ',' :: Label.letter first :: Label.letter second :: rest) := by
    simp [choiceText, text]
  have opening : comma? (choiceText choice ++ rest) =
      some (quoted choice.name ++ ',' :: Label.letter first :: Label.letter second :: rest) := by
    rw [shape]
    exact comma?_comma _ (by decide)
  have middle := comma?_comma (Label.letter second :: rest) (isGap_letter low)
  simp [choice?, opening, quoted?_quoted plain, middle, Label.ofLetters?_letter low high index]

theorem choices_append {written : List Choice} (plain : ∀ choice ∈ written, '"' ∉ choice.name)
    {rest : Text} (stop : choice? rest = none) :
    choices (written.flatMap choiceText ++ rest) = (written, rest) := by
  induction written with
  | nil =>
      rw [List.flatMap_nil, List.nil_append, choices]
      split
      · rename_i found
        rw [stop] at found
        cases found
      · rfl
  | cons choice others ih =>
      have later := ih fun other member => plain other (by simp [member])
      have first := choice?_choiceText (plain choice (by simp)) (others.flatMap choiceText ++ rest)
      rw [List.flatMap_cons, List.append_assoc, choices]
      split
      · rename_i found
        rw [first] at found
        cases found
        rw [later]
      · rename_i found
        rw [first] at found
        cases found

theorem join_choiceParts (head : Text) (written : List Choice) :
    Text.join [',']
        (head :: written.flatMap fun choice => [quoted choice.name, choice.target.text]) =
      head ++ written.flatMap choiceText := by
  induction written generalizing head with
  | nil => simp
  | cons choice others ih =>
      have later := ih choice.target.text
      rw [List.flatMap_cons, List.cons_append, List.singleton_append,
        Text.join_cons _ _ (List.cons_ne_nil _ _), Text.join_cons _ _ (List.cons_ne_nil _ _), later]
      simp [choiceText]

theorem line_menu (title : Text) (written : List Choice) :
    (menu title written).line =
      ':' :: ("Menu(".toList ++ (quoted title ++ (written.flatMap choiceText ++ [')']))) := by
  show (':' :: "Menu(".toList) ++ Text.join [','] (menuParts title written) ++ [')'] = _
  rw [menuParts, join_choiceParts]
  simp only [List.append_assoc, List.cons_append]

theorem body_colon (text : Text) : body (':' :: text) = Text.trim text := by
  have shown : Text.isBlank ':' = false := by decide
  have trimmed : Text.trim (':' :: text) = ':' :: Text.trimEnd text := by
    rw [Text.trim, Text.trimStart_of_first shown, Text.trimEnd_cons (by simp [shown])]
  rw [body, trimmed, dropColon, Text.trimStart_trimEnd]

theorem ofLine_colon (text : Text) : ofLine (':' :: text) = ofBody (Text.trim text) := by
  rw [ofLine, body_colon]

theorem ofBody_of_ne {body : Text} (clear : body ≠ "ClrHome".toList) (stop : body ≠ "Stop".toList)
    (pause : body ≠ "Pause \"\"".toList) :
    ofBody body = (((labelAfter? "Lbl".toList body).map define).or
      (((labelAfter? "Goto".toList body).map goto).or
        ((display? body).or (menu? body)))).getD (.other body) := by
  rw [ofBody, if_neg clear, if_neg stop, if_neg pause]

theorem ofBody_define (label : Label) : ofBody ("Lbl".toList ++ ' ' :: label.text) = define label := by
  rw [ofBody_of_ne (by simp) (by simp) (by simp), labelAfter?_text]
  rfl

theorem labelAfter?_eq_none {word text : Text} (other : word.isPrefixOf text = false) :
    labelAfter? word text = none := by
  simp [labelAfter?, after?, other]

theorem ofBody_goto (label : Label) : ofBody ("Goto".toList ++ ' ' :: label.text) = goto label := by
  rw [ofBody_of_ne (by simp) (by simp) (by simp), labelAfter?_eq_none rfl, labelAfter?_text]
  rfl

theorem display?_quoted (text : Text) :
    display? ("Disp".toList ++ ' ' :: quoted text) = some (display text) := by
  have gap : gap? (' ' :: quoted text) = some (quoted text) := by
    rw [gap?, if_pos (by decide), quoted, List.cons_append, skipGap_of_not (by decide)]
  rw [display?, after?_append, Option.bind_some, gap]
  simp [quoted]

theorem menu?_parts {title : Text} {written : List Choice} (heading : '"' ∉ title)
    (plain : ∀ choice ∈ written, '"' ∉ choice.name) :
    menu? ("Menu(".toList ++ (quoted title ++ (written.flatMap choiceText ++ [')']))) =
      some (menu title written) := by
  have close : choices (written.flatMap choiceText ++ [')']) = (written, [')']) :=
    choices_append plain (by decide)
  have gap : ∀ rest, skipGap (quoted title ++ rest) = quoted title ++ rest := fun rest =>
    skipGap_of_not (by decide)
  rw [menu?, after?_append, Option.bind_some, gap, quoted?_quoted heading, Option.bind_some]
  dsimp only
  rw [close]
  rfl

theorem display?_menu (rest : Text) : display? ("Menu(".toList ++ rest) = none := by
  simp [display?, after?]

theorem display?_isDisplay {body : Text} {instruction : Instruction}
    (found : display? body = some instruction) : ∃ text, instruction = display text := by
  rw [display?, Option.bind_eq_some_iff] at found
  obtain ⟨start, _, found⟩ := found
  split at found
  · exact ⟨_, (Option.some.inj found).symm⟩
  · cases found

theorem menu?_isMenu {body : Text} {instruction : Instruction}
    (found : menu? body = some instruction) : ∃ title written, instruction = menu title written := by
  simp only [menu?, Option.bind_eq_some_iff] at found
  obtain ⟨start, _, ⟨title, rest⟩, _, found⟩ := found
  split at found
  · exact ⟨_, _, (Option.some.inj found).symm⟩
  · cases found

theorem ofBody_of_display? {body : Text} {instruction : Instruction}
    (found : display? body = some instruction) : ofBody body = instruction := by
  obtain ⟨rest, rfl⟩ : ∃ rest, body = "Disp".toList ++ rest := by
    simp only [display?, Option.bind_eq_some_iff] at found
    obtain ⟨_, ⟨rest, opened, _⟩, _⟩ := found
    exact ⟨rest, eq_of_after? opened⟩
  rw [ofBody_of_ne (by simp) (by simp) (by simp), labelAfter?_eq_none rfl, labelAfter?_eq_none rfl,
    found]
  rfl

theorem ofBody_display (text : Text) :
    ofBody ("Disp".toList ++ ' ' :: quoted text) = display text :=
  ofBody_of_display? (display?_quoted text)

theorem ofBody_of_menu? {body : Text} {instruction : Instruction}
    (found : menu? body = some instruction) : ofBody body = instruction := by
  obtain ⟨rest, rfl⟩ : ∃ rest, body = "Menu(".toList ++ rest := by
    simp only [menu?, Option.bind_eq_some_iff] at found
    obtain ⟨rest, opened, _⟩ := found
    exact ⟨rest, eq_of_after? opened⟩
  rw [ofBody_of_ne (by simp) (by simp) (by simp), labelAfter?_eq_none rfl, labelAfter?_eq_none rfl,
    display?_menu, found]
  rfl

theorem ofBody_menu {title : Text} {written : List Choice} (heading : '"' ∉ title)
    (plain : ∀ choice ∈ written, '"' ∉ choice.name) :
    ofBody ("Menu(".toList ++ (quoted title ++ (written.flatMap choiceText ++ [')']))) =
      menu title written :=
  ofBody_of_menu? (menu?_parts heading plain)

/-- What a body must be to be read as an instruction that the kind of a page depends on. -/
def Spells (body : Text) : Instruction → Prop
  | clear => body = "ClrHome".toList
  | stop => body = "Stop".toList
  | display _ => display? body ≠ none
  | menu _ _ => menu? body ≠ none
  | _ => True

theorem spells_ofBody (body : Text) : Spells body (ofBody body) := by
  by_cases first : body = "ClrHome".toList
  · rw [ofBody, if_pos first]
    exact first
  by_cases second : body = "Stop".toList
  · rw [ofBody, if_neg first, if_pos second]
    exact second
  by_cases third : body = "Pause \"\"".toList
  · rw [ofBody, if_neg first, if_neg second, if_pos third]
    trivial
  rw [ofBody_of_ne first second third]
  cases labelAfter? "Lbl".toList body with
  | some label => trivial
  | none =>
      cases labelAfter? "Goto".toList body with
      | some label => trivial
      | none =>
          cases shown : display? body with
          | some instruction =>
              obtain ⟨text, rfl⟩ := display?_isDisplay shown
              simp [Spells, shown]
          | none =>
              cases call : menu? body with
              | some instruction =>
                  obtain ⟨title, written, rfl⟩ := menu?_isMenu call
                  simp [Spells, call]
              | none => trivial

theorem menu?_of_ofBody {body title : Text} {written : List Choice}
    (read : ofBody body = menu title written) : menu? body = some (menu title written) := by
  have spelled := spells_ofBody body
  rw [read] at spelled
  obtain ⟨instruction, found⟩ := Option.ne_none_iff_exists'.mp spelled
  rw [found, ← read, ofBody_of_menu? found]

def Quotable : Instruction → Prop
  | menu title written => '"' ∉ title ∧ ∀ choice ∈ written, '"' ∉ choice.name
  | other _ => False
  | _ => True

theorem trim_label (c : Char) (word : Text) (label : Label) (shown : Text.isBlank c = false) :
    Text.trim (c :: (word ++ label.text)) = c :: (word ++ label.text) := by
  obtain ⟨first, second, text, _, high, _⟩ := Label.text_eq label
  obtain ⟨_, _, visible, _⟩ := Label.letter_of_lt second high
  have ends : Text.trim (c :: (word ++ [Label.letter first]) ++ [Label.letter second]) =
      c :: (word ++ [Label.letter first]) ++ [Label.letter second] :=
    Text.trim_of_ends shown visible
  rw [text]
  simpa using ends

theorem ofLine_line {instruction : Instruction} (quotable : instruction.Quotable) :
    ofLine instruction.line = instruction := by
  cases instruction with
  | define label =>
      show ofBody (Text.trimStart (dropColon (Text.trim ('L' :: ("bl ".toList ++ label.text))))) = _
      rw [trim_label _ _ _ (by decide), dropColon, Text.trimStart_of_first (by decide)]
      · exact ofBody_define label
      · intro rest same
        cases same
  | goto label =>
      show ofLine (':' :: 'G' :: ("oto ".toList ++ label.text)) = _
      rw [ofLine_colon, trim_label _ _ _ (by decide)]
      exact ofBody_goto label
  | display text =>
      show ofLine (':' :: ('D' :: ("isp \"".toList ++ text) ++ ['"'])) = _
      rw [ofLine_colon, Text.trim_of_ends (by decide) (by decide)]
      exact ofBody_display text
  | pause => decide
  | clear => decide
  | stop => decide
  | menu title written =>
      have trimmed : Text.trim
          ("Menu(".toList ++ (quoted title ++ (written.flatMap choiceText ++ [')']))) =
          "Menu(".toList ++ (quoted title ++ (written.flatMap choiceText ++ [')'])) := by
        have ends : Text.trim
            ('M' :: ("enu(".toList ++ (quoted title ++ written.flatMap choiceText)) ++ [')']) =
            'M' :: ("enu(".toList ++ (quoted title ++ written.flatMap choiceText)) ++ [')'] :=
          Text.trim_of_ends (by decide) (by decide)
        simpa using ends
      rw [line_menu, ofLine_colon, trimmed]
      exact ofBody_menu quotable.1 quotable.2
  | other body => exact quotable.elim

theorem blank_line (instruction : Instruction) : Text.blank instruction.line = false := by
  cases instruction <;> rfl

def texts : Instruction → List Text
  | display text => [text]
  | menu title written => title :: written.map Choice.name
  | other body => [body]
  | _ => []

section

variable {c : Char} (ending : c = '\n' ∨ c = '\r')
include ending

theorem not_mem_word {word : Text} (plain : Text.OneLine word) : c ∉ word := by
  rcases ending with rfl | rfl
  · exact plain.1
  · exact plain.2

theorem not_mem_label (label : Label) : c ∉ label.text := by
  intro member
  obtain ⟨n, bound, rfl⟩ := Label.mem_text member
  obtain ⟨_, _, _, _, _, newline, carriage⟩ := Label.letter_of_lt n bound
  exact ending.elim newline carriage

theorem not_mem_quoted {text : Text} (absent : c ∉ text) : c ∉ quoted text := by
  have quote : c ∉ ['"'] := not_mem_word ending (by decide)
  simp only [quoted, List.mem_append, List.mem_cons, not_or]
  simpa [absent] using quote

theorem not_mem_choices {written : List Choice} (absent : ∀ choice ∈ written, c ∉ choice.name) :
    c ∉ written.flatMap choiceText := by
  intro member
  obtain ⟨choice, listed, inside⟩ := List.mem_flatMap.mp member
  have comma : c ∉ [','] := not_mem_word ending (by decide)
  have name := not_mem_quoted ending (absent choice listed)
  have target := not_mem_label ending choice.target
  simp_all [choiceText]

theorem not_mem_line {instruction : Instruction} (absent : ∀ text ∈ instruction.texts, c ∉ text) :
    c ∉ instruction.line := by
  cases instruction with
  | define label =>
      show c ∉ "Lbl ".toList ++ label.text
      exact List.not_mem_append (not_mem_word ending (by decide)) (not_mem_label ending label)
  | goto label =>
      show c ∉ ":Goto ".toList ++ label.text
      exact List.not_mem_append (not_mem_word ending (by decide)) (not_mem_label ending label)
  | display text =>
      have content := not_mem_quoted ending (absent text (by simp [texts]))
      show c ∉ ":Disp ".toList ++ quoted text
      exact List.not_mem_append (not_mem_word ending (by decide)) content
  | pause => exact not_mem_word ending (by decide)
  | clear => exact not_mem_word ending (by decide)
  | stop => exact not_mem_word ending (by decide)
  | menu title written =>
      have opening : c ∉ ":Menu(".toList := not_mem_word ending (by decide)
      have close : c ∉ [')'] := not_mem_word ending (by decide)
      have heading := not_mem_quoted ending (absent title (by simp [texts]))
      have names : ∀ choice ∈ written, c ∉ choice.name := fun choice member =>
        absent choice.name (by simp [texts, List.mem_map_of_mem member])
      rw [line_menu]
      exact List.not_mem_append opening
        (List.not_mem_append heading (List.not_mem_append (not_mem_choices ending names) close))
  | other body =>
      have content := absent body (by simp [texts])
      have colon : c ∉ [':'] := not_mem_word ending (by decide)
      show c ∉ [':'] ++ body
      exact List.not_mem_append colon content

end

theorem oneLine_line {instruction : Instruction}
    (plain : ∀ text ∈ instruction.texts, Text.OneLine text) : Text.OneLine instruction.line :=
  ⟨not_mem_line (.inl rfl) fun text held => (plain text held).1,
    not_mem_line (.inr rfl) fun text held => (plain text held).2⟩

end Instruction

end CalcApp
