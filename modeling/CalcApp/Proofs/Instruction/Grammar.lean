import CalcApp.Program
import CalcApp.Proofs.Instruction
import Mathlib.Data.List.DropRight

/-! The grammar of menu calls, said without a reader, and that lines are read by exactly this
grammar. What a text can be read as is settled piece by piece: each part ends where the next one
starts, so that the reader, which takes as many choices as it can, never takes too many. -/

namespace CalcApp

namespace Label

def Spelled (label : Label) (first second : Char) : Prop :=
  ('A' ≤ first ∧ first ≤ 'Z') ∧ ('A' ≤ second ∧ second ≤ 'Z') ∧ label.text = [first, second]

theorem isUpper_iff (c : Char) : c.isUpper = true ↔ 'A' ≤ c ∧ c ≤ 'Z' :=
  decide_eq_true_iff

theorem letter_of_isUpper {c : Char} (upper : c.isUpper = true) :
    c.toNat - 65 < 26 ∧ letter (c.toNat - 65) = c := by
  have bounds : 65 ≤ c.toNat ∧ c.toNat ≤ 90 := (isUpper_iff c).mp upper
  refine ⟨by omega, ?_⟩
  rw [letter, Nat.add_sub_cancel' bounds.1, Char.ofNat_toNat]

theorem ofLetters?_eq_some_iff {first second : Char} {label : Label} :
    ofLetters? first second = some label ↔ label.Spelled first second := by
  rw [Spelled, ← isUpper_iff, ← isUpper_iff]
  constructor
  · intro found
    rw [ofLetters?] at found
    split at found
    · rename_i upper
      rw [Bool.and_eq_true] at upper
      obtain ⟨low, own⟩ := letter_of_isUpper upper.1
      obtain ⟨high, own'⟩ := letter_of_isUpper upper.2
      have index : label.index.val = (first.toNat - 65) * 26 + (second.toNat - 65) := by
        rw [ofIndex?] at found
        split at found
        · rw [← Option.some.inj found]
        · cases found
      have quotient : label.index.val / 26 = first.toNat - 65 := by omega
      have remainder : label.index.val % 26 = second.toNat - 65 := by omega
      exact ⟨upper.1, upper.2, by rw [text, quotient, remainder, own, own']⟩
    · cases found
  · rintro ⟨_, _, written⟩
    obtain ⟨n, m, text, low, high, index⟩ := text_eq label
    rw [text, List.cons.injEq, List.cons.injEq] at written
    rw [← written.1, ← written.2.1]
    exact ofLetters?_letter low high index

theorem Spelled.not_gap {label : Label} {first second : Char}
    (spelled : label.Spelled first second) : Instruction.isGap first = false := by
  obtain ⟨low, own⟩ := letter_of_isUpper ((isUpper_iff first).mpr spelled.1)
  rw [← own]
  exact Instruction.isGap_letter low

end Label

namespace Instruction

def Gap (text : Text) : Prop := ∀ c ∈ text, c = ' ' ∨ c = '\t'

def Comma (text : Text) : Prop :=
  ∃ before after, Gap before ∧ Gap after ∧ text = before ++ ',' :: after

inductive ChoiceForm : Choice → Text → Prop
  | written {comma name between : Text} {target : Label} {first second : Char} :
    Comma comma → '"' ∉ name → Comma between → target.Spelled first second →
      ChoiceForm ⟨name, target⟩ (comma ++ quoted name ++ between ++ [first, second])

inductive ChoicesForm : List Choice → Text → Prop
  | none : ChoicesForm [] []
  | more {choice : Choice} {others : List Choice} {text rest : Text} :
    ChoiceForm choice text → ChoicesForm others rest → ChoicesForm (choice :: others) (text ++ rest)

/-- The ways to write a menu call; the parenthesis at the very end can be left out. -/
inductive MenuForm (title : Text) (listed : List Choice) : Text → Prop
  | written {opening text close ending : Text} :
    Gap opening → '"' ∉ title → ChoicesForm listed text → Gap close →
      (ending = [] ∨ ending = [')']) →
      MenuForm title listed
        ("Menu(".toList ++ opening ++ quoted title ++ text ++ close ++ ending)

theorem gap_iff {text : Text} : Gap text ↔ ∀ c ∈ text, isGap c = true := by
  simp [Gap, isGap]

theorem skipGap_append {gap : Text} (blank : Gap gap) (rest : Text) :
    skipGap (gap ++ rest) = skipGap rest :=
  List.dropWhile_append_of_pos (gap_iff.mp blank)

theorem exists_gap (text : Text) : ∃ gap, Gap gap ∧ text = gap ++ skipGap text := by
  refine ⟨text.takeWhile isGap, gap_iff.mpr ?_, List.takeWhile_append_dropWhile.symm⟩
  intro c member
  exact List.mem_takeWhile_imp member

theorem skipGap_skipGap (text : Text) : skipGap (skipGap text) = skipGap text :=
  List.dropWhile_idempotent isGap text

theorem skipGap_quoted (name rest : Text) : skipGap (quoted name ++ rest) = quoted name ++ rest :=
  skipGap_of_not (by decide)

theorem comma?_eq_some_iff {text rest : Text} :
    comma? text = some rest ↔
      skipGap rest = rest ∧ ∃ comma, Comma comma ∧ text = comma ++ rest := by
  constructor
  · intro found
    rw [comma?] at found
    split at found
    · rename_i following start
      obtain ⟨before, blank, whole⟩ := exists_gap text
      obtain ⟨after, blank', tail⟩ := exists_gap following
      rw [← Option.some.inj found]
      refine ⟨skipGap_skipGap following, before ++ ',' :: after, ⟨_, _, blank, blank', rfl⟩, ?_⟩
      rw [start] at whole
      rw [List.append_assoc, List.cons_append, ← tail, ← whole]
    · cases found
  · rintro ⟨flush, _, ⟨before, after, blank, blank', rfl⟩, rfl⟩
    have start : skipGap (before ++ ',' :: after ++ rest) = ',' :: (after ++ rest) := by
      rw [List.append_assoc, skipGap_append blank, List.cons_append, skipGap_of_not (by decide)]
    rw [comma?, start]
    simp only [skipGap_append blank', flush]

theorem quoted?_eq_some_iff {text name rest : Text} :
    quoted? text = some (name, rest) ↔ '"' ∉ name ∧ text = quoted name ++ rest := by
  constructor
  · intro found
    unfold quoted? at found
    split at found
    · rename_i inside
      split at found
      · rename_i quote following start
        cases found
        have unquoted : '"' ∉ inside.takeWhile (· ≠ '"') := by
          intro member
          simpa using List.mem_takeWhile_imp member
        have closing : quote = '"' := by
          have stop := List.head?_dropWhile_not (· ≠ '"') inside
          rw [start] at stop
          simpa using stop
        have whole := List.takeWhile_append_dropWhile (p := (· ≠ '"')) (l := inside)
        rw [start, closing] at whole
        refine ⟨unquoted, ?_⟩
        rw [quoted, List.append_assoc, List.cons_append, List.singleton_append, whole]
      · cases found
    · cases found
  · rintro ⟨plain, rfl⟩
    exact quoted?_quoted plain rest

theorem choice?_eq_some_iff {text rest : Text} {choice : Choice} :
    choice? text = some (choice, rest) ↔ ∃ form, ChoiceForm choice form ∧ text = form ++ rest := by
  constructor
  · intro found
    simp only [choice?, Option.bind_eq_some_iff, Prod.exists] at found
    obtain ⟨start, leading, name, named, quote, following, middle, found⟩ := found
    obtain ⟨_, comma, written, rfl⟩ := comma?_eq_some_iff.mp leading
    obtain ⟨plain, rfl⟩ := quoted?_eq_some_iff.mp quote
    obtain ⟨_, between, written', rfl⟩ := comma?_eq_some_iff.mp middle
    split at found
    · rename_i first second after
      rw [Option.map_eq_some_iff] at found
      obtain ⟨target, letters, same⟩ := found
      cases same
      have spelled := Label.ofLetters?_eq_some_iff.mp letters
      exact ⟨_, .written written plain written' spelled, by simp⟩
    · cases found
  · rintro ⟨_, ⟨written, plain, written', spelled⟩, rfl⟩
    rename_i comma name between target first second
    have leading : comma? (comma ++ (quoted name ++ (between ++ first :: second :: rest))) =
        some (quoted name ++ (between ++ first :: second :: rest)) :=
      comma?_eq_some_iff.mpr ⟨skipGap_quoted _ _, comma, written, rfl⟩
    have middle : comma? (between ++ first :: second :: rest) = some (first :: second :: rest) :=
      comma?_eq_some_iff.mpr ⟨skipGap_of_not spelled.not_gap, between, written', rfl⟩
    have letters := Label.ofLetters?_eq_some_iff.mpr spelled
    simp [choice?, leading, quoted?_quoted plain, middle, letters]

/-- The reader takes choices for as long as there is one. -/
theorem choices_eq_iff {text rest : Text} {listed : List Choice} :
    choices text = (listed, rest) ↔
      choice? rest = none ∧ ∃ form, ChoicesForm listed form ∧ text = form ++ rest := by
  constructor
  · intro read
    fun_induction choices text generalizing listed with
    | case1 text choice following found _ more after later ih =>
        cases read
        obtain ⟨stop, form, forms, rfl⟩ := ih later
        obtain ⟨first, written, rfl⟩ := choice?_eq_some_iff.mp found
        exact ⟨stop, first ++ form, .more written forms, by simp⟩
    | case2 text missing =>
        cases read
        exact ⟨missing, [], .none, rfl⟩
  · rintro ⟨stop, form, forms, rfl⟩
    induction forms with
    | none =>
        rw [List.nil_append, choices]
        split
        · rename_i found
          rw [stop] at found
          cases found
        · rfl
    | @more choice others first following written _ ih =>
        have next : choice? (first ++ following ++ rest) = some (choice, following ++ rest) :=
          choice?_eq_some_iff.mpr ⟨first, written, by simp⟩
        rw [choices]
        split
        · rename_i found
          rw [next] at found
          cases found
          rw [ih]
        · rename_i found
          rw [next] at found
          cases found

/-- No choice starts where a menu call ends. -/
theorem choice?_close {close ending : Text} (blank : Gap close)
    (ended : ending = [] ∨ ending = [')']) : choice? (close ++ ending) = none := by
  have stop : comma? (close ++ ending) = none := by
    rw [comma?, skipGap_append blank]
    rcases ended with rfl | rfl <;> rfl
  rw [choice?, stop, Option.bind_none]

theorem menu?_eq_some_iff {body title : Text} {listed : List Choice} :
    menu? body = some (menu title listed) ↔ MenuForm title listed body := by
  constructor
  · intro found
    simp only [menu?, Option.bind_eq_some_iff, Prod.exists] at found
    obtain ⟨start, opened, heading, rest, quote, found⟩ := found
    split at found
    · rename_i close
      cases found
      obtain ⟨opening, blank, whole⟩ := exists_gap start
      obtain ⟨plain, titled⟩ := quoted?_eq_some_iff.mp quote
      obtain ⟨_, form, forms, split⟩ := choices_eq_iff.mp (Eq.refl (choices rest))
      obtain ⟨closing, blank', tail⟩ := exists_gap (choices rest).2
      have text : body = "Menu(".toList ++ opening ++ quoted title ++ form ++ closing ++
          skipGap (choices rest).2 := by
        rw [eq_of_after? opened, whole, titled]
        simp only [List.append_assoc]
        rw [← tail, ← split]
      rw [text]
      exact .written blank plain forms blank' close
    · cases found
  · rintro ⟨blank, plain, forms, blank', ended⟩
    rename_i opening form close ending
    have listing : choices (form ++ (close ++ ending)) = (listed, close ++ ending) :=
      choices_eq_iff.mpr ⟨choice?_close blank' ended, form, forms, rfl⟩
    have last : skipGap (close ++ ending) = ending := by
      rw [skipGap_append blank']
      rcases ended with rfl | rfl <;> rfl
    have opened : skipGap (opening ++ (quoted title ++ (form ++ (close ++ ending)))) =
        quoted title ++ (form ++ (close ++ ending)) := by
      rw [skipGap_append blank, skipGap_quoted]
    simp only [List.append_assoc]
    rw [menu?, after?_append, Option.bind_some, opened, quoted?_quoted plain, Option.bind_some]
    dsimp only
    rw [listing]
    simp only [last, ended, if_true]

theorem ofLine_eq_menu_iff {line title : Text} {listed : List Choice} :
    ofLine line = menu title listed ↔ MenuForm title listed (body line) := by
  rw [← menu?_eq_some_iff]
  exact ⟨menu?_of_ofBody, ofBody_of_menu?⟩

theorem form_unique {text title other : Text} {listed others : List Choice}
    (form : MenuForm title listed text) (again : MenuForm other others text) :
    title = other ∧ listed = others := by
  have read := menu?_eq_some_iff.mpr form
  rw [menu?_eq_some_iff.mpr again] at read
  cases read
  exact ⟨rfl, rfl⟩

theorem ofLine_menuPage (program : Program) (label : Label) {title : Text} {entries : List Choice}
    (parent : Option Label) (heading : '"' ∉ title ∧ '\n' ∉ title)
    (names : ∀ entry ∈ entries, '"' ∉ entry.name ∧ '\n' ∉ entry.name) :
    (Text.split '\n' (program.block label (.menu title entries parent))).map ofLine =
      [define label, clear, menu title (entries ++ [Page.wayOut program.quit parent])] := by
  have all : ∀ choice ∈ entries ++ [Page.wayOut program.quit parent],
      '"' ∉ choice.name ∧ '\n' ∉ choice.name := by
    intro choice member
    rcases List.mem_append.mp member with listed | out
    · exact names choice listed
    · cases List.mem_singleton.mp out
      cases parent <;> simp [Page.wayOut]
  have quotable : (menu title (entries ++ [Page.wayOut program.quit parent])).Quotable :=
    ⟨heading.1, fun choice member => (all choice member).1⟩
  have whole : '\n' ∉ (menu title (entries ++ [Page.wayOut program.quit parent])).line := by
    apply not_mem_line (.inl rfl)
    intro text held
    rcases List.mem_cons.mp held with rfl | name
    · exact heading.2
    · obtain ⟨choice, member, rfl⟩ := List.mem_map.mp name
      exact (all choice member).2
  have parted : Text.split '\n' (program.block label (.menu title entries parent)) =
      [(define label).line, clear.line,
        (menu title (entries ++ [Page.wayOut program.quit parent])).line] := by
    apply Text.split_join (by simp)
    intro line member
    simp only [Page.instructions, List.map_cons, List.map_nil, List.mem_cons, List.not_mem_nil,
      or_false] at member
    rcases member with rfl | rfl | rfl
    · exact not_mem_line (.inl rfl) (by simp [texts])
    · decide
    · exact whole
  have first : ofLine (define label).line = define label := ofLine_line trivial
  have second : ofLine clear.line = clear := ofLine_line trivial
  rw [parted, List.map_cons, List.map_cons, List.map_singleton, first, second, ofLine_line quotable]

/-- Menu calls are read by exactly their grammar: a line is read as a menu if its body is a way to
write this menu and only then, no body is a way to write two menus, and the lines of a menu page
are read as its title and entries, with the way out as the last choice. -/
theorem menu_read_by_grammar :
    (∀ line title listed, ofLine line = menu title listed ↔ MenuForm title listed (body line)) ∧
      (∀ text title listed other others, MenuForm title listed text → MenuForm other others text →
        title = other ∧ listed = others) ∧
      ∀ (program : Program) (label : Label) (title : Text) (entries : List Choice)
        (parent : Option Label), '"' ∉ title ∧ '\n' ∉ title →
        (∀ entry ∈ entries, '"' ∉ entry.name ∧ '\n' ∉ entry.name) →
        (Text.split '\n' (program.block label (.menu title entries parent))).map ofLine =
          [define label, clear, menu title (entries ++ [Page.wayOut program.quit parent])] := by
  refine ⟨fun _ _ _ => ofLine_eq_menu_iff, fun _ _ _ _ _ => form_unique, ?_⟩
  intro program label title entries parent heading names
  exact ofLine_menuPage program label parent heading names

def looseLine : Text := " : Menu( \"(A,B)\" ,\t\"C,AA\"  , ZZ\t,\"\",AB\u2003".toList

theorem menu_read_by_grammar_looseLine :
    MenuForm "(A,B)".toList [⟨"C,AA".toList, ⟨675⟩⟩, ⟨[], ⟨1⟩⟩] (body looseLine) ∧
      (Text.split '\n' ((⟨[], ⟨0⟩, ⟨1⟩, 8⟩ : Program).block ⟨2⟩
          (.menu "(A".toList [⟨",AA)".toList, ⟨3⟩⟩] (some ⟨0⟩)))).map ofLine =
        [define ⟨2⟩, clear, menu "(A".toList [⟨",AA)".toList, ⟨3⟩⟩, ⟨"Back".toList, ⟨0⟩⟩]] := by
  obtain ⟨read, _, page⟩ := menu_read_by_grammar
  refine ⟨(read _ _ _).mp (by decide +kernel), page _ _ _ _ _ (by decide) (by decide)⟩

end Instruction

end CalcApp
