import CalcApp.Proofs.Block
import CalcApp.Proofs.Listing.Labelled
import CalcApp.Proofs.Runs
import CalcApp.Proofs.Screen.Content

/-! What the lines of a program text show, said without the reader: which lines stand under a
label, which kind of page they are, and which menu is the root. -/

namespace CalcApp

namespace Block

def LastBack (options : List Choice) : Option Label → Prop
  | none => ∀ option ∈ options, option.name ≠ "Back".toList
  | some label => ∃ front back, options = front ++ ⟨"Back".toList, label⟩ :: back ∧
      ∀ option ∈ back, option.name ≠ "Back".toList

def FirstJump (steps : List Instruction) : Option Label → Prop
  | none => ∀ label, .goto label ∉ steps
  | some label => ∃ front back, steps = front ++ .goto label :: back ∧
      ∀ other, .goto other ∉ front

inductive Kept : List Text → List Text → Prop
  | whole {lines : List Text}
      (ended : ∀ front last label, lines = front ++ [last] →
        Instruction.ofLine last ≠ .goto label) :
      Kept lines lines
  | jump {front : List Text} {last : Text} {label : Label}
      (jumps : Instruction.ofLine last = .goto label) : Kept (front ++ [last]) front

/-- The page that the lines under a label are. The options of a menu that are named `Back` or
`Quit` are no entries of it. -/
inductive Shows (lines : List Text) : Block → Prop
  | menu {title : Text} {options : List Choice} {rest : List Instruction} {parent : Option Label}
      (steps : lines.map Instruction.ofLine = .clear :: .menu title options :: rest)
      (back : LastBack options parent) :
      Shows lines (.menu title (options.filter fun option =>
        option.name ≠ "Back".toList ∧ option.name ≠ "Quit".toList) parent)
  | note {rest : List Instruction} {parent : Option Label}
      (steps : lines.map Instruction.ofLine = .clear :: rest)
      (unlisted : ∀ title options more, rest ≠ .menu title options :: more)
      (shown : ∃ text, .display text ∈ rest) (back : FirstJump rest parent) :
      Shows lines (.note (Screen.content (Screen.items rest)) parent)
  | quit {rest : List Instruction} (steps : lines.map Instruction.ofLine = .stop :: rest) :
      Shows lines .quit
  | code {first : Instruction} {rest : List Instruction} {kept : List Text}
      {parent : Option Label} (steps : lines.map Instruction.ofLine = first :: rest)
      (running : first ≠ .stop)
      (other : first = .clear → (∀ title options more, rest ≠ .menu title options :: more) ∧
        ∀ text, .display text ∉ rest)
      (keeps : Kept lines kept) (back : FirstJump (first :: rest) parent) :
      Shows lines (.code (Text.join ['\n'] (kept.map Instruction.dropColon)) parent)

theorem lastBack_iff {options : List Choice} {parent : Option Label} :
    LastBack options parent ↔
      (options.filter fun option => option.name = "Back".toList).getLast?.map Choice.target =
        parent := by
  rw [List.getLast?_filter]
  cases parent with
  | none =>
      rw [Option.map_eq_none_iff, List.find?_eq_none]
      simp [LastBack]
  | some label =>
      rw [Option.map_eq_some_iff]
      constructor
      · rintro ⟨front, back, rfl, other⟩
        refine ⟨⟨"Back".toList, label⟩, ?_, rfl⟩
        rw [List.find?_eq_some_iff_append]
        exact ⟨by simp, back.reverse, front.reverse, by simp, by simpa using other⟩
      · rintro ⟨⟨name, target⟩, found, rfl⟩
        obtain ⟨named, back, front, whole, other⟩ := List.find?_eq_some_iff_append.mp found
        have same : name = "Back".toList := by simpa using named
        subst same
        rw [List.reverse_eq_append_iff, List.reverse_cons, List.append_assoc] at whole
        exact ⟨front.reverse, back.reverse, whole, by simpa using other⟩

theorem jump?_eq_some {step : Instruction} {label : Label} :
    jump? step = some label ↔ step = .goto label := by
  cases step <;> simp [jump?]

theorem jump?_eq_none {step : Instruction} : jump? step = none ↔ ∀ label, step ≠ .goto label := by
  cases step <;> simp [jump?]

theorem firstJump_iff {steps : List Instruction} {parent : Option Label} :
    FirstJump steps parent ↔ steps.findSome? jump? = parent := by
  have free : ∀ some : List Instruction,
      (∀ label, .goto label ∉ some) ↔ ∀ step ∈ some, jump? step = none := by
    intro some
    constructor
    · intro absent step member
      rw [jump?_eq_none]
      rintro label rfl
      exact absent label member
    · intro none label member
      exact jump?_eq_none.mp (none _ member) label rfl
  cases parent with
  | none => rw [FirstJump, free, List.findSome?_eq_none_iff]
  | some label =>
      rw [FirstJump, List.findSome?_eq_some_iff]
      constructor
      · rintro ⟨front, back, whole, absent⟩
        exact ⟨front, .goto label, back, whole, rfl, (free front).mp absent⟩
      · rintro ⟨front, step, back, whole, jumps, others⟩
        rw [jump?_eq_some.mp jumps] at whole
        exact ⟨front, back, whole, (free front).mpr others⟩

theorem kept_iff {lines kept : List Text} :
    Kept lines kept ↔
      (if ((lines.map Instruction.ofLine).getLast?.bind jump?).isSome then lines.dropLast
        else lines) = kept := by
  rcases List.eq_nil_or_concat lines with rfl | ⟨front, last, rfl⟩
  · constructor
    · intro keeps
      generalize whole : ([] : List Text) = lines at keeps
      cases keeps with
      | whole _ => simp [← whole]
      | jump _ => simp at whole
    · rintro rfl
      exact .whole (by simp)
  · rw [List.concat_eq_append, List.map_append, List.map_singleton, List.getLast?_concat,
      Option.bind_some, List.dropLast_concat]
    constructor
    · intro keeps
      generalize whole : front ++ [last] = lines at keeps
      cases keeps with
      | whole ended =>
          have stays : jump? (Instruction.ofLine last) = none :=
            jump?_eq_none.mpr fun label => ended front last label whole.symm
          simp [stays]
      | @jump kept other label jumps =>
          obtain ⟨rfl, same⟩ := List.append_inj' whole rfl
          cases same
          simp [jump?_eq_some.mpr jumps]
    · cases jumps : jump? (Instruction.ofLine last) with
      | none =>
          rintro rfl
          refine .whole ?_
          intro other final label whole
          obtain ⟨rfl, same⟩ := List.append_inj' whole rfl
          cases same
          exact jump?_eq_none.mp jumps label
      | some label =>
          rintro rfl
          exact .jump (jump?_eq_some.mp jumps)

theorem noteSections_parent (shown : List Text) (steps : List Instruction) :
    (noteSections shown steps).2 = steps.findSome? jump? := by
  fun_induction noteSections shown steps with
  | case1 shown => rfl
  | case2 shown text rest ih => exact ih
  | case3 shown rest sections parent later ih =>
      rw [later] at ih
      exact ih
  | case4 shown rest other sections parent later ih =>
      rw [later] at ih
      exact ih
  | case5 shown label rest => rfl
  | case6 shown step rest display pauseClear pause goto ih =>
      rw [ih, List.findSome?_cons, jump?_eq_none.mpr goto]

theorem ofNote_eq (steps : List Instruction) :
    ofNote steps = .note (Screen.content (Screen.items steps)) (steps.findSome? jump?) := by
  have sections := Screen.noteSections_items [] steps
  rw [Screen.modifyHead_after_nil] at sections
  rw [Screen.content, ← sections, ← noteSections_parent []]
  rfl

theorem any_isDisplay {steps : List Instruction} :
    steps.any isDisplay = true ↔ ∃ text, .display text ∈ steps := by
  rw [List.any_eq_true]
  constructor
  · rintro ⟨step, member, displays⟩
    cases step with
    | display text => exact ⟨text, member⟩
    | define _ | goto _ | pause | clear | stop | menu _ _ | other _ => cases displays
  · rintro ⟨text, member⟩
    exact ⟨_, member, rfl⟩

theorem ofMenu_eq {options : List Choice} {parent : Option Label} (title : Text)
    (back : LastBack options parent) :
    ofMenu title options = .menu title (options.filter fun option =>
      option.name ≠ "Back".toList ∧ option.name ≠ "Quit".toList) parent := by
  have kept : (fun option : Choice => !decide (option.name = "Back".toList) &&
      !decide (option.name = "Quit".toList)) =
      fun option => decide (option.name ≠ "Back".toList ∧ option.name ≠ "Quit".toList) := by
    funext option
    simp
  rw [ofMenu, kept, lastBack_iff.mp back]

theorem ofCode_eq {lines kept : List Text} {parent : Option Label} (keeps : Kept lines kept)
    (back : FirstJump (lines.map Instruction.ofLine) parent) :
    ofCode lines = .code (Text.join ['\n'] (kept.map Instruction.dropColon)) parent := by
  rw [ofCode, firstJump_iff.mp back, kept_iff.mp keeps]

theorem Shows.ofLines_eq {first : Text} {rest : List Text} {block : Block}
    (shows : Shows (first :: rest) block) : ofLines first rest = block := by
  cases shows with
  | menu steps back =>
      rw [List.map_cons, List.cons.injEq] at steps
      simp only [ofLines, steps.1, steps.2]
      exact ofMenu_eq _ back
  | note steps unlisted shown back =>
      rw [List.map_cons, List.cons.injEq] at steps
      rw [Page.ofLines_note steps.1 steps.2 unlisted (any_isDisplay.mpr shown), ofNote_eq,
        firstJump_iff.mp back]
  | quit steps =>
      rw [List.map_cons, List.cons.injEq] at steps
      simp only [ofLines, steps.1]
  | code steps running other keeps back =>
      rw [← steps] at back
      rw [List.map_cons, List.cons.injEq] at steps
      rw [Page.ofLines_code, ofCode_eq keeps back]
      · rw [steps.1]
        exact running
      · intro clear
        obtain ⟨unlisted, hidden⟩ := other (steps.1 ▸ clear)
        rw [steps.2]
        refine ⟨unlisted, ?_⟩
        rw [Bool.eq_false_iff]
        intro shown
        obtain ⟨text, member⟩ := any_isDisplay.mp shown
        exact hidden text member

theorem exists_shows (first : Text) (rest : List Text) : ∃ block, Shows (first :: rest) block := by
  have steps : (first :: rest).map Instruction.ofLine =
      Instruction.ofLine first :: rest.map Instruction.ofLine := List.map_cons
  by_cases stop : Instruction.ofLine first = .stop
  · rw [stop] at steps
    exact ⟨_, .quit steps⟩
  · by_cases menu : Instruction.ofLine first = .clear ∧
        ∃ title options more, rest.map Instruction.ofLine = .menu title options :: more
    · obtain ⟨clear, title, options, more, offered⟩ := menu
      rw [clear, offered] at steps
      exact ⟨_, .menu steps (lastBack_iff.mpr rfl)⟩
    · have unlisted : Instruction.ofLine first = .clear → ∀ title options more,
          rest.map Instruction.ofLine ≠ .menu title options :: more :=
        fun clear title options more offered => menu ⟨clear, title, options, more, offered⟩
      by_cases note : Instruction.ofLine first = .clear ∧
          ∃ text, .display text ∈ rest.map Instruction.ofLine
      · obtain ⟨clear, shown⟩ := note
        have plain := unlisted clear
        rw [clear] at steps
        exact ⟨_, .note steps plain shown (firstJump_iff.mpr rfl)⟩
      · refine ⟨_, .code steps stop ?_ (kept_iff.mpr rfl) (firstJump_iff.mpr rfl)⟩
        exact fun clear => ⟨unlisted clear, fun text member => note ⟨clear, text, member⟩⟩

/-- Lines are a page of one kind, which is the one that is read. -/
theorem shows_iff {first : Text} {rest : List Text} {block : Block} :
    Shows (first :: rest) block ↔ ofLines first rest = block := by
  constructor
  · exact Shows.ofLines_eq
  · rintro rfl
    obtain ⟨block, shows⟩ := exists_shows first rest
    rw [shows.ofLines_eq]
    exact shows

end Block

namespace Listing

/-- The blocks of a text are the runs of lines that are not blank; its lines stand between its
newlines. -/
def CutInto (text : Text) (blocks : List (List Text)) : Prop :=
  ∃ chain, Alternates (fun line => !Text.blank line) chain ∧ chain.gaps = blocks ∧
    (∀ line ∈ chain.flatten, '\n' ∉ line) ∧
    Text.join ['\n'] chain.flatten = Text.unifyNewlines text

/-- A block that counts: a line that defines the label, and at least one more. -/
def Labelled (block : List Text) (label : Label) (lines : List Text) : Prop :=
  ∃ head, block = head :: lines ∧ lines ≠ [] ∧ Instruction.ofLine head = .define label

def LastUnder (blocks : List (List Text)) (label : Label) (lines : List Text) : Prop :=
  ∃ before block after, blocks = before ++ block :: after ∧ Labelled block label lines ∧
    ∀ later ∈ after, ∀ others, ¬ Labelled later label others

def Top (blocks : List (List Text)) (label : Label) : Prop :=
  ∃ lines title options rest, LastUnder blocks label lines ∧
    lines.map Instruction.ofLine = .clear :: .menu title options :: rest ∧
    ∀ option ∈ options, option.name ≠ "Back".toList

def FirstTop (blocks : List (List Text)) (label : Label) : Prop :=
  Top blocks label ∧ ∃ before block after lines, blocks = before ++ block :: after ∧
    Labelled block label lines ∧
    ∀ earlier ∈ before, ∀ other others, Labelled earlier other others → ¬ Top blocks other

/-- The pages under the labels of some blocks, and the root among them. -/
structure Describes (blocks : List (List Text)) (pages : BlockMap) (root : Option Label) :
    Prop where
  page : ∀ label page, pages label = some page ↔
    ∃ lines, LastUnder blocks label lines ∧ Block.Shows lines page
  root : ∀ label, root = some label ↔ FirstTop blocks label

theorem cutInto_iff {text : Text} {blocks : List (List Text)} :
    CutInto text blocks ↔ Text.paragraphs (Text.lines (Text.unifyNewlines text)) = blocks := by
  rw [Text.paragraphs_split]
  constructor
  · rintro ⟨chain, alternates, rfl, whole, joined⟩
    rw [← alternates.runs_eq, ← joined]
    by_cases none : chain.flatten = []
    · rw [none]
      rfl
    · rw [Text.split_join none whole]
      rfl
  · rintro rfl
    obtain ⟨chain, alternates, lines⟩ := exists_alternates (fun line => !Text.blank line)
      (Text.split '\n' (Text.unifyNewlines text))
    refine ⟨chain, alternates, ?_, ?_, ?_⟩
    · rw [← alternates.runs_eq, lines]
      rfl
    · rw [lines]
      exact fun _ listed => Text.not_mem_of_mem_split listed
    · rw [lines, Text.join_split]

theorem classify_iff {block : List Text} {label : Label} {page : Block} :
    Block.classify block = some (label, page) ↔
      ∃ lines, Labelled block label lines ∧ Block.Shows lines page := by
  constructor
  · intro read
    unfold Block.classify at read
    split at read
    · rename_i head first rest
      split at read
      · rename_i found defined
        obtain ⟨rfl, shape⟩ := Prod.mk.inj (Option.some.inj read)
        exact ⟨first :: rest, ⟨head, rfl, List.cons_ne_nil _ _, defined⟩, Block.shows_iff.mpr shape⟩
      · cases read
    · cases read
  · rintro ⟨lines, ⟨head, rfl, filled, defined⟩, shows⟩
    obtain ⟨first, rest, rfl⟩ := List.exists_cons_of_ne_nil filled
    simp only [Block.classify, defined, shows.ofLines_eq]

theorem labelled_iff {block : List Text} {label : Label} :
    (∃ lines, Labelled block label lines) ↔ ∃ page, Block.classify block = some (label, page) := by
  constructor
  · rintro ⟨lines, labelled⟩
    obtain ⟨head, rfl, filled, defined⟩ := labelled
    obtain ⟨first, rest, rfl⟩ := List.exists_cons_of_ne_nil filled
    obtain ⟨page, shows⟩ := Block.exists_shows first rest
    exact ⟨page, classify_iff.mpr ⟨_, ⟨head, rfl, filled, defined⟩, shows⟩⟩
  · rintro ⟨page, read⟩
    obtain ⟨lines, labelled, _⟩ := classify_iff.mp read
    exact ⟨lines, labelled⟩

theorem last_iff {blocks : List (List Text)} {label : Label} {page : Block} :
    BlockMap.last (blocks.filterMap Block.classify) label = some page ↔
      ∃ lines, LastUnder blocks label lines ∧ Block.Shows lines page := by
  rw [BlockMap.last, List.lookup_eq_some_iff]
  constructor
  · rintro ⟨after, before, whole, others⟩
    rw [List.reverse_eq_append_iff, List.reverse_cons, List.append_assoc, List.singleton_append,
      List.filterMap_eq_append_iff] at whole
    obtain ⟨front, back, rfl, _, found⟩ := whole
    obtain ⟨skipped, block, later, rfl, _, read, rest⟩ := List.filterMap_eq_cons_iff.mp found
    obtain ⟨lines, labelled, shows⟩ := classify_iff.mp read
    refine ⟨lines, ⟨front ++ skipped, block, later, by simp, labelled, ?_⟩, shows⟩
    intro other member lines again
    obtain ⟨page', read'⟩ := labelled_iff.mp ⟨lines, again⟩
    have listed : (label, page') ∈ after.reverse := by
      rw [← rest]
      exact List.mem_filterMap.mpr ⟨other, member, read'⟩
    simpa using others _ (List.mem_reverse.mp listed)
  · rintro ⟨lines, ⟨before, block, after, rfl, labelled, others⟩, shows⟩
    have read := classify_iff.mpr ⟨lines, labelled, shows⟩
    refine ⟨(after.filterMap Block.classify).reverse, (before.filterMap Block.classify).reverse,
      ?_, ?_⟩
    · rw [List.filterMap_append, List.filterMap_cons_some read]
      simp
    · intro pair member
      obtain ⟨other, listed, read'⟩ := List.mem_filterMap.mp (List.mem_reverse.mp member)
      rw [bne_iff_ne]
      rintro rfl
      obtain ⟨lines', again⟩ := labelled_iff.mpr ⟨pair.2, read'⟩
      exact others other listed lines' again

theorem isTop_iff {blocks : List (List Text)} {label : Label} :
    BlockMap.isTop (BlockMap.last (blocks.filterMap Block.classify) label) = true ↔
      Top blocks label := by
  rw [BlockMap.isTop_iff]
  constructor
  · rintro ⟨title, entries, found⟩
    obtain ⟨lines, under, shows⟩ := last_iff.mp found
    cases shows with
    | menu steps back => exact ⟨lines, _, _, _, under, steps, back⟩
  · rintro ⟨lines, title, options, rest, under, steps, back⟩
    exact ⟨title, _, last_iff.mpr ⟨lines, under, .menu steps back⟩⟩

theorem root?_iff {blocks : List (List Text)} {label : Label} :
    BlockMap.root? (blocks.filterMap Block.classify) = some label ↔ FirstTop blocks label := by
  rw [BlockMap.root?, List.find?_eq_some_iff_append, isTop_iff, FirstTop]
  apply and_congr_right
  intro _
  constructor
  · rintro ⟨front, back, whole, others⟩
    rw [List.map_eq_append_iff] at whole
    obtain ⟨pairs, later, split, rfl, following⟩ := whole
    obtain ⟨pair, rest, rfl, rfl, rfl⟩ := List.map_eq_cons_iff.mp following
    obtain ⟨before, tail, rfl, rfl, found⟩ := List.filterMap_eq_append_iff.mp split
    obtain ⟨skipped, block, after, rfl, unread, read, _⟩ := List.filterMap_eq_cons_iff.mp found
    obtain ⟨lines, labelled⟩ := labelled_iff.mpr ⟨pair.2, read⟩
    refine ⟨before ++ skipped, block, after, lines, by simp, labelled, ?_⟩
    intro earlier member other lines' under
    obtain ⟨page, read'⟩ := labelled_iff.mp ⟨lines', under⟩
    rcases List.mem_append.mp member with inside | passed
    · have listed : other ∈ (before.filterMap Block.classify).map Prod.fst :=
        List.mem_map.mpr ⟨_, List.mem_filterMap.mpr ⟨earlier, inside, read'⟩, rfl⟩
      rw [← isTop_iff]
      simpa using others other listed
    · rw [unread earlier passed] at read'
      cases read'
  · rintro ⟨before, block, after, lines, rfl, labelled, others⟩
    obtain ⟨page, read⟩ := labelled_iff.mp ⟨lines, labelled⟩
    refine ⟨(before.filterMap Block.classify).map Prod.fst,
      (after.filterMap Block.classify).map Prod.fst, ?_, ?_⟩
    · rw [List.filterMap_append, List.filterMap_cons_some read, List.map_append, List.map_cons]
    · intro other member
      obtain ⟨pair, listed, rfl⟩ := List.mem_map.mp member
      obtain ⟨earlier, inside, read'⟩ := List.mem_filterMap.mp listed
      obtain ⟨lines', under⟩ := labelled_iff.mpr ⟨pair.2, read'⟩
      have below := others earlier inside pair.1 lines' under
      rw [← isTop_iff] at below
      simpa using below

/-- The blocks of a text describe the pages and the root that are read from it. -/
theorem describes_iff {text : Text} {blocks : List (List Text)} (cut : CutInto text blocks)
    {pages : BlockMap} {root : Option Label} :
    Describes blocks pages root ↔
      pages = BlockMap.last (labelled text) ∧ root = BlockMap.root? (labelled text) := by
  have read : labelled text = blocks.filterMap Block.classify := by
    rw [labelled, cutInto_iff.mp cut]
  rw [read]
  constructor
  · rintro ⟨page, top⟩
    constructor
    · funext label
      apply Option.ext
      intro block
      rw [page, last_iff]
    · apply Option.ext
      intro label
      rw [top, root?_iff]
  · rintro ⟨rfl, rfl⟩
    exact ⟨fun _ _ => last_iff, fun _ => root?_iff⟩

end Listing

end CalcApp
