import CalcApp.Program.Draft
import CalcApp.Proofs.Compile

/-! Compiling with a changing map of pages gives the program, the failure and the events that
compiling node by node gives. A menu is in the map before its children are met, so that it is always
found there. -/

namespace CalcApp

namespace Draft

open Program (Part labelAt labelOf maxChoices compileNode compileNodes)

section Steps

variable {α β : Type} {draft after : Draft} {value : α} {cause : GenerateError} {first : Step α}

theorem run_bind_ok (next : α → Step β) (success : first.run.run draft = (.ok value, after)) :
    (first >>= next).run.run draft = (next value).run.run after := by
  rw [ExceptT.run_bind, StateT.run_bind, success]
  rfl

theorem run_bind_error (next : α → Step β) (failure : first.run.run draft = (.error cause, after)) :
    (first >>= next).run.run draft = (.error cause, after) := by
  rw [ExceptT.run_bind, StateT.run_bind, failure]
  rfl

theorem run_catch_ok (handle : GenerateError → Step α)
    (success : first.run.run draft = (.ok value, after)) :
    (tryCatch first handle).run.run draft = (.ok value, after) := by
  rw [ExceptT.run_tryCatch, StateT.run_bind, success]
  rfl

theorem run_catch_error (handle : GenerateError → Step α)
    (failure : first.run.run draft = (.error cause, after)) :
    (tryCatch first handle).run.run draft = (handle cause).run.run after := by
  rw [ExceptT.run_tryCatch, StateT.run_bind, failure]
  rfl

theorem run_guarded_fatal {first : Step Unit} {event : GenerateError → Event}
    (failure : first.run.run draft = (.error cause, after)) (fatal : cause.fatal = true) :
    (tryCatch first fun cause =>
      if cause.fatal then throw cause else report (event cause)).run.run draft =
      (.error cause, after) := by
  rw [run_catch_error _ failure, if_pos fatal]
  rfl

theorem run_guarded_skip {first : Step Unit} {event : GenerateError → Event}
    (failure : first.run.run draft = (.error cause, after)) (mild : cause.fatal = false) :
    (tryCatch first fun cause =>
      if cause.fatal then throw cause else report (event cause)).run.run draft =
      (.ok (), { after with log := after.log ++ [event cause] }) := by
  rw [run_catch_error _ failure, if_neg (by simp [mild])]
  rfl

theorem run_get (draft : Draft) : (get : Step Draft).run.run draft = (.ok draft, draft) := rfl

theorem run_nextLabel_ok {label : Label} (named : labelAt draft.next = .ok label) :
    nextLabel.run.run draft = (.ok label, { draft with next := draft.next + 1 }) := by
  rw [nextLabel, run_bind_ok _ (run_get draft), named]
  rfl

theorem run_nextLabel_error (failed : labelAt draft.next = .error cause) :
    nextLabel.run.run draft = (.error cause, draft) := by
  rw [nextLabel, run_bind_ok _ (run_get draft), failed]
  rfl

end Steps

section Pages

variable {pages : List (Label × Page)} {menu label : Label}

theorem insert_last {page : Page} (before : ∀ pair ∈ pages, pair.1.index.val < label.index.val) :
    insert label page pages = pages ++ [(label, page)] := by
  induction pages with
  | nil => rfl
  | cons pair rest ih =>
      have less := before pair (List.mem_cons_self ..)
      have other : label ≠ pair.1 := by
        rintro rfl
        omega
      have later : ¬ label ≤ pair.1 := Nat.not_le.mpr less
      rw [insert, if_neg other, if_neg later, ih fun page member => before page (.tail _ member)]
      rfl

theorem addEntries_append (more : List Choice) (front back : List (Label × Page)) :
    addEntries menu more (front ++ back) =
      addEntries menu more front ++ addEntries menu more back :=
  List.map_append

theorem addEntries_eq_self {more : List Choice}
    (same : ∀ pair ∈ pages, pair.1 = menu → pair.2.addEntries more = pair.2) :
    addEntries menu more pages = pages := by
  have kept : ∀ pair ∈ pages,
      (pair.1, if pair.1 = menu then pair.2.addEntries more else pair.2) = id pair := by
    intro pair member
    split
    · rename_i here
      rw [same pair member here]
      rfl
    · rfl
  exact (List.map_congr_left kept).trans (List.map_id pages)

theorem addEntries_of_absent (more : List Choice) (absent : menu ∉ pages.map Prod.fst) :
    addEntries menu more pages = pages :=
  addEntries_eq_self fun _ member here => absurd (here ▸ List.mem_map_of_mem member) absent

theorem addEntries_nil (pages : List (Label × Page)) : addEntries menu [] pages = pages := by
  apply addEntries_eq_self
  intro pair _ _
  cases pair.2 <;> simp [Page.addEntries]

theorem addEntries_addEntries (first second : List Choice) (pages : List (Label × Page)) :
    addEntries menu second (addEntries menu first pages) =
      addEntries menu (first ++ second) pages := by
  rw [addEntries, addEntries, addEntries, List.map_map]
  apply List.map_congr_left
  intro pair member
  by_cases here : pair.1 = menu
  · cases shape : pair.2 <;> simp [here, shape, Page.addEntries]
  · simp [here]

theorem fst_addEntries (more : List Choice) (pages : List (Label × Page)) :
    (addEntries menu more pages).map Prod.fst = pages.map Prod.fst := by
  rw [addEntries, List.map_map]
  rfl

theorem lookup_addEntries (more : List Choice) (pages : List (Label × Page)) :
    (addEntries menu more pages).lookup menu = (pages.lookup menu).map (Page.addEntries more) := by
  induction pages with
  | nil => rfl
  | cons pair rest ih =>
      rw [addEntries, List.map_cons, ← addEntries, List.lookup_cons, List.lookup_cons]
      by_cases here : menu = pair.1
      · simp [here]
      · simp [beq_false_of_ne here, ih]

theorem lookup_last {page : Page} (absent : label ∉ pages.map Prod.fst) :
    (pages ++ [(label, page)]).lookup label = some page := by
  have none : pages.lookup label = none := by
    rw [List.lookup_eq_none_iff]
    intro pair member
    have other : label ≠ pair.1 := fun here => absent (here ▸ List.mem_map_of_mem member)
    simpa using other
  rw [List.lookup_append, none, Option.none_or, List.lookup_cons_self]

end Pages

def Tidy (draft : Draft) : Prop := ∀ page ∈ draft.pages, page.1.index.val < draft.next

def extend (draft : Draft) (menu : Label) (part : Part) (log : List Event) : Draft :=
  { draft with
    next := part.next
    pages := addEntries menu part.entries draft.pages ++ part.pages
    log := draft.log ++ log }

/-- How building on a draft ends, if it does what compiling some nodes does. -/
inductive Follows (draft : Draft) (menu : Label) :
    Traced GenerateError Part → Except GenerateError Unit × Draft → Prop
  | built {part : Part} {log : List Event} :
      Follows draft menu ⟨log, .ok part⟩ (.ok (), draft.extend menu part log)
  | failed {cause : GenerateError} {log : List Event} {after : Draft} (fatal : cause.fatal = true)
      (reported : after.log = draft.log ++ log) :
      Follows draft menu ⟨log, .error cause⟩ (.error cause, after)

section Labels

variable {next : Nat} {label : Label} {cause : GenerateError}

theorem index_of_labelAt (named : labelAt next = .ok label) : label.index.val = next := by
  by_cases bound : next < 676
  · rw [Program.labelAt_of_lt bound] at named
    cases named
    exact Program.labelOf_index bound
  · rw [Program.labelAt_of_le (Nat.not_lt.mp bound)] at named
    cases named

theorem fatal_of_labelAt (failed : labelAt next = .error cause) : cause.fatal = true := by
  by_cases bound : next < 676
  · rw [Program.labelAt_of_lt bound] at failed
    cases failed
  · rw [Program.labelAt_of_le (Nat.not_lt.mp bound)] at failed
    cases failed
    rfl

end Labels

section Room

variable {draft : Draft} {parent : Label} {title : Text} {entries : List Choice}
  {above : Option Label}

theorem run_checkRoom (found : draft.pages.lookup parent = some (.menu title entries above)) :
    (checkRoom parent).run.run draft =
      (if entries.length + 1 + 1 ≤ maxChoices then .ok ()
        else .error (.menuOverflow parent maxChoices), draft) := by
  rw [checkRoom, run_bind_ok _ (run_get draft), found]
  dsimp only
  split <;> rfl

theorem mem_of_lookup {pages : List (Label × Page)} {label : Label} {page : Page}
    (found : pages.lookup label = some page) : (label, page) ∈ pages := by
  obtain ⟨front, back, rfl, _⟩ := List.lookup_eq_some_iff.mp found
  simp

theorem run_addPage (tidy : draft.Tidy)
    (found : draft.pages.lookup parent = some (.menu title entries above))
    (room : entries.length + 1 + 1 ≤ maxChoices) {label : Label}
    (named : labelAt draft.next = .ok label) (name : Text) (page : Page) :
    (addPage parent name page).run.run draft =
      (.ok label, draft.extend parent ⟨[⟨name, label⟩], [(label, page)], draft.next + 1⟩ []) := by
  have index := index_of_labelAt named
  have checked := run_checkRoom found
  rw [if_pos room] at checked
  have known : parent.index.val < draft.next := tidy _ (mem_of_lookup found)
  have other : label ≠ parent := by
    rintro rfl
    omega
  have last : insert label page draft.pages = draft.pages ++ [(label, page)] :=
    insert_last fun pair member => by
      rw [index]
      exact tidy pair member
  rw [addPage, run_bind_ok _ checked, run_bind_ok _ (run_nextLabel_ok named)]
  change (Except.ok label, ({ draft with
    next := draft.next + 1
    pages := addEntries parent [⟨name, label⟩] (insert label page draft.pages) } : Draft)) = _
  rw [last, addEntries_append, extend, List.append_nil]
  simp [addEntries, other]

theorem run_addSubmenu (parent : Label) (title : Text) (draft : Draft) :
    (addSubmenu parent title).run.run draft =
      (addPage parent title (.menu title [] (some parent))).run.run draft := by
  have same : addMenu title (some parent) =
      (do
        let label ← nextLabel
        setPage label (.menu title [] (some parent))
        pure label) := rfl
  rw [addSubmenu, addPage, same]
  simp only [bind_assoc, pure_bind]

theorem run_addPage_error (found : draft.pages.lookup parent = some (.menu title entries above))
    (room : entries.length + 1 + 1 ≤ maxChoices) {cause : GenerateError}
    (failed : labelAt draft.next = .error cause) (name : Text) (page : Page) :
    (addPage parent name page).run.run draft = (.error cause, draft) := by
  have checked := run_checkRoom found
  rw [if_pos room] at checked
  rw [addPage, run_bind_ok _ checked, run_bind_error _ (run_nextLabel_error failed)]

theorem run_addPage_full (found : draft.pages.lookup parent = some (.menu title entries above))
    (full : ¬ entries.length + 1 + 1 ≤ maxChoices) (name : Text) (page : Page) :
    (addPage parent name page).run.run draft =
      (.error (.menuOverflow parent maxChoices), draft) := by
  have checked := run_checkRoom found
  rw [if_neg full] at checked
  rw [addPage, run_bind_error _ checked]

theorem run_buildChild_full (charsPerLine : Nat)
    (found : draft.pages.lookup parent = some (.menu title entries above))
    (full : ¬ entries.length + 1 + 1 ≤ maxChoices) (child : Node) :
    (buildChild charsPerLine parent child).run.run draft =
      (.error (.menuOverflow parent maxChoices), draft) := by
  cases child with
  | menu id title children =>
      rw [buildChild]
      apply run_bind_error
      rw [run_addSubmenu]
      exact run_addPage_full found full _ _
  | note id title content =>
      rw [buildChild]
      exact run_bind_error _ (run_addPage_full found full _ _)
  | code id title content =>
      rw [buildChild]
      exact run_bind_error _ (run_addPage_full found full _ _)

end Room

section Compile

variable {charsPerLine : Nat} {draft : Draft} {parent : Label} {title : Text}
  {entries : List Choice} {above : Option Label}

theorem follows_addPage (tidy : draft.Tidy)
    (found : draft.pages.lookup parent = some (.menu title entries above))
    (room : entries.length + 1 + 1 ≤ maxChoices) (name : Text) (page : Page) :
    Follows draft parent
      (do
        let label ← ⟨[], labelAt draft.next⟩
        pure ⟨[⟨name, label⟩], [(label, page)], draft.next + 1⟩)
      ((do let _ ← addPage parent name page : Step Unit).run.run draft) := by
  cases named : labelAt draft.next with
  | ok label =>
      rw [run_bind_ok _ (run_addPage tidy found room named name page)]
      exact .built
  | error cause =>
      rw [run_bind_error _ (run_addPage_error found room named name page)]
      exact .failed (fatal_of_labelAt named) (List.append_nil _).symm

theorem fresh_of_compileNode {next : Nat} {node : Node} {part : Part}
    (compiled : (compileNode charsPerLine parent next node).result = .ok part) :
    part.entries.length = 1 ∧ next ≤ part.next ∧
      ∀ page ∈ part.pages, next ≤ page.1.index.val ∧ page.1.index.val < part.next := by
  rw [Program.compileNode_result] at compiled
  split at compiled
  · rename_i fits
    cases compiled
    refine ⟨rfl, Nat.le_add_right _ _, ?_⟩
    intro page member
    have label := List.mem_map_of_mem (f := Prod.fst) member
    rw [Program.pagesAt_labels] at label
    obtain ⟨index, listed, same⟩ := List.mem_map.mp label
    rw [List.mem_range'_1] at listed
    rw [← same, Program.labelOf_index (by omega)]
    exact listed
  · cases compiled

theorem Tidy.extend (tidy : draft.Tidy) {part : Part} (grows : draft.next ≤ part.next)
    (labels : ∀ page ∈ part.pages, page.1.index.val < part.next) (menu : Label)
    (log : List Event) : (draft.extend menu part log).Tidy := by
  intro page member
  rcases List.mem_append.mp member with old | new
  · have known : page.1 ∈ draft.pages.map Prod.fst := by
      rw [← fst_addEntries]
      exact List.mem_map_of_mem old
    obtain ⟨before, listed, same⟩ := List.mem_map.mp known
    rw [← same]
    exact Nat.lt_of_lt_of_le (tidy before listed) grows
  · exact labels page new

theorem Tidy.not_mem (tidy : draft.Tidy) {label : Label} (later : draft.next ≤ label.index.val) :
    label ∉ draft.pages.map Prod.fst := by
  intro known
  obtain ⟨page, listed, rfl⟩ := List.mem_map.mp known
  exact Nat.lt_irrefl _ (Nat.lt_of_lt_of_le (tidy page listed) later)

theorem extend_menu {label : Label} (absent : label ∉ draft.pages.map Prod.fst) (name : Text)
    (next : Nat) (part : Part) (log : List Event) :
    (draft.extend parent ⟨[⟨name, label⟩], [(label, .menu name [] (some parent))], next⟩ []).extend
        label part log =
      draft.extend parent ⟨[⟨name, label⟩],
        (label, .menu name part.entries (some parent)) :: part.pages, part.next⟩ log := by
  have before : addEntries label part.entries (addEntries parent [⟨name, label⟩] draft.pages) =
      addEntries parent [⟨name, label⟩] draft.pages := by
    apply addEntries_of_absent
    rwa [fst_addEntries]
  simp only [extend, addEntries_append, before, List.append_nil, List.append_assoc]
  simp [addEntries, Page.addEntries]

theorem extend_extend {menu : Label} {part : Part} (absent : menu ∉ part.pages.map Prod.fst)
    (log : List Event) (more : Part) (events : List Event) :
    (draft.extend menu part log).extend menu more events =
      draft.extend menu ⟨part.entries ++ more.entries, part.pages ++ more.pages, more.next⟩
        (log ++ events) := by
  simp only [extend, addEntries_append, addEntries_addEntries, addEntries_of_absent _ absent,
    List.append_assoc]

/-- What is built below a menu is built on the draft with the menu's own page. -/
theorem Follows.below {label : Label} {name : Text} {next : Nat}
    {inner : Label → Traced GenerateError Part} {ended : Except GenerateError Unit × Draft}
    (absent : label ∉ draft.pages.map Prod.fst)
    (follows : Follows (draft.extend parent ⟨[⟨name, label⟩],
      [(label, .menu name [] (some parent))], next⟩ []) label (inner label) ended) :
    Follows draft parent
      (do
        let label ← ⟨[], .ok label⟩
        let part ← inner label
        pure ⟨[⟨name, label⟩], (label, .menu name part.entries (some parent)) :: part.pages,
          part.next⟩) ended := by
  rw [Traced.bind_ok]
  generalize inner label = outcome at follows ⊢
  cases follows with
  | built =>
      rw [Traced.bind_pure_ok, extend_menu absent]
      exact .built
  | failed fatal reported =>
      refine .failed fatal ?_
      rw [reported]
      exact congrArg (· ++ _) (List.append_nil draft.log)

theorem Follows.beside {menu : Label} {part : Part} {log : List Event}
    {others : Part → Traced GenerateError Part} {ended : Except GenerateError Unit × Draft}
    (absent : menu ∉ part.pages.map Prod.fst)
    (follows : Follows (draft.extend menu part log) menu (others part) ended) :
    Follows draft menu
      (do
        let first ← ⟨log, .ok part⟩
        let more ← others first
        pure ⟨first.entries ++ more.entries, first.pages ++ more.pages, more.next⟩) ended := by
  rw [Traced.bind_ok]
  generalize others part = outcome at follows ⊢
  cases follows with
  | built =>
      rw [Traced.bind_pure_ok, extend_extend absent]
      exact .built
  | failed fatal reported =>
      refine .failed fatal ?_
      rw [reported]
      exact List.append_assoc _ _ _

theorem Follows.noted {menu : Label} {event : Event} {outcome : Traced GenerateError Part}
    {ended : Except GenerateError Unit × Draft}
    (follows : Follows { draft with log := draft.log ++ [event] } menu outcome ended) :
    Follows draft menu
      (do
        Traced.report event
        outcome) ended := by
  rw [Traced.report, Traced.bind_ok]
  cases follows with
  | @built part log =>
      have whole : Draft.extend { draft with log := draft.log ++ [event] } menu part log =
          draft.extend menu part (event :: log) := by
        simp [extend]
      rw [whole]
      exact .built
  | failed fatal reported =>
      refine .failed fatal ?_
      rw [reported]
      exact List.append_assoc _ _ _

mutual

theorem follows_buildChild :
    (child : Node) → {draft : Draft} → {parent : Label} → {title : Text} →
      {entries : List Choice} → {above : Option Label} → draft.Tidy →
      draft.pages.lookup parent = some (.menu title entries above) →
      entries.length + 1 + 1 ≤ maxChoices →
      Follows draft parent (compileNode charsPerLine parent draft.next child)
        ((buildChild charsPerLine parent child).run.run draft)
  | .menu id name children, draft, parent, title, entries, above, tidy, found, room => by
      rw [buildChild, compileNode]
      cases named : labelAt draft.next with
      | ok label =>
          have index := index_of_labelAt named
          have absent : label ∉ draft.pages.map Prod.fst := tidy.not_mem (Nat.le_of_eq index.symm)
          have added := run_addPage tidy found room named name (.menu name [] (some parent))
          rw [← run_addSubmenu] at added
          have inside : (draft.extend parent ⟨[⟨name, label⟩],
              [(label, .menu name [] (some parent))], draft.next + 1⟩ []).Tidy := by
            apply tidy.extend (Nat.le_succ draft.next)
            simp [index]
          have own : (draft.extend parent ⟨[⟨name, label⟩],
              [(label, .menu name [] (some parent))], draft.next + 1⟩ []).pages.lookup label =
              some (.menu name [] (some parent)) := by
            apply lookup_last
            rwa [fst_addEntries]
          rw [run_bind_ok _ added]
          exact (follows_buildChildren children inside own).below absent
      | error cause =>
          have failed := run_addPage_error found room named name (.menu name [] (some parent))
          rw [← run_addSubmenu] at failed
          rw [run_bind_error _ failed]
          exact .failed (fatal_of_labelAt named) (List.append_nil _).symm
  | .note id name content, draft, parent, title, entries, above, tidy, found, room => by
      rw [buildChild, compileNode]
      exact follows_addPage tidy found room _ _
  | .code id name content, draft, parent, title, entries, above, tidy, found, room => by
      rw [buildChild, compileNode]
      exact follows_addPage tidy found room _ _

theorem follows_buildChildren :
    (children : List Node) → {draft : Draft} → {parent : Label} → {title : Text} →
      {entries : List Choice} → {above : Option Label} → draft.Tidy →
      draft.pages.lookup parent = some (.menu title entries above) →
      Follows draft parent (compileNodes charsPerLine parent entries.length draft.next children)
        ((buildChildren charsPerLine parent children).run.run draft)
  | [], draft, parent, title, entries, above, tidy, found => by
      have same : draft.extend parent ⟨[], [], draft.next⟩ [] = draft := by
        simp [extend, addEntries_nil]
      have built := @Follows.built draft parent ⟨[], [], draft.next⟩ []
      rw [same] at built
      rw [buildChildren, compileNodes]
      exact built
  | child :: rest, draft, parent, title, entries, above, tidy, found => by
      rw [buildChildren, compileNodes]
      by_cases room : entries.length + 1 + 1 ≤ maxChoices
      · have first := follows_buildChild child tidy found room
        have fresh := @fresh_of_compileNode charsPerLine parent draft.next child
        rw [if_pos room]
        generalize compileNode charsPerLine parent draft.next child = outcome at first fresh ⊢
        generalize ended : (buildChild charsPerLine parent child).run.run draft = ending at first
        cases first with
        | @built part log =>
            obtain ⟨one, grows, labels⟩ := fresh rfl
            have known : parent.index.val < draft.next := tidy _ (mem_of_lookup found)
            -- the menu is older than the pages of its child, so it is still found as it was
            have absent : parent ∉ part.pages.map Prod.fst := by
              intro listed
              obtain ⟨page, member, same⟩ := List.mem_map.mp listed
              have late := (labels page member).1
              rw [same] at late
              omega
            have onward := tidy.extend grows (fun page member => (labels page member).2) parent log
            have still : (draft.extend parent part log).pages.lookup parent =
                some (.menu title (entries ++ part.entries) above) := by
              rw [extend, List.lookup_append, lookup_addEntries, found]
              rfl
            have later := follows_buildChildren rest onward still
            rw [List.length_append, one] at later
            rw [run_bind_ok _ (run_catch_ok _ ended)]
            exact later.beside absent
        | failed fatal reported =>
            rw [run_bind_error _ (run_guarded_fatal ended fatal)]
            exact .failed fatal reported
      · have full := run_buildChild_full charsPerLine found room child
        rw [if_neg room, run_bind_ok _ (run_guarded_skip full rfl)]
        apply Follows.noted
        exact @follows_buildChildren rest { draft with log := _ } parent title entries above tidy
          found

end

/-- A tree is compiled to the same program, or fails for the same cause, with the same events. -/
theorem compile_eq (settings : Settings) (root : Node) :
    compile settings root = Program.compile settings root := by
  cases root with
  | menu id title children =>
      let start : Draft := ⟨2, [(labelOf 0, .menu title [] none), (labelOf 1, .quit)],
        some (labelOf 0), some (labelOf 1), []⟩
      have added : (addMenu title none).run.run {} = (.ok (labelOf 0), start) := rfl
      have tidy : start.Tidy := by simp [Tidy, start, labelOf]
      have below := @follows_buildChildren settings.charsPerLine children start (labelOf 0) title []
        none tidy rfl
      have compiled : Program.compile settings (.menu id title children) =
          (do
            let inner ← compileNodes settings.charsPerLine (labelOf 0) 0 2 children
            let pages := (labelOf 0, .menu title inner.entries none) :: (labelOf 1, .quit) ::
              inner.pages
            Traced.report (.compiled pages.length inner.next)
            pure ⟨pages, labelOf 0, labelOf 1, settings.linesPerScreen⟩) := rfl
      rw [compile, build, run_bind_ok _ added, compiled]
      change Follows _ _ (compileNodes settings.charsPerLine (labelOf 0) 0 2 children) _ at below
      generalize compileNodes settings.charsPerLine (labelOf 0) 0 2 children = outcome at below ⊢
      generalize ended : (buildChildren settings.charsPerLine (labelOf 0) children).run.run start =
        ending at below
      cases below with
      | built =>
          rw [run_bind_ok _ ended]
          rfl
      | failed fatal reported =>
          rw [run_bind_error _ ended]
          exact congrArg (Traced.mk · _) reported
  | note id title content => rfl
  | code id title content => rfl

mutual

theorem skips_of_compileNode :
    (node : Node) → {parent : Label} → {next : Nat} → {event : Event} →
      event ∈ (compileNode charsPerLine parent next node).log →
      ∃ id title menu, event = .entrySkipped id title (.menuOverflow menu maxChoices)
  | .menu id title children, parent, next, event, member => by
      rw [compileNode] at member
      rcases Traced.mem_log_bind member with none | ⟨label, _, member⟩
      · cases none
      · rcases Traced.mem_log_bind member with inner | ⟨_, _, none⟩
        · exact skips_of_compileNodes children inner
        · cases none
  | .note id title content, parent, next, event, member => by
      rw [compileNode] at member
      rcases Traced.mem_log_bind member with none | ⟨_, _, none⟩ <;> cases none
  | .code id title content, parent, next, event, member => by
      rw [compileNode] at member
      rcases Traced.mem_log_bind member with none | ⟨_, _, none⟩ <;> cases none

theorem skips_of_compileNodes :
    (children : List Node) → {parent : Label} → {taken next : Nat} → {event : Event} →
      event ∈ (compileNodes charsPerLine parent taken next children).log →
      ∃ id title menu, event = .entrySkipped id title (.menuOverflow menu maxChoices)
  | [], parent, taken, next, event, member => by
      rw [compileNodes] at member
      cases member
  | child :: rest, parent, taken, next, event, member => by
      rw [compileNodes] at member
      split at member
      · rcases Traced.mem_log_bind member with first | ⟨_, _, member⟩
        · exact skips_of_compileNode child first
        · rcases Traced.mem_log_bind member with later | ⟨_, _, none⟩
          · exact skips_of_compileNodes rest later
          · cases none
      · rcases Traced.mem_log_bind member with own | ⟨_, _, later⟩
        · exact ⟨_, _, _, List.mem_singleton.mp own⟩
        · exact skips_of_compileNodes rest later

end

/-- The menu of a node that is met is always found among the pages. -/
theorem compile_finds_parents (settings : Settings) (root : Node) (label : Label) :
    (compile settings root).result ≠ .error (.invalidParent label) ∧
      ∀ id title, .entrySkipped id title (.invalidParent label) ∉ (compile settings root).log := by
  rw [compile_eq]
  cases root with
  | menu id title children =>
      constructor
      · rw [Program.compile_menu]
        split <;> simp
      · intro id title member
        rw [Program.compile] at member
        rcases Traced.mem_log_bind member with none | ⟨_, _, member⟩
        · cases none
        · rcases Traced.mem_log_bind member with none | ⟨_, _, member⟩
          · cases none
          · rcases Traced.mem_log_bind member with below | ⟨_, _, member⟩
            · obtain ⟨_, _, _, same⟩ := skips_of_compileNodes children below
              cases same
            · rcases Traced.mem_log_bind member with own | ⟨_, _, none⟩
              · cases List.mem_singleton.mp own
              · cases none
  | note id title content => exact ⟨fun same => (by cases same), fun _ _ => List.not_mem_nil⟩
  | code id title content => exact ⟨fun same => (by cases same), fun _ _ => List.not_mem_nil⟩

end Compile

end Draft

end CalcApp
