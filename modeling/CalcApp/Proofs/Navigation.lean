import CalcApp.Proofs.Preorder
import Mathlib.Logic.Relation

/-! The navigation graph of a compiled program: its menus lead to every page but the quit page,
each along one path. The entries of the menus and the parents that the pages name are the same
pairs of labels, each once, and they lead from lower labels to higher ones. -/

namespace CalcApp

namespace Page

def parent? : Page → Option Label
  | .menu _ _ parent => parent
  | .note _ parent => some parent
  | .code _ parent => some parent
  | .quit => none

def entries : Page → List Choice
  | .menu _ entries _ => entries
  | _ => []

end Page

namespace Program

/-- Each entry of each menu, as the label of the menu and the label that the entry leads to. -/
def linksOf (pages : List (Label × Page)) : List (Label × Label) :=
  pages.flatMap fun page => page.2.entries.map fun entry => (page.1, entry.target)

def returnsOf (pages : List (Label × Page)) : List (Label × Label) :=
  pages.filterMap fun page => page.2.parent?.map fun parent => (parent, page.1)

def links (program : Program) : List (Label × Label) := linksOf program.pages

@[simp] theorem linksOf_cons (label : Label) (page : Page) (rest : List (Label × Page)) :
    linksOf ((label, page) :: rest) =
      page.entries.map (fun entry => (label, entry.target)) ++ linksOf rest := rfl

@[simp] theorem linksOf_append (front back : List (Label × Page)) :
    linksOf (front ++ back) = linksOf front ++ linksOf back := List.flatMap_append

@[simp] theorem returnsOf_append (front back : List (Label × Page)) :
    returnsOf (front ++ back) = returnsOf front ++ returnsOf back := List.filterMap_append

theorem mem_returnsOf {pages : List (Label × Page)} {parent label : Label} :
    (parent, label) ∈ returnsOf pages ↔ ∃ page, (label, page) ∈ pages ∧ page.parent? = some parent := by
  simp [returnsOf]

theorem mem_linksOf {pages : List (Label × Page)} {menu target : Label} :
    (menu, target) ∈ linksOf pages ↔
      ∃ page, (menu, page) ∈ pages ∧ ∃ entry ∈ page.entries, entry.target = target := by
  simp [linksOf]

mutual

theorem pagesAt_links (charsPerLine : Nat) :
    (node : Node) → (parent : Label) → (place : Nat) →
      ((parent, labelOf place) :: linksOf (pagesAt charsPerLine parent place node)).Perm
        (returnsOf (pagesAt charsPerLine parent place node))
  | .menu id title children, parent, place => by
      have inner := pagesIn_links charsPerLine children (labelOf place) (place + 1)
      exact inner.cons (parent, labelOf place)
  | .note id title content, parent, place => by
      simp [pagesAt, pageAt, linksOf, returnsOf, Page.entries, Page.parent?]
  | .code id title content, parent, place => by
      simp [pagesAt, pageAt, linksOf, returnsOf, Page.entries, Page.parent?]

theorem pagesIn_links (charsPerLine : Nat) :
    (children : List Node) → (parent : Label) → (place : Nat) →
      ((entriesAt place children).map (fun entry => (parent, entry.target)) ++
          linksOf (pagesIn charsPerLine parent place children)).Perm
        (returnsOf (pagesIn charsPerLine parent place children))
  | [], parent, place => by simp [entriesAt, pagesIn, linksOf, returnsOf]
  | child :: rest, parent, place => by
      have first := pagesAt_links charsPerLine child parent place
      have others := pagesIn_links charsPerLine rest parent (place + child.size)
      rw [pagesIn, linksOf_append, returnsOf_append, entriesAt, List.map_cons, List.cons_append]
      refine List.Perm.trans ?_ (first.append others)
      rw [List.cons_append]
      apply List.Perm.cons
      rw [← List.append_assoc, ← List.append_assoc]
      exact List.perm_append_comm.append_right _

end

theorem ofTree_links (settings : Settings) (title : Text) (children : List Node) :
    (ofTree settings title children).links.Perm
      (returnsOf (ofTree settings title children).pages) := by
  have inner := pagesIn_links settings.charsPerLine children (labelOf 0) 2
  simpa [links, ofTree, linksOf, returnsOf, Page.entries, Page.parent?] using inner

mutual

theorem pagesAt_later (charsPerLine : Nat) :
    (node : Node) → {parent : Label} → {place : Nat} → parent.index.val < place →
      place + node.size ≤ 676 →
      ∀ label page, (label, page) ∈ pagesAt charsPerLine parent place node →
        ∃ above, page.parent? = some above ∧ above.index.val < label.index.val
  | .menu id title children, parent, place, earlier, fits => by
      intro label page member
      rw [Node.size_menu] at fits
      have own : (labelOf place).index.val = place := labelOf_index (by omega)
      rcases List.mem_cons.mp member with same | inner
      · cases same
        exact ⟨parent, rfl, by omega⟩
      · exact pagesIn_later charsPerLine children (by omega) (by omega) label page inner
  | .note id title content, parent, place, earlier, fits => by
      intro label page member
      rw [Node.size_note] at fits
      have own : (labelOf place).index.val = place := labelOf_index (by omega)
      cases List.mem_singleton.mp member
      exact ⟨parent, rfl, by omega⟩
  | .code id title content, parent, place, earlier, fits => by
      intro label page member
      rw [Node.size_code] at fits
      have own : (labelOf place).index.val = place := labelOf_index (by omega)
      cases List.mem_singleton.mp member
      exact ⟨parent, rfl, by omega⟩

theorem pagesIn_later (charsPerLine : Nat) :
    (children : List Node) → {parent : Label} → {place : Nat} → parent.index.val < place →
      place + Node.sizeIn children ≤ 676 →
      ∀ label page, (label, page) ∈ pagesIn charsPerLine parent place children →
        ∃ above, page.parent? = some above ∧ above.index.val < label.index.val
  | [], parent, place, earlier, fits => by
      intro label page member
      cases member
  | child :: rest, parent, place, earlier, fits => by
      intro label page member
      rw [Node.sizeIn_cons] at fits
      rcases List.mem_append.mp member with first | others
      · exact pagesAt_later charsPerLine child earlier (by omega) label page first
      · have shifted : parent.index.val < place + child.size := by omega
        exact pagesIn_later charsPerLine rest shifted (by omega) label page others

end

mutual

theorem pagesAt_room (charsPerLine : Nat) :
    (node : Node) → (parent : Label) → (place : Nat) →
      ∀ page ∈ pagesAt charsPerLine parent place node.kept, page.2.entries.length ≤ 8
  | .menu id title children, parent, place => by
      intro page member
      rw [Node.kept] at member
      rcases List.mem_cons.mp member with rfl | inner
      · simp only [pageAt, Page.entries, entriesAt_length, Node.keptIn_eq, List.length_map,
          List.length_take]
        omega
      · exact pagesIn_room charsPerLine children 8 (labelOf place) (place + 1) page inner
  | .note id title content, parent, place => by
      simp [Node.kept, pagesAt, pageAt, Page.entries]
  | .code id title content, parent, place => by
      simp [Node.kept, pagesAt, pageAt, Page.entries]

theorem pagesIn_room (charsPerLine : Nat) :
    (children : List Node) → (room : Nat) → (parent : Label) → (place : Nat) →
      ∀ page ∈ pagesIn charsPerLine parent place (Node.keptIn room children),
        page.2.entries.length ≤ 8
  | [], room, parent, place => by simp [Node.keptIn, pagesIn]
  | child :: rest, 0, parent, place => by simp [Node.keptIn, pagesIn]
  | child :: rest, left + 1, parent, place => by
      intro page member
      rcases List.mem_append.mp member with first | others
      · exact pagesAt_room charsPerLine child parent place page first
      · exact pagesIn_room charsPerLine rest left parent _ page others

end

def Leads (program : Program) (menu target : Label) : Prop := (menu, target) ∈ program.links

structure Navigable (program : Program) : Prop where
  labels : ∀ label, (program.page? label).isSome ↔ label.index.val < program.pages.length
  ordered : program.pages.map (fun page => page.1.index.val) = List.range program.pages.length
  root : ∀ label, (∃ title entries, program.page? label = some (.menu title entries none)) ↔
    label = program.root
  quit : ∀ label, program.page? label = some .quit ↔ label = program.quit
  room : ∀ label page, program.page? label = some page → page.entries.length ≤ 8
  target : ∀ menu target, program.Leads menu target →
    (program.page? target).isSome ∧ target ≠ program.root ∧ target ≠ program.quit
  entry : ∀ label page, program.page? label = some page → label ≠ program.root →
    label ≠ program.quit → ∃ parent, page.parent? = some parent ∧
      program.links.filter (fun link => link.2 = label) = [(parent, label)]
  later : ∀ label page parent, program.page? label = some page → page.parent? = some parent →
    parent.index.val < label.index.val
  reached : ∀ label, (program.page? label).isSome → label ≠ program.quit →
    Relation.ReflTransGen program.Leads program.root label
  acyclic : ∀ label, ¬ Relation.TransGen program.Leads label label

section Compiled

variable {settings : Settings} {title : Text} {children : List Node}

theorem ofTree_mem {label : Label} {page : Page} (fits : Node.sizeIn children + 2 ≤ 676) :
    (ofTree settings title children).page? label = some page ↔
      (label, page) ∈ (ofTree settings title children).pages := by
  constructor
  · intro found
    obtain ⟨front, back, split, _⟩ := List.lookup_eq_some_iff.mp found
    rw [split]
    simp
  · exact lookup_of_mem (ofTree_distinct settings title fits)

theorem ofTree_unique {label : Label} {page other : Page} (fits : Node.sizeIn children + 2 ≤ 676)
    (member : (label, page) ∈ (ofTree settings title children).pages)
    (again : (label, other) ∈ (ofTree settings title children).pages) : page = other := by
  have found := (ofTree_mem fits).mpr member
  rw [(ofTree_mem fits).mpr again] at found
  exact (Option.some.inj found).symm

theorem ofTree_root_mem : (labelOf 0, Page.menu title (entriesAt 2 children) none) ∈
    (ofTree settings title children).pages := by
  simp [ofTree]

theorem ofTree_quit_mem : (labelOf 1, Page.quit) ∈ (ofTree settings title children).pages := by
  simp [ofTree]

theorem ofTree_isSome {label : Label} (fits : Node.sizeIn children + 2 ≤ 676) :
    ((ofTree settings title children).page? label).isSome ↔
      label.index.val < Node.sizeIn children + 2 := by
  have member : ((ofTree settings title children).page? label).isSome ↔
      label.index.val ∈ (ofTree settings title children).pages.map (fun page => page.1.index.val) := by
    rw [Option.isSome_iff_exists, List.mem_map]
    constructor
    · rintro ⟨page, found⟩
      exact ⟨(label, page), (ofTree_mem fits).mp found, rfl⟩
    · rintro ⟨⟨other, page⟩, present, same⟩
      obtain rfl : other = label := congrArg Label.mk (Fin.ext same)
      exact ⟨page, (ofTree_mem fits).mpr present⟩
  rw [member, ofTree_indices settings title fits, List.mem_range]

/-- A page is that of the root menu, or the quit page, or names a parent with a lower label. -/
theorem ofTree_cases {label : Label} {page : Page} (fits : Node.sizeIn children + 2 ≤ 676)
    (member : (label, page) ∈ (ofTree settings title children).pages) :
    (label = labelOf 0 ∧ page = .menu title (entriesAt 2 children) none) ∨
      (label = labelOf 1 ∧ page = .quit) ∨
      ∃ parent, page.parent? = some parent ∧ parent.index.val < label.index.val := by
  rcases List.mem_cons.mp member with same | member
  · cases same
    exact .inl ⟨rfl, rfl⟩
  rcases List.mem_cons.mp member with same | member
  · cases same
    exact .inr (.inl ⟨rfl, rfl⟩)
  · have first : (labelOf 0).index.val < 2 := by decide
    exact .inr (.inr (pagesIn_later _ children first (by omega) label page member))

theorem ofTree_leads {menu target : Label} :
    (ofTree settings title children).Leads menu target ↔
      (menu, target) ∈ returnsOf (ofTree settings title children).pages :=
  (ofTree_links settings title children).mem_iff

theorem ofTree_leads_lt {menu target : Label} (fits : Node.sizeIn children + 2 ≤ 676)
    (leads : (ofTree settings title children).Leads menu target) :
    menu.index.val < target.index.val := by
  obtain ⟨page, member, back⟩ := mem_returnsOf.mp (ofTree_leads.mp leads)
  rcases ofTree_cases fits member with ⟨_, rfl⟩ | ⟨_, rfl⟩ | ⟨parent, named, earlier⟩
  · cases back
  · cases back
  · rw [named] at back
    cases back
    exact earlier

theorem trans_leads_lt {menu target : Label} (fits : Node.sizeIn children + 2 ≤ 676)
    (leads : Relation.TransGen (ofTree settings title children).Leads menu target) :
    menu.index.val < target.index.val := by
  induction leads with
  | single step => exact ofTree_leads_lt fits step
  | tail _ step ih => exact Nat.lt_trans ih (ofTree_leads_lt fits step)

/-- The one entry that leads to a page belongs to the parent that the page names. -/
theorem ofTree_entry {label parent : Label} {page : Page} (fits : Node.sizeIn children + 2 ≤ 676)
    (member : (label, page) ∈ (ofTree settings title children).pages)
    (named : page.parent? = some parent) :
    (ofTree settings title children).links.filter (fun link => link.2 = label) =
      [(parent, label)] := by
  have returns : (returnsOf (ofTree settings title children).pages).filter
      (fun link => link.2 = label) = [(parent, label)] := by
    have distinct := ofTree_distinct settings title fits
    generalize (ofTree settings title children).pages = pages at member distinct
    induction pages with
    | nil => cases member
    | cons first rest ih =>
        simp only [List.map_cons, List.nodup_cons] at distinct
        have elsewhere : first.1 = label → (returnsOf rest).filter (fun link => link.2 = label) = [] := by
          intro same
          rw [List.filter_eq_nil_iff]
          rintro ⟨above, other⟩ present
          obtain ⟨held, listed, _⟩ := mem_returnsOf.mp present
          have differs : other ≠ first.1 := by
            rintro rfl
            exact distinct.1 (List.mem_map.mpr ⟨_, listed, rfl⟩)
          simpa [← same] using differs
        rcases List.mem_cons.mp member with same | later
        · cases same
          have none := elsewhere rfl
          simpa [returnsOf, named] using none
        · have remaining := ih later distinct.2
          have differs : first.1 ≠ label := by
            rintro rfl
            exact distinct.1 (List.mem_map.mpr ⟨_, later, rfl⟩)
          cases back : first.2.parent? <;> simpa [returnsOf, back, differs] using remaining
  have permuted := (ofTree_links settings title children).filter (fun link => link.2 = label)
  rw [returns] at permuted
  exact List.perm_singleton.mp permuted

theorem ofTree_reached (fits : Node.sizeIn children + 2 ≤ 676) (index : Nat) :
    ∀ label page, label.index.val = index →
      (label, page) ∈ (ofTree settings title children).pages → label ≠ labelOf 1 →
      Relation.ReflTransGen (ofTree settings title children).Leads (labelOf 0) label := by
  induction index using Nat.strongRecOn with
  | ind index ih =>
      intro label page here member other
      rcases ofTree_cases fits member with ⟨rfl, _⟩ | ⟨rfl, _⟩ | ⟨parent, named, earlier⟩
      · exact .refl
      · exact absurd rfl other
      · have leads : (ofTree settings title children).Leads parent label :=
          ofTree_leads.mpr (mem_returnsOf.mpr ⟨page, member, named⟩)
        obtain ⟨above, present, entry, listed, _⟩ := mem_linksOf.mp leads
        -- the quit page has no entries, so the parent is another page
        have menu : parent ≠ labelOf 1 := by
          rintro rfl
          cases ofTree_unique fits present ofTree_quit_mem
          cases listed
        exact (ih parent.index.val (by omega) parent above rfl present menu).tail leads

theorem ofTree_root_iff (fits : Node.sizeIn children + 2 ≤ 676) (label : Label) :
    (∃ shown entries, (ofTree settings title children).page? label =
      some (.menu shown entries none)) ↔ label = labelOf 0 := by
  constructor
  · rintro ⟨shown, entries, found⟩
    rcases ofTree_cases fits ((ofTree_mem fits).mp found) with ⟨same, _⟩ | ⟨_, page⟩ | ⟨_, named, _⟩
    · exact same
    · cases page
    · cases named
  · rintro rfl
    exact ⟨title, entriesAt 2 children, (ofTree_mem fits).mpr ofTree_root_mem⟩

theorem ofTree_quit_iff (fits : Node.sizeIn children + 2 ≤ 676) (label : Label) :
    (ofTree settings title children).page? label = some .quit ↔ label = labelOf 1 := by
  constructor
  · intro found
    rcases ofTree_cases fits ((ofTree_mem fits).mp found) with ⟨_, page⟩ | ⟨same, _⟩ | ⟨_, named, _⟩
    · cases page
    · exact same
    · cases named
  · rintro rfl
    exact (ofTree_mem fits).mpr ofTree_quit_mem

theorem ofTree_target {menu target : Label} (fits : Node.sizeIn children + 2 ≤ 676)
    (leads : (ofTree settings title children).Leads menu target) :
    ((ofTree settings title children).page? target).isSome ∧ target ≠ labelOf 0 ∧
      target ≠ labelOf 1 := by
  obtain ⟨page, member, back⟩ := mem_returnsOf.mp (ofTree_leads.mp leads)
  refine ⟨Option.isSome_iff_exists.mpr ⟨page, (ofTree_mem fits).mpr member⟩, ?_, ?_⟩
  · rintro rfl
    cases ofTree_unique fits member ofTree_root_mem
    cases back
  · rintro rfl
    cases ofTree_unique fits member ofTree_quit_mem
    cases back

theorem ofTree_room {label : Label} {page : Page} (all : List Node)
    (member : (label, page) ∈ (ofTree settings title (Node.keptIn 8 all)).pages) :
    page.entries.length ≤ 8 := by
  rcases List.mem_cons.mp member with same | member
  · cases same
    simp only [Page.entries, entriesAt_length, Node.keptIn_eq, List.length_map, List.length_take]
    omega
  rcases List.mem_cons.mp member with same | member
  · cases same
    simp [Page.entries]
  · exact pagesIn_room _ all 8 _ _ (label, page) member

end Compiled

/-- Every compiled program can be navigated from its root menu. -/
theorem compile_navigable (settings : Settings) (root : Node) (program : Program)
    (compiled : (compile settings root).result = .ok program) : Navigable program := by
  obtain ⟨id, title, children, rfl, fits, rfl⟩ := compile_ok compiled
  have length := ofTree_length settings title (Node.keptIn 8 children)
  constructor
  · intro label
    rw [length]
    exact ofTree_isSome fits
  · rw [length]
    exact ofTree_indices settings title fits
  · exact ofTree_root_iff fits
  · exact ofTree_quit_iff fits
  · intro label page found
    exact ofTree_room children ((ofTree_mem fits).mp found)
  · intro menu target leads
    exact ofTree_target fits leads
  · intro label page found notRoot notQuit
    have member := (ofTree_mem fits).mp found
    rcases ofTree_cases fits member with ⟨same, _⟩ | ⟨same, _⟩ | ⟨parent, named, _⟩
    · exact absurd same notRoot
    · exact absurd same notQuit
    · exact ⟨parent, named, ofTree_entry fits member named⟩
  · intro label page parent found named
    have member := (ofTree_mem fits).mp found
    exact ofTree_leads_lt fits (ofTree_leads.mpr (mem_returnsOf.mpr ⟨page, member, named⟩))
  · intro label present notQuit
    obtain ⟨page, found⟩ := Option.isSome_iff_exists.mp present
    exact ofTree_reached fits _ label page rfl ((ofTree_mem fits).mp found) notQuit
  · intro label cycle
    exact Nat.lt_irrefl _ (trans_leads_lt fits cycle)

def nestedTree : Node :=
  .menu "top".toList "T".toList [.menu "a".toList "A".toList [.menu "b".toList "B".toList
      (List.replicate 9 (.note "c".toList "C".toList [])), .code "d".toList "D".toList []],
    .note "e".toList "E".toList "text".toList]

theorem compile_navigable_nestedTree :
    ∃ program, (compile {} nestedTree).result = .ok program ∧ program.pages.length = 14 ∧
      Navigable program := by
  have compiled : (compile {} nestedTree).result =
      .ok (ofTree {} "T".toList (Node.keptIn 8 nestedTree.children)) := by
    rw [nestedTree, compile_menu, if_pos (by decide +kernel)]
    rfl
  refine ⟨_, compiled, ?_, compile_navigable {} nestedTree _ compiled⟩
  rw [ofTree_length]
  decide +kernel

end Program

end CalcApp
