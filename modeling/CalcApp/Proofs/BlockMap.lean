import CalcApp.Listing
import CalcApp.Proofs.Node
import Mathlib.Data.List.Perm.Basic
import Mathlib.Logic.Relation

/-! The menus that the blocks of a program describe, as a graph. Its menus form a tree below a
root if every entry leads to a block and every menu but the root is led to by one entry. Such a
tree is unfolded entry by entry, and the menus met on the way are exactly those of the tree. -/

namespace CalcApp

abbrev BlockMap := Label → Option Block

namespace BlockMap

variable (blocks : BlockMap)

def isMenu (label : Label) : Bool :=
  match blocks label with
  | some (.menu _ _ _) => true
  | _ => false

def targets (label : Label) : List Label :=
  match blocks label with
  | some block => block.entries.map Choice.target
  | none => []

def Leads (menu target : Label) : Prop := target ∈ blocks.targets menu

def Reaches : Label → Label → Prop := Relation.ReflTransGen blocks.Leads

/-- An entry, by its menu and its place there, that is reached from the root and leads to a label. -/
def EntryTo (root target : Label) (entry : Label × Nat) : Prop :=
  blocks.Reaches root entry.1 ∧ (blocks.targets entry.1)[entry.2]? = some target

/-- Every entry below the root leads to a block, one entry leads to each menu but the root, and
none leads to the root. -/
structure IsTree (root : Label) : Prop where
  resolved : ∀ menu target, blocks.Reaches root menu → blocks.Leads menu target →
    (blocks target).isSome
  once : ∀ menu, blocks.Reaches root menu → blocks.isMenu menu = true → menu ≠ root →
    ∃! entry, blocks.EntryTo root menu entry
  top : ∀ entry, ¬ blocks.EntryTo root root entry

/-- The nodes that some entries show, in order, and the labels of the menus among them and below
them in pre-order. An entry that leads to the quit page shows nothing, a menu has the title of its
block, and notes and code blocks have the name of the entry. -/
inductive Unfolds : List Choice → List Node → List Label → Prop
  | nil : Unfolds [] [] []
  | quit {name : Text} {target : Label} {rest : List Choice} {nodes : List Node} {met : List Label}
      (found : blocks target = some .quit) (later : Unfolds rest nodes met) :
      Unfolds (⟨name, target⟩ :: rest) nodes met
  | note {name content id : Text} {target : Label} {parent : Option Label} {rest : List Choice}
      {nodes : List Node} {met : List Label}
      (found : blocks target = some (.note content parent)) (later : Unfolds rest nodes met) :
      Unfolds (⟨name, target⟩ :: rest) (.note id name content :: nodes) met
  | code {name content id : Text} {target : Label} {parent : Option Label} {rest : List Choice}
      {nodes : List Node} {met : List Label}
      (found : blocks target = some (.code content parent)) (later : Unfolds rest nodes met) :
      Unfolds (⟨name, target⟩ :: rest) (.code id name content :: nodes) met
  | menu {name title id : Text} {target : Label} {entries rest : List Choice}
      {parent : Option Label} {children nodes : List Node} {inner met : List Label}
      (found : blocks target = some (.menu title entries parent))
      (below : Unfolds entries children inner) (later : Unfolds rest nodes met) :
      Unfolds (⟨name, target⟩ :: rest) (.menu id title children :: nodes)
        (target :: inner ++ met)

variable {blocks} {root menu target label : Label}

theorem isMenu_menu {title : Text} {entries : List Choice} {parent : Option Label}
    (found : blocks label = some (.menu title entries parent)) : blocks.isMenu label = true := by
  simp [isMenu, found]

theorem targets_menu {title : Text} {entries : List Choice} {parent : Option Label}
    (found : blocks label = some (.menu title entries parent)) :
    blocks.targets label = entries.map Choice.target := by
  simp [targets, found, Block.entries]

theorem isMenu_of_leads (leads : blocks.Leads menu target) : blocks.isMenu menu = true := by
  unfold Leads targets at leads
  split at leads
  · rename_i block found
    cases block with
    | menu title entries parent => exact isMenu_menu found
    | note content parent => cases leads
    | code content parent => cases leads
    | quit => cases leads
  · cases leads

theorem leads_of_place {entry : Label × Nat} (held : (blocks.targets entry.1)[entry.2]? = some target) :
    blocks.Leads entry.1 target :=
  List.mem_of_getElem? held

theorem entryTo_of_leads (reached : blocks.Reaches root menu) (leads : blocks.Leads menu target) :
    ∃ place, blocks.EntryTo root target (menu, place) := by
  obtain ⟨place, held⟩ := List.mem_iff_getElem?.mp leads
  exact ⟨place, reached, held⟩

theorem IsTree.not_leads_root (tree : blocks.IsTree root) (reached : blocks.Reaches root menu) :
    ¬ blocks.Leads menu root := by
  intro leads
  obtain ⟨place, entry⟩ := entryTo_of_leads reached leads
  exact tree.top _ entry

theorem IsTree.leads_unique {first second : Label} (tree : blocks.IsTree root)
    (menu : blocks.isMenu target = true) (reached : blocks.Reaches root first)
    (leads : blocks.Leads first target) (reached' : blocks.Reaches root second)
    (leads' : blocks.Leads second target) : first = second := by
  have other : target ≠ root := by
    rintro rfl
    exact tree.not_leads_root reached leads
  obtain ⟨place, entry⟩ := entryTo_of_leads reached leads
  obtain ⟨place', entry'⟩ := entryTo_of_leads reached' leads'
  have same := (tree.once target (reached.tail leads) menu other).unique entry entry'
  exact congrArg Prod.fst same

/-- By induction on the way from the root: the last step of a cycle through a menu comes from the
menu before it on that way, which then lies on the cycle too. -/
theorem IsTree.acyclic (tree : blocks.IsTree root) (reached : blocks.Reaches root label) :
    ¬ Relation.TransGen blocks.Leads label label := by
  induction reached with
  | refl =>
      intro cycle
      obtain ⟨last, around, leads⟩ := Relation.TransGen.tail'_iff.mp cycle
      exact tree.not_leads_root around leads
  | @tail before label reached leads ih =>
      intro cycle
      obtain ⟨last, around, again⟩ := Relation.TransGen.tail'_iff.mp cycle
      obtain ⟨next, out, _⟩ := Relation.TransGen.head'_iff.mp cycle
      have back : blocks.Reaches root last := (reached.tail leads).trans around
      have same := tree.leads_unique (isMenu_of_leads out) reached leads back again
      rw [← same] at around
      exact ih (Relation.TransGen.head' leads around)

def allTargets (blocks : BlockMap) (entries : List Choice) (met : List Label) : List Label :=
  entries.map Choice.target ++ met.flatMap blocks.targets

theorem allTargets_cons (blocks : BlockMap) (entry : Choice) (rest : List Choice) (met : List Label) :
    blocks.allTargets (entry :: rest) met = entry.target :: blocks.allTargets rest met := rfl

theorem allTargets_menu {title : Text} {entries : List Choice} {parent : Option Label}
    (found : blocks target = some (.menu title entries parent)) (name : Text) (rest : List Choice)
    (inner met : List Label) :
    (blocks.allTargets (⟨name, target⟩ :: rest) (target :: inner ++ met)).Perm
      (target :: (blocks.allTargets entries inner ++ blocks.allTargets rest met)) := by
  rw [allTargets_cons]
  apply List.Perm.cons
  have split : blocks.allTargets rest (target :: inner ++ met) =
      rest.map Choice.target ++ blocks.allTargets entries inner ++ met.flatMap blocks.targets := by
    simp [allTargets, targets_menu found]
  have after : blocks.allTargets rest met =
      rest.map Choice.target ++ met.flatMap blocks.targets := rfl
  rw [split, after, ← List.append_assoc]
  exact List.perm_append_comm.append_right _

namespace Unfolds

variable {entries : List Choice} {nodes : List Node} {met : List Label}

theorem resolved (unfolds : blocks.Unfolds entries nodes met) :
    ∀ label ∈ blocks.allTargets entries met, (blocks label).isSome := by
  induction unfolds with
  | nil =>
      intro label member
      cases member
  | quit found _ ih | note found _ ih | code found _ ih =>
      intro label member
      rcases List.mem_cons.mp member with rfl | later
      · rw [found]
        rfl
      · exact ih label later
  | menu found _ _ below later =>
      intro label member
      have listed := (allTargets_menu found _ _ _ _).subset member
      rcases List.mem_cons.mp listed with rfl | listed
      · rw [found]
        rfl
      · rcases List.mem_append.mp listed with inside | after
        · exact below label inside
        · exact later label after

/-- Each menu is met once for each entry that leads to it. -/
theorem perm (unfolds : blocks.Unfolds entries nodes met) :
    met.Perm ((blocks.allTargets entries met).filter blocks.isMenu) := by
  induction unfolds with
  | nil => exact .refl _
  | quit found _ ih | note found _ ih | code found _ ih =>
      rw [allTargets_cons, List.filter_cons_of_neg (by simp [isMenu, found])]
      exact ih
  | @menu name _ _ target _ rest _ _ _ inner met found _ _ below later =>
      have whole := (allTargets_menu found name rest inner met).filter blocks.isMenu
      rw [List.filter_cons_of_pos (isMenu_menu found), List.filter_append] at whole
      exact ((below.append later).cons target).trans whole.symm

theorem reached (unfolds : blocks.Unfolds entries nodes met) :
    ∀ label ∈ met, ∃ entry ∈ entries, blocks.Reaches entry.target label := by
  induction unfolds with
  | nil =>
      intro label member
      cases member
  | quit found _ ih | note found _ ih | code found _ ih =>
      intro label member
      obtain ⟨entry, listed, way⟩ := ih label member
      exact ⟨entry, .tail _ listed, way⟩
  | menu found _ _ below later =>
      intro label member
      rcases List.mem_append.mp member with inside | after
      · rcases List.mem_cons.mp inside with rfl | deeper
        · exact ⟨_, .head _, .refl⟩
        · obtain ⟨entry, listed, way⟩ := below label deeper
          refine ⟨_, .head _, Relation.ReflTransGen.head ?_ way⟩
          show entry.target ∈ blocks.targets _
          rw [targets_menu found]
          exact List.mem_map_of_mem listed
      · obtain ⟨entry, listed, way⟩ := later label after
        exact ⟨entry, .tail _ listed, way⟩

theorem length_le (unfolds : blocks.Unfolds entries nodes met) : nodes.length ≤ entries.length := by
  induction unfolds with
  | nil => exact Nat.le_refl _
  | quit _ _ ih => exact Nat.le_succ_of_le ih
  | note _ _ ih | code _ _ ih | menu _ _ _ _ ih => exact Nat.succ_le_succ ih

/-- There is a node for each entry that leads to another page than the quit page, also where
several entries lead to one page. -/
theorem size_eq (unfolds : blocks.Unfolds entries nodes met) :
    Node.sizeIn nodes =
      ((blocks.allTargets entries met).filter fun label => blocks label ≠ some .quit).length := by
  induction unfolds with
  | nil => rfl
  | quit found _ ih =>
      rw [allTargets_cons, List.filter_cons_of_neg (by simp [found])]
      exact ih
  | note found _ ih | code found _ ih =>
      rw [allTargets_cons, List.filter_cons_of_pos (by simp [found]), Node.sizeIn_cons,
        List.length_cons, ih]
      simp only [Node.size_note, Node.size_code]
      omega
  | @menu name _ _ target _ rest _ _ _ inner met found _ _ below later =>
      have whole := (allTargets_menu found name rest inner met).filter
        fun label => blocks label ≠ some .quit
      rw [List.filter_cons_of_pos (by simp [found]), List.filter_append] at whole
      rw [whole.length_eq, Node.sizeIn_cons, Node.size_menu, List.length_cons, List.length_append,
        ← below, ← later]
      omega

end Unfolds

theorem place_unique {α : Type} {row : List α} {p : α → Bool} {x : α} {i j : Nat}
    (distinct : (row.filter p).Nodup) (chosen : p x = true) (first : row[i]? = some x)
    (second : row[j]? = some x) : i = j := by
  induction row generalizing i j with
  | nil => cases first
  | cons y rest ih =>
      -- an element that also stands first would be listed twice
      have alone : ∀ {k : Nat}, y = x → rest[k]? = some x → False := by
        intro k same later
        rw [same, List.filter_cons_of_pos chosen, List.nodup_cons] at distinct
        exact distinct.1 (List.mem_filter.mpr ⟨List.mem_of_getElem? later, chosen⟩)
      cases i with
      | zero =>
          cases j with
          | zero => rfl
          | succ k => exact (alone (Option.some.inj first) second).elim
      | succ k =>
          cases j with
          | zero => exact (alone (Option.some.inj second) first).elim
          | succ l =>
              have later := distinct.sublist ((List.sublist_cons_self y rest).filter p)
              exact congrArg (· + 1) (ih later first second)

theorem entry_unique {labels : List Label} {first second : Label × Nat}
    (distinct : ((labels.flatMap blocks.targets).filter blocks.isMenu).Nodup)
    (menu : blocks.isMenu target = true) (inside : first.1 ∈ labels)
    (held : (blocks.targets first.1)[first.2]? = some target) (inside' : second.1 ∈ labels)
    (held' : (blocks.targets second.1)[second.2]? = some target) : first = second := by
  rw [List.filter_flatMap] at distinct
  have chosen : ∀ entry : Label × Nat, (blocks.targets entry.1)[entry.2]? = some target →
      target ∈ (blocks.targets entry.1).filter blocks.isMenu := fun entry held =>
    List.mem_filter.mpr ⟨List.mem_of_getElem? held, menu⟩
  have together : first.1 = second.1 :=
    part_unique distinct inside inside' (chosen first held) (chosen second held')
  rw [← together] at held'
  have once := (List.nodup_flatMap.mp distinct).1 first.1 inside
  exact Prod.ext together (place_unique once menu held held')

section Root

variable {title : Text} {entries : List Choice} {parent : Option Label} {nodes : List Node}
  {met : List Label}

theorem allTargets_root (found : blocks root = some (.menu title entries parent)) (met : List Label) :
    blocks.allTargets entries met = (root :: met).flatMap blocks.targets := by
  rw [allTargets, List.flatMap_cons, targets_menu found]

theorem Unfolds.mem_met (found : blocks root = some (.menu title entries parent))
    (unfolds : blocks.Unfolds entries nodes met) (listed : menu ∈ root :: met)
    (leads : blocks.Leads menu target) (inner : blocks.isMenu target = true) : target ∈ met := by
  apply unfolds.perm.symm.subset
  rw [allTargets_root found, List.mem_filter]
  exact ⟨List.mem_flatMap.mpr ⟨menu, listed, leads⟩, inner⟩

theorem Unfolds.mem_of_reaches (found : blocks root = some (.menu title entries parent))
    (unfolds : blocks.Unfolds entries nodes met) (reached : blocks.Reaches root label)
    (menu : blocks.isMenu label = true) : label ∈ root :: met := by
  induction reached with
  | refl => exact .head _
  | tail _ leads ih =>
      have before := ih (isMenu_of_leads leads)
      exact .tail _ (unfolds.mem_met found before leads menu)

theorem Unfolds.led_to (found : blocks root = some (.menu title entries parent))
    (unfolds : blocks.Unfolds entries nodes met) (member : label ∈ met) :
    ∃ menu ∈ root :: met, blocks.Leads menu label := by
  have led := unfolds.perm.subset member
  rw [allTargets_root found, List.mem_filter] at led
  exact List.mem_flatMap.mp led.1

theorem Unfolds.reaches_of_mem (found : blocks root = some (.menu title entries parent))
    (unfolds : blocks.Unfolds entries nodes met) (member : label ∈ root :: met) :
    blocks.Reaches root label := by
  rcases List.mem_cons.mp member with rfl | below
  · exact .refl
  · obtain ⟨entry, listed, way⟩ := unfolds.reached label below
    refine Relation.ReflTransGen.head ?_ way
    show entry.target ∈ blocks.targets root
    rw [targets_menu found]
    exact List.mem_map_of_mem listed

/-- Menus that are unfolded without meeting one twice form a tree. -/
theorem Unfolds.isTree (found : blocks root = some (.menu title entries parent))
    (unfolds : blocks.Unfolds entries nodes met) (distinct : (root :: met).Nodup) :
    blocks.IsTree root := by
  have listed : ∀ {menu target}, blocks.Reaches root menu → blocks.Leads menu target →
      menu ∈ root :: met := fun reached leads =>
    unfolds.mem_of_reaches found reached (isMenu_of_leads leads)
  constructor
  · intro menu target reached leads
    apply unfolds.resolved target
    rw [allTargets_root found]
    exact List.mem_flatMap.mpr ⟨menu, listed reached leads, leads⟩
  · intro menu reached inner other
    have below : menu ∈ met :=
      (List.mem_cons.mp (unfolds.mem_of_reaches found reached inner)).resolve_left other
    have once : ((root :: met).flatMap blocks.targets).filter blocks.isMenu |>.Nodup := by
      rw [← allTargets_root found]
      exact unfolds.perm.nodup_iff.mp distinct.of_cons
    obtain ⟨holder, known, leads⟩ := unfolds.led_to found below
    obtain ⟨place, entry⟩ := entryTo_of_leads (unfolds.reaches_of_mem found known) leads
    refine ⟨(holder, place), entry, ?_⟩
    rintro second ⟨reached', held⟩
    exact entry_unique once inner (listed reached' (leads_of_place held)) held known entry.2
  · rintro entry ⟨reached, held⟩
    have leads := leads_of_place held
    have again := unfolds.mem_met found (listed reached leads) leads (isMenu_menu found)
    exact (List.nodup_cons.mp distinct).1 again

end Root

end BlockMap

end CalcApp
