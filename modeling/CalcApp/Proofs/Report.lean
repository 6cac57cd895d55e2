import CalcApp.Proofs.Navigation
import Mathlib.Algebra.Ring.Nat

/-! What compiling reports. Every node of a tree has a page, or it was left out of a full menu with
a warning, or it stands below such a node; so the sizes of what was left out make up for the pages
that are missing. -/

namespace CalcApp.Program

def targets (program : Program) (menu : Label) : List Label :=
  ((program.page? menu).elim [] Page.entries).map Choice.target

/-- The nodes left out below the node whose page has the label, each with the label of the menu that
has no room for it. A menu comes to these only after the children that it keeps. -/
def leftOut (program : Program) (label : Label) : Node → List (Label × Node)
  | .menu _ _ children =>
    ((children.take 8).zip (program.targets label)).attach.flatMap
        (fun ⟨(child, target), _⟩ => program.leftOut target child) ++
      (children.drop 8).map fun child => (label, child)
  | .note _ _ _ => []
  | .code _ _ _ => []
termination_by node => node
decreasing_by
  rename_i listed
  have smaller := List.sizeOf_lt_of_mem (List.mem_of_mem_take (List.of_mem_zip listed).1)
  rw [Node.menu.sizeOf_spec]
  omega

def reported (event : Event) : Level × Text × List (Text × Event.Field) :=
  (event.level, event.message, event.fields)

def skipped (left : Label × Node) : Event :=
  .entrySkipped left.2.id left.2.title (.menuOverflow left.1 9)

def leftOutIn (program : Program) (menu : Label) (room : Nat) (targets : List Label)
    (children : List Node) : List (Label × Node) :=
  ((children.take room).zip targets).flatMap
      (fun (child, target) => program.leftOut target child) ++
    (children.drop room).map fun child => (menu, child)

theorem leftOut_menu (program : Program) (label : Label) (id title : Text) (children : List Node) :
    program.leftOut label (.menu id title children) =
      program.leftOutIn label 8 (program.targets label) children := by
  have detached := @List.flatMap_subtype _ _ _
    ((children.take 8).zip (program.targets label)).attach
    (fun ⟨(child, target), _⟩ => program.leftOut target child)
    (fun (child, target) => program.leftOut target child) fun _ _ => rfl
  rw [leftOut, detached, List.unattach_attach, leftOutIn]

section

variable {program : Program} {menu : Label}

@[simp] theorem leftOutIn_nil (room : Nat) (targets : List Label) :
    program.leftOutIn menu room targets [] = [] := by
  simp [leftOutIn]

@[simp] theorem leftOutIn_full (targets : List Label) (child : Node) (rest : List Node) :
    program.leftOutIn menu 0 targets (child :: rest) =
      (menu, child) :: program.leftOutIn menu 0 targets rest := by
  simp [leftOutIn]

@[simp] theorem leftOutIn_room (room : Nat) (target : Label) (targets : List Label) (child : Node)
    (rest : List Node) :
    program.leftOutIn menu (room + 1) (target :: targets) (child :: rest) =
      program.leftOut target child ++ program.leftOutIn menu room targets rest := by
  simp [leftOutIn]

end

def Holds (program : Program) (pages : List (Label × Page)) : Prop :=
  ∀ page ∈ pages, program.page? page.1 = some page.2

theorem Holds.mono {program : Program} {pages more : List (Label × Page)}
    (holds : program.Holds more) (within : pages ⊆ more) : program.Holds pages :=
  fun page member => holds page (within member)

theorem Holds.targets {program : Program} {charsPerLine : Nat} {parent : Label} {next : Nat}
    {id title : Text} {children : List Node}
    (holds : program.Holds (pagesAt charsPerLine parent next (.menu id title children))) :
    program.targets (labelOf next) = (entriesAt (next + 1) children).map Choice.target := by
  have found := holds _ (List.mem_cons_self ..)
  rw [Program.targets, found]
  rfl

section

variable {charsPerLine : Nat} {program : Program}

mutual

/-- A node is compiled with one warning for each node left out below it. -/
theorem compileNode_log :
    (node : Node) → (parent : Label) → (next : Nat) → next + node.kept.size ≤ 676 →
      program.Holds (pagesAt charsPerLine parent next node.kept) →
      (compileNode charsPerLine parent next node).log =
        (program.leftOut (labelOf next) node).map skipped
  | .menu id title children, parent, next, fits, holds => by
      rw [Node.kept] at fits holds
      rw [Node.size_menu] at fits
      have room : next + 1 + Node.sizeIn (Node.keptIn 8 children) ≤ 676 := by omega
      have below := holds.mono (List.subset_cons_self ..)
      have inner := compileNodes_log children (labelOf next) 0 (next + 1) room below
      have success := compileNodes_result charsPerLine (labelOf next) 0 (next + 1) (by omega)
        children
      rw [Nat.sub_zero, if_pos room] at success
      rw [compileNode, Traced.log_bind_ok (labelAt_of_lt (by omega)), List.nil_append,
        Traced.log_bind_ok success, inner, leftOut_menu, holds.targets]
      simp
  | .note id title content, parent, next, fits, holds => by
      rw [Node.kept, Node.size_note] at fits
      rw [compileNode, Traced.log_bind_ok (labelAt_of_lt (by omega)), leftOut]
      rfl
  | .code id title content, parent, next, fits, holds => by
      rw [Node.kept, Node.size_code] at fits
      rw [compileNode, Traced.log_bind_ok (labelAt_of_lt (by omega)), leftOut]
      rfl

theorem compileNodes_log :
    (children : List Node) → (parent : Label) → (taken next : Nat) →
      next + Node.sizeIn (Node.keptIn (8 - taken) children) ≤ 676 →
      program.Holds (pagesIn charsPerLine parent next (Node.keptIn (8 - taken) children)) →
      (compileNodes charsPerLine parent taken next children).log =
        (program.leftOutIn parent (8 - taken)
          ((entriesAt next (Node.keptIn (8 - taken) children)).map Choice.target) children).map
          skipped
  | [], parent, taken, next, fits, holds => by simp [compileNodes]
  | child :: rest, parent, taken, next, fits, holds => by
      rw [compileNodes]
      by_cases full : taken + 1 + 1 ≤ maxChoices
      · obtain ⟨left, room⟩ : ∃ left, 8 - taken = left + 1 :=
          ⟨7 - taken, by simp only [maxChoices] at full; omega⟩
        have others : 8 - (taken + 1) = left := by omega
        rw [room, Node.keptIn] at fits holds ⊢
        rw [Node.sizeIn_cons] at fits
        have first := compileNode_log child parent next (by omega)
          (holds.mono (List.subset_append_left ..))
        have done := compileNode_result charsPerLine parent next child
        rw [if_pos (by omega)] at done
        have later := compileNodes_log rest parent (taken + 1) (next + child.kept.size)
        have success := compileNodes_result charsPerLine parent (taken + 1)
          (next + child.kept.size) (by omega) rest
        rw [others] at later success
        rw [if_pos (by omega)] at success
        rw [if_pos full, Traced.log_bind_ok done, first, Traced.log_bind_ok success,
          later (by omega) (holds.mono (List.subset_append_right ..)), entriesAt, List.map_cons,
          leftOutIn_room]
        simp
      · have room : 8 - taken = 0 := by
          simp only [maxChoices] at full
          omega
        have later := compileNodes_log rest parent taken next
        rw [room, Node.keptIn_zero] at fits holds later ⊢
        rw [if_neg full, Traced.log_bind_ok (Traced.result_report _), later fits holds]
        simp [skipped, maxChoices]

end

mutual

theorem size_kept_add_leftOut :
    (node : Node) → (parent : Label) → (next : Nat) →
      program.Holds (pagesAt charsPerLine parent next node.kept) →
      node.kept.size + ((program.leftOut (labelOf next) node).map fun left => left.2.size).sum =
        node.size
  | .menu id title children, parent, next, holds => by
      rw [Node.kept] at holds
      have inner := sizeIn_kept_add_leftOut children (labelOf next) 8 (next + 1)
        (holds.mono (List.subset_cons_self ..))
      rw [leftOut_menu, holds.targets, Node.kept, Node.size_menu, Node.size_menu]
      omega
  | .note id title content, parent, next, holds => by
      rw [Node.kept, leftOut]
      rfl
  | .code id title content, parent, next, holds => by
      rw [Node.kept, leftOut]
      rfl

theorem sizeIn_kept_add_leftOut :
    (children : List Node) → (menu : Label) → (room next : Nat) →
      program.Holds (pagesIn charsPerLine menu next (Node.keptIn room children)) →
      Node.sizeIn (Node.keptIn room children) +
        ((program.leftOutIn menu room
          ((entriesAt next (Node.keptIn room children)).map Choice.target) children).map
          fun left => left.2.size).sum = Node.sizeIn children
  | [], menu, room, next, holds => by simp [Node.keptIn]
  | child :: rest, menu, 0, next, holds => by
      have later := sizeIn_kept_add_leftOut rest menu 0 next
      rw [Node.keptIn_zero] at holds later ⊢
      have others := later holds
      simp only [leftOutIn_full, List.map_cons, List.sum_cons, Node.sizeIn_cons, Node.sizeIn_nil]
        at others ⊢
      omega
  | child :: rest, menu, room + 1, next, holds => by
      rw [Node.keptIn] at holds ⊢
      have first := size_kept_add_leftOut child menu next (holds.mono (List.subset_append_left ..))
      have others := sizeIn_kept_add_leftOut rest menu room (next + child.kept.size)
        (holds.mono (List.subset_append_right ..))
      simp only [entriesAt, List.map_cons, leftOutIn_room, List.map_append, List.sum_append,
        Node.sizeIn_cons]
      omega

end

end

theorem holds_ofTree (settings : Settings) (title : Text) {children : List Node}
    (fits : Node.sizeIn children + 2 ≤ 676) :
    (ofTree settings title children).Holds (ofTree settings title children).pages :=
  fun _ member => (ofTree_mem fits).mpr member

theorem compile_log {settings : Settings} {id title : Text} {children : List Node}
    (fits : Node.sizeIn (Node.keptIn 8 children) + 2 ≤ 676) :
    (compile settings (.menu id title children)).log =
      (compileNodes settings.charsPerLine (labelOf 0) 0 2 children).log ++
        [.compiled (Node.sizeIn (Node.keptIn 8 children) + 2)
          (Node.sizeIn (Node.keptIn 8 children) + 2)] := by
  have success := compileNodes_result settings.charsPerLine (labelOf 0) 0 2 (by omega) children
  rw [Nat.sub_zero, Nat.add_comm 2, if_pos fits] at success
  have pages := ofTree_length settings title (Node.keptIn 8 children)
  rw [ofTree] at pages
  rw [compile, Traced.log_bind_ok (labelAt_of_lt (show 0 < 676 by omega)),
    Traced.log_bind_ok (labelAt_of_lt (show 1 < 676 by omega)), Traced.log_bind_ok success]
  simp only [List.nil_append]
  rw [Traced.log_bind_ok (Traced.result_report _), pages]
  rfl

theorem message_menuOverflow (menu : Label) :
    (GenerateError.menuOverflow menu 9).message = "Menu ".toList ++ menu.text ++
      " cannot have more than 9 options (incl. navigation)".toList := by
  have limit : " cannot have more than ".toList ++ Text.ofNat 9 ++
      " options (incl. navigation)".toList =
        " cannot have more than 9 options (incl. navigation)".toList := by
    decide +kernel
  -- said of any texts, so that no two words are compared letter by letter
  have grouped : ∀ first second third fourth fifth : Text,
      first ++ second ++ third ++ fourth ++ fifth =
        first ++ second ++ (third ++ fourth ++ fifth) := by
    simp
  exact (grouped _ _ _ _ _).trans (congrArg ("Menu ".toList ++ menu.text ++ ·) limit)

theorem reported_skipped (left : Label × Node) :
    reported (skipped left) =
      (.warn, "skipping menu entry".toList,
        [("id".toList, .text left.2.id), ("title".toList, .text left.2.title),
          ("error".toList, .text ("Menu ".toList ++ left.1.text ++
            " cannot have more than 9 options (incl. navigation)".toList))]) :=
  congrArg (fun text => (Level.warn, "skipping menu entry".toList,
    [("id".toList, Event.Field.text left.2.id), ("title".toList, .text left.2.title),
      ("error".toList, .text text)])) (message_menuOverflow left.1)

/-- Compiling reports nothing but one warning for each node that is left out of a full menu, in the
order of the walk, and at last how many pages and labels there are. No node is lost otherwise. -/
theorem compile_reports_leftOut (settings : Settings) (root : Node) (program : Program)
    (compiled : (compile settings root).result = .ok program) :
    (compile settings root).log.map reported =
        (program.leftOut program.root root).map (fun (menu, child) =>
          (.warn, "skipping menu entry".toList,
            [("id".toList, .text child.id), ("title".toList, .text child.title),
              ("error".toList, .text ("Menu ".toList ++ menu.text ++
                " cannot have more than 9 options (incl. navigation)".toList))])) ++
          [(.debug, "compiled app structure".toList,
            [("pages".toList, .number program.pages.length),
              ("labels".toList, .number program.pages.length)])] ∧
      root.size + 1 = program.pages.length +
        ((program.leftOut program.root root).map fun left => left.2.size).sum := by
  obtain ⟨id, title, children, rfl, fits, rfl⟩ := compile_ok compiled
  have holds := holds_ofTree settings title fits
  have below := holds.mono (fun _ member => List.mem_cons_of_mem _ (List.mem_cons_of_mem _ member))
  have targets : (ofTree settings title (Node.keptIn 8 children)).targets (labelOf 0) =
      (entriesAt 2 (Node.keptIn 8 children)).map Choice.target := by
    rw [Program.targets, holds _ ofTree_root_mem]
    rfl
  have warnings := compileNodes_log children (labelOf 0) 0 2
    (show 2 + Node.sizeIn (Node.keptIn 8 children) ≤ 676 by omega) below
  have sizes := sizeIn_kept_add_leftOut children (labelOf 0) 8 2 below
  have length := ofTree_length settings title (Node.keptIn 8 children)
  show _ = ((ofTree settings title (Node.keptIn 8 children)).leftOut (labelOf 0) _).map _ ++ _ ∧
    _ = _ + (((ofTree settings title (Node.keptIn 8 children)).leftOut (labelOf 0) _).map _).sum
  rw [leftOut_menu, targets, length, Node.size_menu]
  constructor
  · rw [compile_log fits, warnings, List.map_append, List.map_map]
    exact congrArg (· ++ _) (List.map_congr_left fun left _ => reported_skipped left)
  · omega

def crowdedTree : Node :=
  .menu "top".toList "T".toList
    (.menu "a".toList "A".toList (List.replicate 9 (.note "b".toList "B".toList [])) ::
      (List.replicate 7 (.code "c".toList "C".toList []) ++
        [.menu "d".toList "D".toList [.note "e".toList "E".toList []],
          .note "f".toList "F".toList []]))

theorem compile_reports_leftOut_crowdedTree :
    ∃ program, (compile {} crowdedTree).result = .ok program ∧ program.pages.length = 18 ∧
      (compile {} crowdedTree).log =
        [.entrySkipped "b".toList "B".toList (.menuOverflow ⟨2⟩ 9),
          .entrySkipped "d".toList "D".toList (.menuOverflow ⟨0⟩ 9),
          .entrySkipped "f".toList "F".toList (.menuOverflow ⟨0⟩ 9), .compiled 18 18] ∧
      ((program.leftOut program.root crowdedTree).map fun left => left.2.size).sum = 4 := by
  have compiled : (compile {} crowdedTree).result =
      .ok (ofTree {} "T".toList (Node.keptIn 8 crowdedTree.children)) := by
    rw [crowdedTree, compile_menu, if_pos (by decide +kernel)]
    rfl
  have length : (ofTree {} "T".toList (Node.keptIn 8 crowdedTree.children)).pages.length = 18 := by
    rw [ofTree_length]
    decide +kernel
  have size : crowdedTree.size = 21 := by decide +kernel
  obtain ⟨_, total⟩ := compile_reports_leftOut {} crowdedTree _ compiled
  refine ⟨_, compiled, length, by decide +kernel, ?_⟩
  omega

end CalcApp.Program
