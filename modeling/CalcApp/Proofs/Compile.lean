import CalcApp.Program
import CalcApp.Proofs.Event
import CalcApp.Proofs.Node
import Mathlib.Data.List.Nodup

/-! What compiling an outline produces and when it fails. Menus keep their first eight children;
the nodes that are kept get the labels from the third on in pre-order, and the only way to fail is
to run out of labels. -/

namespace CalcApp.Program

def labelOf (index : Nat) : Label := ⟨Fin.ofNat 676 index⟩

theorem labelOf_index {index : Nat} (bound : index < 676) : (labelOf index).index.val = index := by
  simpa [labelOf] using bound

theorem labelAt_of_lt {index : Nat} (bound : index < 676) : labelAt index = .ok (labelOf index) := by
  have same : (⟨index, bound⟩ : Fin 676) = Fin.ofNat 676 index := by
    apply Fin.ext
    simpa using (Nat.mod_eq_of_lt bound).symm
  simp [labelAt, Label.ofIndex?, labelOf, bound, same]

theorem labelAt_of_le {index : Nat} (bound : 676 ≤ index) :
    labelAt index = .error (.capacityExceeded 676) := by
  simp [labelAt, Label.ofIndex?, Label.count, Nat.not_lt.mpr bound]

def entriesAt (place : Nat) : List Node → List Choice
  | [] => []
  | child :: rest => ⟨child.title, labelOf place⟩ :: entriesAt (place + child.size) rest

theorem entriesAt_names (place : Nat) (children : List Node) :
    (entriesAt place children).map Choice.name = children.map Node.title := by
  induction children generalizing place with
  | nil => rfl
  | cons child rest ih => simp [entriesAt, ih]

theorem entriesAt_length (place : Nat) (children : List Node) :
    (entriesAt place children).length = children.length := by
  have names := congrArg List.length (entriesAt_names place children)
  simpa using names

theorem title_of_mem_entriesAt {place : Nat} {children : List Node} {entry : Choice}
    (member : entry ∈ entriesAt place children) : ∃ child ∈ children, child.title = entry.name := by
  have name : entry.name ∈ (entriesAt place children).map Choice.name := List.mem_map_of_mem member
  rw [entriesAt_names] at name
  exact List.mem_map.mp name

def pageAt (charsPerLine : Nat) (parent : Label) (place : Nat) : Node → Page
  | .menu _ title children => .menu title (entriesAt (place + 1) children) (some parent)
  | .note _ _ content => .note (Note.paginate content charsPerLine) parent
  | .code _ _ content => .code (Text.split '\n' (Text.unifyNewlines content)) parent

mutual

def pagesAt (charsPerLine : Nat) (parent : Label) (place : Nat) : Node → List (Label × Page)
  | .menu id title children =>
    (labelOf place, pageAt charsPerLine parent place (.menu id title children)) ::
      pagesIn charsPerLine (labelOf place) (place + 1) children
  | .note id title content =>
    [(labelOf place, pageAt charsPerLine parent place (.note id title content))]
  | .code id title content =>
    [(labelOf place, pageAt charsPerLine parent place (.code id title content))]

def pagesIn (charsPerLine : Nat) (parent : Label) (place : Nat) : List Node → List (Label × Page)
  | [] => []
  | child :: rest =>
    pagesAt charsPerLine parent place child ++
      pagesIn charsPerLine parent (place + child.size) rest

end

theorem pagesAt_eq (charsPerLine : Nat) (parent : Label) (place : Nat) (node : Node) :
    pagesAt charsPerLine parent place node =
      (labelOf place, pageAt charsPerLine parent place node) ::
        pagesIn charsPerLine (labelOf place) (place + 1) node.children := by
  cases node <;> simp [pagesAt, pagesIn, Node.children]

theorem mem_pagesIn {charsPerLine : Nat} {page : Label × Page} (parent : Label) (place : Nat) :
    (children : List Node) → page ∈ pagesIn charsPerLine parent place children →
      ∃ node above index, node.nodes ⊆ children.flatMap Node.nodes ∧
        page = (labelOf index, pageAt charsPerLine above index node)
  | [], member => by cases member
  | child :: rest, member => by
      have size := Node.size_eq child
      rw [pagesIn, pagesAt_eq] at member
      rw [List.flatMap_cons]
      rcases List.mem_append.mp member with first | later
      · rcases List.mem_cons.mp first with own | below
        · exact ⟨child, parent, place, List.subset_append_left _ _, own⟩
        · obtain ⟨node, above, index, within, same⟩ := mem_pagesIn _ _ child.children below
          exact ⟨node, above, index, fun other listed =>
            List.mem_append_left _ (Node.mem_nodes_of_below (within listed)), same⟩
      · obtain ⟨node, above, index, within, same⟩ := mem_pagesIn _ _ rest later
        exact ⟨node, above, index, fun other listed => List.mem_append_right _ (within listed), same⟩
termination_by children => Node.sizeIn children
decreasing_by
  all_goals
    rw [Node.sizeIn_cons]
    omega

mutual

/-- A node is compiled to the pages of its kept part, unless there are too few labels for it. -/
theorem compileNode_result (charsPerLine : Nat) (parent : Label) (next : Nat) :
    (node : Node) → (compileNode charsPerLine parent next node).result =
      if next + node.kept.size ≤ 676 then
        .ok ⟨[⟨node.title, labelOf next⟩], pagesAt charsPerLine parent next node.kept,
          next + node.kept.size⟩
      else .error (.capacityExceeded 676)
  | .menu id title children => by
      rw [compileNode, Traced.result_bind]
      by_cases room : next < 676
      · have inner := compileNodes_result charsPerLine (labelOf next) 0 (next + 1) (by omega) children
        simp only [labelAt_of_lt room, Except.bind, Traced.result_bind, inner]
        simp only [Node.kept, Node.size_menu, Nat.sub_zero, Node.title]
        have total : next + 1 + Node.sizeIn (Node.keptIn 8 children) =
            next + (Node.sizeIn (Node.keptIn 8 children) + 1) := by omega
        rw [total]
        by_cases fits : next + (Node.sizeIn (Node.keptIn 8 children) + 1) ≤ 676 <;>
          simp [fits, pagesAt, pageAt]
      · have short : ¬ next + (Node.menu id title children).kept.size ≤ 676 := by
          simp only [Node.kept, Node.size_menu]
          omega
        rw [labelAt_of_le (by omega), if_neg short]
        rfl
  | .note id title content => by
      rw [compileNode, Traced.result_bind]
      by_cases room : next < 676
      · have fits : next + 1 ≤ 676 := room
        simp [labelAt_of_lt room, Except.bind, Node.kept, Node.title, pagesAt, pageAt, fits]
      · have short : ¬ next + 1 ≤ 676 := room
        simp [labelAt_of_le (Nat.not_lt.mp room), Except.bind, Node.kept, short]
  | .code id title content => by
      rw [compileNode, Traced.result_bind]
      by_cases room : next < 676
      · have fits : next + 1 ≤ 676 := room
        simp [labelAt_of_lt room, Except.bind, Node.kept, Node.title, pagesAt, pageAt, fits]
      · have short : ¬ next + 1 ≤ 676 := room
        simp [labelAt_of_le (Nat.not_lt.mp room), Except.bind, Node.kept, short]

theorem compileNodes_result (charsPerLine : Nat) (parent : Label) (taken next : Nat)
    (start : next ≤ 676) :
    (children : List Node) → (compileNodes charsPerLine parent taken next children).result =
      if next + Node.sizeIn (Node.keptIn (8 - taken) children) ≤ 676 then
        .ok ⟨entriesAt next (Node.keptIn (8 - taken) children),
          pagesIn charsPerLine parent next (Node.keptIn (8 - taken) children),
          next + Node.sizeIn (Node.keptIn (8 - taken) children)⟩
      else .error (.capacityExceeded 676)
  | [] => by simp [compileNodes, Node.keptIn, entriesAt, pagesIn, start]
  | child :: rest => by
      rw [compileNodes]
      by_cases full : taken + 1 + 1 ≤ maxChoices
      · obtain ⟨left, room⟩ : ∃ left, 8 - taken = left + 1 :=
          ⟨7 - taken, by simp only [maxChoices] at full; omega⟩
        have others : 8 - (taken + 1) = left := by omega
        have first := compileNode_result charsPerLine parent next child
        rw [if_pos full, Traced.result_bind, first, room]
        simp only [Node.keptIn, Node.sizeIn_cons]
        by_cases fits : next + child.kept.size ≤ 676
        · have later := compileNodes_result charsPerLine parent (taken + 1)
            (next + child.kept.size) fits rest
          rw [others] at later
          simp only [fits, if_true, Except.bind, Traced.result_bind, later]
          simp only [← Nat.add_assoc]
          by_cases whole : next + child.kept.size + Node.sizeIn (Node.keptIn left rest) ≤ 676 <;>
            simp [whole, entriesAt, pagesIn]
        · have short : ¬ next + (child.kept.size +
              Node.sizeIn (Node.keptIn left rest)) ≤ 676 := by omega
          simp [fits, short, Except.bind]
      · have room : 8 - taken = 0 := by
          simp only [maxChoices] at full
          omega
        have later := compileNodes_result charsPerLine parent taken next start rest
        have none : Node.keptIn 0 rest = [] := by cases rest <;> simp [Node.keptIn]
        rw [if_neg full, Traced.result_bind_ok (Traced.result_report _), later, room, none]
        rfl

end

/-- The program whose root menu has the given title and children, when menus have room for all
of them and there are labels enough. -/
def ofTree (settings : Settings) (title : Text) (children : List Node) : Program :=
  ⟨(labelOf 0, .menu title (entriesAt 2 children) none) :: (labelOf 1, .quit) ::
      pagesIn settings.charsPerLine (labelOf 0) 2 children,
    labelOf 0, labelOf 1, settings.linesPerScreen⟩

theorem compile_menu (settings : Settings) (id title : Text) (children : List Node) :
    (compile settings (.menu id title children)).result =
      if Node.sizeIn (Node.keptIn 8 children) + 2 ≤ 676 then
        .ok (ofTree settings title (Node.keptIn 8 children))
      else .error (.capacityExceeded 676) := by
  have inner := compileNodes_result settings.charsPerLine (labelOf 0) 0 2 (by omega) children
  rw [Nat.sub_zero, Nat.add_comm 2] at inner
  simp only [compile, Traced.result_bind, labelAt_of_lt (show 0 < 676 by omega),
    labelAt_of_lt (show 1 < 676 by omega), Except.bind, inner]
  by_cases fits : Node.sizeIn (Node.keptIn 8 children) + 2 ≤ 676 <;> simp [fits, ofTree]

theorem compile_ok {settings : Settings} {root : Node} {program : Program}
    (compiled : (compile settings root).result = .ok program) :
    ∃ id title children, root = .menu id title children ∧
      Node.sizeIn (Node.keptIn 8 children) + 2 ≤ 676 ∧
      program = ofTree settings title (Node.keptIn 8 children) := by
  cases root with
  | menu id title children =>
      rw [compile_menu] at compiled
      split at compiled
      · rename_i fits
        exact ⟨id, title, children, rfl, fits, (Except.ok.inj compiled).symm⟩
      · cases compiled
  | note id title content => cases compiled
  | code id title content => cases compiled

mutual

theorem pagesAt_labels (charsPerLine : Nat) (parent : Label) (place : Nat) :
    (node : Node) → (pagesAt charsPerLine parent place node).map Prod.fst =
      (List.range' place node.size).map labelOf
  | .menu id title children => by
      have inner := pagesIn_labels charsPerLine (labelOf place) (place + 1) children
      rw [pagesAt, List.map_cons, inner, Node.size_menu, List.range'_succ, List.map_cons]
  | .note id title content => by simp [pagesAt]
  | .code id title content => by simp [pagesAt]

theorem pagesIn_labels (charsPerLine : Nat) (parent : Label) (place : Nat) :
    (children : List Node) → (pagesIn charsPerLine parent place children).map Prod.fst =
      (List.range' place (Node.sizeIn children)).map labelOf
  | [] => by simp [pagesIn]
  | child :: rest => by
      have first := pagesAt_labels charsPerLine parent place child
      have others := pagesIn_labels charsPerLine parent (place + child.size) rest
      rw [pagesIn, List.map_append, first, others, ← List.map_append, List.range'_append_1,
        Node.sizeIn_cons]

end

theorem ofTree_labels (settings : Settings) (title : Text) (children : List Node) :
    (ofTree settings title children).pages.map Prod.fst =
      (List.range (Node.sizeIn children + 2)).map labelOf := by
  have inner := pagesIn_labels settings.charsPerLine (labelOf 0) 2 children
  rw [List.range_eq_range', List.range'_succ, List.range'_succ]
  simp [ofTree, inner]

theorem ofTree_length (settings : Settings) (title : Text) (children : List Node) :
    (ofTree settings title children).pages.length = Node.sizeIn children + 2 := by
  have lengths := congrArg List.length (ofTree_labels settings title children)
  simpa using lengths

theorem ofTree_indices (settings : Settings) (title : Text) {children : List Node}
    (fits : Node.sizeIn children + 2 ≤ 676) :
    (ofTree settings title children).pages.map (fun page => page.1.index.val) =
      List.range (Node.sizeIn children + 2) := by
  have labels := congrArg (List.map fun label : Label => label.index.val)
    (ofTree_labels settings title children)
  rw [List.map_map, List.map_map] at labels
  calc
    _ = (List.range (Node.sizeIn children + 2)).map fun index => (labelOf index).index.val := labels
    _ = (List.range (Node.sizeIn children + 2)).map id := by
      apply List.map_congr_left
      intro index member
      have bound := List.mem_range.mp member
      exact labelOf_index (by omega)
    _ = _ := List.map_id _

theorem lookup_of_mem {α β : Type} [DecidableEq α] {pairs : List (α × β)} {key : α} {value : β}
    (distinct : (pairs.map Prod.fst).Nodup) (member : (key, value) ∈ pairs) :
    pairs.lookup key = some value := by
  induction pairs with
  | nil => cases member
  | cons pair rest ih =>
      obtain ⟨known, held⟩ := pair
      simp only [List.map_cons, List.nodup_cons] at distinct
      rcases List.mem_cons.mp member with same | later
      · cases same
        exact List.lookup_cons_self
      · have other : (key == known) = false := by
          apply beq_false_of_ne
          rintro rfl
          exact distinct.1 (List.mem_map.mpr ⟨_, later, rfl⟩)
        rw [List.lookup_cons, other]
        exact ih distinct.2 later

theorem ofTree_distinct (settings : Settings) (title : Text) {children : List Node}
    (fits : Node.sizeIn children + 2 ≤ 676) :
    ((ofTree settings title children).pages.map Prod.fst).Nodup := by
  have composed : ((ofTree settings title children).pages.map Prod.fst).map
      (fun label => label.index.val) = List.range (Node.sizeIn children + 2) := by
    rw [List.map_map]
    exact ofTree_indices settings title fits
  exact List.Nodup.of_map _ (composed ▸ List.nodup_range)

end CalcApp.Program
