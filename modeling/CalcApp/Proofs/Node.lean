import CalcApp.Node
import Mathlib.Data.List.Nodup
import Mathlib.Data.List.Pairwise

namespace CalcApp

theorem part_unique {α β : Type} {owners : List α} {part : α → List β} {first second : α} {x : β}
    (distinct : (owners.flatMap part).Nodup) (listed : first ∈ owners) (listed' : second ∈ owners)
    (member : x ∈ part first) (member' : x ∈ part second) : first = second := by
  rw [List.nodup_flatMap] at distinct
  by_contra apart
  have symmetric : Std.Symm (Function.onFun List.Disjoint part) :=
    ⟨fun _ _ disjoint _ later earlier => disjoint earlier later⟩
  exact distinct.2.forall listed listed' apart member member'

namespace Node

def nodes (node : Node) : List Node := (node.preorder 0).map Prod.snd

mutual

theorem preorder_snd (depth : Nat) :
    (node : Node) → (node.preorder depth).map Prod.snd = node.nodes
  | .menu id title children => by
      have here := preorderIn_snd (depth + 1) children
      have there := preorderIn_snd 1 children
      simp [nodes, preorder, here, there]
  | .note _ _ _ => by simp [nodes, preorder]
  | .code _ _ _ => by simp [nodes, preorder]

theorem preorderIn_snd (depth : Nat) :
    (children : List Node) → (preorderIn depth children).map Prod.snd = children.flatMap nodes
  | [] => by simp [preorderIn]
  | child :: rest => by
      have first := preorder_snd depth child
      have others := preorderIn_snd depth rest
      simp [preorderIn, first, others]

end

@[simp] theorem nodes_menu (id title : Text) (children : List Node) :
    (Node.menu id title children).nodes = .menu id title children :: children.flatMap nodes := by
  simp [nodes, preorder, preorderIn_snd]

@[simp] theorem nodes_note (id title content : Text) :
    (Node.note id title content).nodes = [.note id title content] := by
  simp [nodes, preorder]

@[simp] theorem nodes_code (id title content : Text) :
    (Node.code id title content).nodes = [.code id title content] := by
  simp [nodes, preorder]

theorem nodes_eq (node : Node) : node.nodes = node :: node.children.flatMap nodes := by
  cases node <;> simp [children]

theorem mem_nodes_self (node : Node) : node ∈ node.nodes := by
  rw [nodes_eq]
  exact List.mem_cons_self ..

theorem mem_nodes_of_below {node root : Node} (member : node ∈ root.children.flatMap nodes) :
    node ∈ root.nodes := by
  rw [nodes_eq]
  exact List.mem_cons_of_mem _ member

theorem mem_nodes_of_mem {child : Node} {children : List Node} (member : child ∈ children) :
    child ∈ children.flatMap nodes :=
  List.mem_flatMap.mpr ⟨child, member, mem_nodes_self child⟩

mutual

theorem nodes_map_id : (node : Node) → node.nodes.map Node.id = node.ids
  | .menu id title children => by
      have inner := flatMap_nodes_map_id children
      rw [nodes_menu, List.map_cons, inner, ids, Node.id]
  | .note _ _ _ => by rw [nodes_note, ids, List.map_singleton, Node.id]
  | .code _ _ _ => by rw [nodes_code, ids, List.map_singleton, Node.id]

theorem flatMap_nodes_map_id :
    (children : List Node) → (children.flatMap nodes).map Node.id = idsIn children
  | [] => by rw [List.flatMap_nil, idsIn, List.map_nil]
  | child :: rest => by
      have first := nodes_map_id child
      have others := flatMap_nodes_map_id rest
      rw [List.flatMap_cons, List.map_append, first, others, idsIn]

end

def size (node : Node) : Nat := node.nodes.length

def sizeIn (children : List Node) : Nat := (children.flatMap nodes).length

@[simp] theorem size_menu (id title : Text) (children : List Node) :
    (Node.menu id title children).size = sizeIn children + 1 := by
  rw [size, nodes_menu, List.length_cons, sizeIn]

@[simp] theorem size_note (id title content : Text) : (Node.note id title content).size = 1 := by
  rw [size, nodes_note, List.length_singleton]

@[simp] theorem size_code (id title content : Text) : (Node.code id title content).size = 1 := by
  rw [size, nodes_code, List.length_singleton]

@[simp] theorem sizeIn_nil : sizeIn [] = 0 := rfl

@[simp] theorem sizeIn_cons (child : Node) (rest : List Node) :
    sizeIn (child :: rest) = child.size + sizeIn rest := by
  rw [sizeIn, List.flatMap_cons, List.length_append, size, sizeIn]

theorem size_eq (node : Node) : node.size = sizeIn node.children + 1 := by
  cases node <;> simp [children]

theorem size_pos (node : Node) : 0 < node.size := by
  rw [size_eq]
  omega

mutual

/-- The tree with only the first eight children of each menu. -/
def kept : Node → Node
  | .menu id title children => .menu id title (keptIn 8 children)
  | .note id title content => .note id title content
  | .code id title content => .code id title content

def keptIn (room : Nat) : List Node → List Node
  | [] => []
  | child :: rest =>
    match room with
    | 0 => []
    | left + 1 => kept child :: keptIn left rest

end

@[simp] theorem kept_title (node : Node) : node.kept.title = node.title := by
  cases node <;> simp [kept, title]

@[simp] theorem kept_id (node : Node) : node.kept.id = node.id := by
  cases node <;> simp [kept, id]

theorem keptIn_eq (room : Nat) (children : List Node) :
    keptIn room children = (children.take room).map kept := by
  induction children generalizing room with
  | nil => simp [keptIn]
  | cons child rest ih =>
      cases room with
      | zero => simp [keptIn]
      | succ left => simp [keptIn, ih]

theorem keptIn_zero (children : List Node) : keptIn 0 children = [] := by
  rw [keptIn_eq, List.take_zero, List.map_nil]

theorem kept_menu (id title : Text) (children : List Node) :
    (Node.menu id title children).kept = .menu id title ((children.take 8).map kept) := by
  rw [kept, keptIn_eq]

theorem kept_children (node : Node) : node.kept.children = (node.children.take 8).map kept := by
  cases node with
  | menu id title inner => rw [kept_menu, children, children]
  | note id title content => simp [kept, children]
  | code id title content => simp [kept, children]

mutual

theorem kept_ids_sublist : (node : Node) → node.kept.ids.Sublist node.ids
  | .menu id title children => by
      rw [kept, ids, ids]
      exact (keptIn_ids_sublist 8 children).cons_cons id
  | .note id title content => by rw [kept]
  | .code id title content => by rw [kept]

theorem keptIn_ids_sublist (room : Nat) :
    (children : List Node) → (idsIn (keptIn room children)).Sublist (idsIn children)
  | [] => by rw [keptIn]
  | child :: rest => by
      cases room with
      | zero =>
          rw [keptIn, idsIn]
          exact List.nil_sublist _
      | succ left =>
          rw [keptIn, idsIn, idsIn]
          exact (kept_ids_sublist child).append (keptIn_ids_sublist left rest)

end

def Narrow (node : Node) : Prop := node.children.length ≤ 8

instance (node : Node) : Decidable (Narrow node) := inferInstanceAs (Decidable (_ ≤ _))

mutual

theorem kept_of_narrow :
    (node : Node) → (∀ other ∈ node.nodes, other.Narrow) → node.kept = node
  | .menu id title children, narrow => by
      have own : children.length ≤ 8 := narrow _ (mem_nodes_self _)
      rw [nodes_menu] at narrow
      have inner := map_kept_of_narrow children fun other member => narrow other (.tail _ member)
      rw [kept_menu, List.take_of_length_le own, inner]
  | .note id title content, _ => by rw [kept]
  | .code id title content, _ => by rw [kept]

theorem map_kept_of_narrow :
    (children : List Node) → (∀ other ∈ children.flatMap nodes, other.Narrow) →
      children.map kept = children
  | [], _ => rfl
  | child :: rest, narrow => by
      rw [List.flatMap_cons] at narrow
      have first := kept_of_narrow child fun other member =>
        narrow other (List.mem_append_left _ member)
      have others := map_kept_of_narrow rest fun other member =>
        narrow other (List.mem_append_right _ member)
      rw [List.map_cons, first, others]

end

mutual

theorem mem_nodes_kept {other : Node} :
    (node : Node) → other ∈ node.kept.nodes → ∃ original ∈ node.nodes, other = original.kept
  | .menu id title children, member => by
      rw [kept, nodes_menu] at member
      rcases List.mem_cons.mp member with rfl | below
      · exact ⟨_, mem_nodes_self _, by rw [kept]⟩
      · obtain ⟨original, listed, same⟩ := mem_nodes_keptIn 8 children below
        exact ⟨original, by rw [nodes_menu]; exact .tail _ listed, same⟩
  | .note id title content, member => by
      rw [kept, nodes_note] at member
      exact ⟨_, mem_nodes_self _, by rw [List.mem_singleton.mp member, kept]⟩
  | .code id title content, member => by
      rw [kept, nodes_code] at member
      exact ⟨_, mem_nodes_self _, by rw [List.mem_singleton.mp member, kept]⟩

theorem mem_nodes_keptIn {other : Node} (room : Nat) :
    (children : List Node) → other ∈ (keptIn room children).flatMap nodes →
      ∃ original ∈ children.flatMap nodes, other = original.kept
  | [], member => by
      rw [keptIn] at member
      cases member
  | child :: rest, member => by
      cases room with
      | zero =>
          rw [keptIn] at member
          cases member
      | succ left =>
          rw [keptIn, List.flatMap_cons] at member
          rcases List.mem_append.mp member with first | later
          · obtain ⟨original, listed, same⟩ := mem_nodes_kept child first
            exact ⟨original, List.mem_append_left _ listed, same⟩
          · obtain ⟨original, listed, same⟩ := mem_nodes_keptIn left rest later
            exact ⟨original, List.mem_append_right _ listed, same⟩

end

theorem kept_narrow (node : Node) : node.kept.Narrow := by
  cases node with
  | menu id title children =>
      rw [kept_menu, Narrow, Node.children, List.length_map, List.length_take]
      omega
  | note id title content => exact Nat.zero_le _
  | code id title content => exact Nat.zero_le _

end Node

end CalcApp
