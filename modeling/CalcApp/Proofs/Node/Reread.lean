import CalcApp.Outline
import CalcApp.Proofs.Code
import CalcApp.Proofs.Node
import CalcApp.Proofs.Note.Stable

namespace CalcApp.Node

mutual

def reread (settings : Settings) (next : Nat) : Node → Node
  | .menu _ title children =>
    .menu (Outline.itemId next) title (rereadIn settings (next + 1) children)
  | .note _ title content => .note (Outline.itemId next) title (Note.reread settings content)
  | .code _ title content => .code (Outline.itemId next) title (Code.reread content)

def rereadIn (settings : Settings) (next : Nat) : List Node → List Node
  | [] => []
  | child :: rest => reread settings next child :: rereadIn settings (next + child.size) rest

end

@[simp] theorem reread_title (settings : Settings) (next : Nat) (node : Node) :
    (node.reread settings next).title = node.title := by
  cases node <;> simp [reread, title]

theorem children_reread (settings : Settings) (next : Nat) (node : Node) :
    (node.reread settings next).children = rereadIn settings (next + 1) node.children := by
  cases node with
  | menu id title children => rw [reread, Node.children, Node.children]
  | note id title content => rw [reread, Node.children, Node.children, rereadIn] <;> simp
  | code id title content => rw [reread, Node.children, Node.children, rereadIn] <;> simp

mutual

@[simp] theorem size_reread (settings : Settings) (next : Nat) :
    (node : Node) → (node.reread settings next).size = node.size
  | .menu id title children => by
      have inner := sizeIn_rereadIn settings (next + 1) children
      rw [reread, size_menu, size_menu, inner]
  | .note id title content => by rw [reread, size_note, size_note]
  | .code id title content => by rw [reread, size_code, size_code]

@[simp] theorem sizeIn_rereadIn (settings : Settings) (next : Nat) :
    (children : List Node) → sizeIn (rereadIn settings next children) = sizeIn children
  | [] => by rw [rereadIn]
  | child :: rest => by
      have first := size_reread settings next child
      have others := sizeIn_rereadIn settings (next + child.size) rest
      rw [rereadIn, sizeIn_cons, sizeIn_cons, first, others]

end

theorem length_rereadIn (settings : Settings) (next : Nat) (children : List Node) :
    (rereadIn settings next children).length = children.length := by
  induction children generalizing next with
  | nil => rw [rereadIn]
  | cons child rest ih => rw [rereadIn, List.length_cons, List.length_cons, ih]

theorem reread_narrow {settings : Settings} {next : Nat} {node : Node} (narrow : node.Narrow) :
    (node.reread settings next).Narrow := by
  cases node with
  | menu id title children =>
      rw [reread, Narrow, Node.children, length_rereadIn]
      exact narrow
  | note id title content => exact Nat.zero_le _
  | code id title content => exact Nat.zero_le _

mutual

theorem mem_nodes_reread {settings : Settings} {other : Node} (next : Nat) :
    (node : Node) → other ∈ (node.reread settings next).nodes →
      ∃ original ∈ node.nodes, ∃ number, other = original.reread settings number
  | .menu id title children, member => by
      rw [reread, nodes_menu] at member
      rcases List.mem_cons.mp member with rfl | below
      · exact ⟨_, mem_nodes_self _, next, by rw [reread]⟩
      · obtain ⟨original, listed, same⟩ := mem_nodes_rereadIn (next + 1) children below
        exact ⟨original, by rw [nodes_menu]; exact .tail _ listed, same⟩
  | .note id title content, member => by
      rw [reread, nodes_note] at member
      exact ⟨_, mem_nodes_self _, next, by rw [List.mem_singleton.mp member, reread]⟩
  | .code id title content, member => by
      rw [reread, nodes_code] at member
      exact ⟨_, mem_nodes_self _, next, by rw [List.mem_singleton.mp member, reread]⟩

theorem mem_nodes_rereadIn {settings : Settings} {other : Node} (next : Nat) :
    (children : List Node) → other ∈ (rereadIn settings next children).flatMap nodes →
      ∃ original ∈ children.flatMap nodes, ∃ number, other = original.reread settings number
  | [], member => by
      rw [rereadIn] at member
      cases member
  | child :: rest, member => by
      rw [rereadIn, List.flatMap_cons] at member
      rcases List.mem_append.mp member with first | later
      · obtain ⟨original, listed, same⟩ := mem_nodes_reread next child first
        exact ⟨original, List.mem_append_left _ listed, same⟩
      · obtain ⟨original, listed, same⟩ := mem_nodes_rereadIn (next + child.size) rest later
        exact ⟨original, List.mem_append_right _ listed, same⟩

end

mutual

theorem ids_reread (settings : Settings) (next : Nat) :
    (node : Node) → (node.reread settings next).ids =
      (List.range' next node.size).map Outline.itemId
  | .menu id title children => by
      have inner := idsIn_rereadIn settings (next + 1) children
      rw [reread, ids, inner, size_menu, List.range'_succ, List.map_cons]
  | .note id title content => by
      rw [reread, ids, size_note]
      rfl
  | .code id title content => by
      rw [reread, ids, size_code]
      rfl

theorem idsIn_rereadIn (settings : Settings) (next : Nat) :
    (children : List Node) → idsIn (rereadIn settings next children) =
      (List.range' next (sizeIn children)).map Outline.itemId
  | [] => by
      rw [rereadIn, idsIn]
      rfl
  | child :: rest => by
      have first := ids_reread settings next child
      have others := idsIn_rereadIn settings (next + child.size) rest
      rw [rereadIn, idsIn, first, others, ← List.map_append, List.range'_append_1, sizeIn_cons]

end

end CalcApp.Node
