import CalcApp.Text

/-! The data of an app: the limits of its screen and menus, and its tree. Menus hold further items,
notes and code blocks hold text. An id may occur more than once; searches take the first node with
it in pre-order. -/

namespace CalcApp

structure Settings where
  charsPerLine : Nat := 26
  linesPerScreen : Nat := 9
  maxItemsPerMenu : Nat := 8
  deriving DecidableEq

inductive Kind where
  | menu
  | note
  | code
  deriving DecidableEq

inductive Node where
  | menu (id title : Text) (children : List Node)
  | note (id title content : Text)
  | code (id title content : Text)

namespace Node

def id : Node → Text
  | .menu id _ _ => id
  | .note id _ _ => id
  | .code id _ _ => id

def title : Node → Text
  | .menu _ title _ => title
  | .note _ title _ => title
  | .code _ title _ => title

def kind : Node → Kind
  | .menu _ _ _ => .menu
  | .note _ _ _ => .note
  | .code _ _ _ => .code

def isMenu (node : Node) : Bool := node.kind = .menu

def children : Node → List Node
  | .menu _ _ children => children
  | _ => []

def content? : Node → Option Text
  | .menu _ _ _ => none
  | .note _ _ content => some content
  | .code _ _ content => some content

def withChildren (children : List Node) : Node → Node
  | .menu id title _ => .menu id title children
  | node => node

mutual

/-- The nodes in pre-order, each with its depth below a node at depth `depth`. -/
def preorder (depth : Nat) : Node → List (Nat × Node)
  | .menu id title children => (depth, .menu id title children) :: preorderIn (depth + 1) children
  | .note id title content => [(depth, .note id title content)]
  | .code id title content => [(depth, .code id title content)]

def preorderIn (depth : Nat) : List Node → List (Nat × Node)
  | [] => []
  | child :: rest => preorder depth child ++ preorderIn depth rest

end

mutual

def ids : Node → List Text
  | .menu id _ children => id :: idsIn children
  | .note id _ _ => [id]
  | .code id _ _ => [id]

def idsIn : List Node → List Text
  | [] => []
  | child :: rest => ids child ++ idsIn rest

end

mutual

def find? (target : Text) : Node → Option Node
  | .menu id title children =>
    if id = target then some (.menu id title children) else findIn? target children
  | .note id title content => if id = target then some (.note id title content) else none
  | .code id title content => if id = target then some (.code id title content) else none

def findIn? (target : Text) : List Node → Option Node
  | [] => none
  | child :: rest => (find? target child).or (findIn? target rest)

end

mutual

/-- The menu that holds the first node with an id below the given one, and its place there. -/
def findParent? (target : Text) : Node → Option (Node × Nat)
  | .menu id title children => findParentIn? target (.menu id title children) 0 children
  | .note _ _ _ => none
  | .code _ _ _ => none

def findParentIn? (target : Text) (parent : Node) (index : Nat) : List Node → Option (Node × Nat)
  | [] => none
  | child :: rest =>
    if child.id = target then some (parent, index)
    else (findParent? target child).or (findParentIn? target parent (index + 1) rest)

end

theorem ids_eq (node : Node) : node.ids = node.id :: idsIn node.children := by
  cases node <;> simp [ids, id, children, idsIn]

mutual

theorem not_mem_of_findParent? {target : Text} :
    (node : Node) → findParent? target node = none → target ∉ idsIn node.children
  | .menu _ _ children, missing =>
      not_mem_of_findParentIn? children (by simpa [findParent?] using missing)
  | .note _ _ _, _ => by simp [children, idsIn]
  | .code _ _ _, _ => by simp [children, idsIn]

theorem not_mem_of_findParentIn? {target : Text} {parent : Node} {index : Nat} :
    (nodes : List Node) → findParentIn? target parent index nodes = none → target ∉ idsIn nodes
  | [], _ => by simp [idsIn]
  | child :: rest, missing => by
      simp only [findParentIn?] at missing
      split at missing
      · simp at missing
      · rename_i differs
        obtain ⟨inside, later⟩ := Option.or_eq_none_iff.mp missing
        have below := not_mem_of_findParent? child inside
        have after := not_mem_of_findParentIn? rest later
        have other : target ≠ child.id := fun equal => differs equal.symm
        simp [idsIn, ids_eq, other, below, after]

end

theorem idxOf_append_lt {α : Type} [BEq α] [LawfulBEq α] {a b : α} {front back : List α}
    (earlier : front.idxOf a < front.idxOf b) :
    (front ++ back).idxOf a < (front ++ back).idxOf b := by
  have member : a ∈ front :=
    List.idxOf_lt_length_iff.mp (Nat.lt_of_lt_of_le earlier List.idxOf_le_length)
  simp only [List.idxOf_append, member, if_true]
  split
  · exact earlier
  · have := List.idxOf_lt_length_iff.mpr member
    omega

mutual

theorem findParent?_precedes {target : Text} {parent : Node} {index : Nat} :
    (node : Node) → findParent? target node = some (parent, index) →
      parent = node ∨ (idsIn node.children).idxOf parent.id < (idsIn node.children).idxOf target
  | .menu _ _ children, found =>
      findParentIn?_precedes children (by simpa [findParent?] using found)
  | .note _ _ _, found => by simp [findParent?] at found
  | .code _ _ _, found => by simp [findParent?] at found

theorem findParentIn?_precedes {target : Text} {holder parent : Node} {start index : Nat} :
    (nodes : List Node) → findParentIn? target holder start nodes = some (parent, index) →
      parent = holder ∨ (idsIn nodes).idxOf parent.id < (idsIn nodes).idxOf target
  | [], found => by simp [findParentIn?] at found
  | child :: rest, found => by
      simp only [findParentIn?] at found
      split at found
      · simp only [Option.some.injEq, Prod.mk.injEq] at found
        exact .inl found.1.symm
      · rename_i differs
        have own : (child.id == target) = false := by simpa using differs
        rcases Option.or_eq_some_iff.mp found with inside | ⟨missing, later⟩
        · right
          apply idxOf_append_lt
          rcases findParent?_precedes child inside with rfl | earlier
          · simp [ids_eq, List.idxOf_cons, own]
          · rw [ids_eq, List.idxOf_cons, List.idxOf_cons, own]
            cases child.id == parent.id with
            | true => simp
            | false => simpa using earlier
        · rcases findParentIn?_precedes rest later with same | earlier
          · exact .inl same
          · right
            have outside : target ∉ ids child := by
              have other : target ≠ child.id := fun equal => differs equal.symm
              simp [ids_eq, other, not_mem_of_findParent? child missing]
            simp only [idsIn, List.idxOf_append, outside, if_false]
            split
            · rename_i member
              have := List.idxOf_lt_length_iff.mpr member
              omega
            · omega

end

/-- The id of a node's parent comes before the node's own id, where each is first met. -/
theorem idxOf_parent_lt {root parent : Node} {target : Text} {index : Nat}
    (other : root.id ≠ target) (found : root.findParent? target = some (parent, index)) :
    root.ids.idxOf parent.id < root.ids.idxOf target := by
  have own : (root.id == target) = false := by simpa using other
  rw [ids_eq, List.idxOf_cons, List.idxOf_cons, own]
  rcases findParent?_precedes root found with rfl | earlier
  · simp
  · cases root.id == parent.id with
    | true => simp
    | false => simpa using earlier

end Node

end CalcApp
