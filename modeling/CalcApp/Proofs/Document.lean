import CalcApp.Document
import CalcApp.Proofs.Json.Nested

namespace CalcApp.Document

open Json

def details : Node → List (Text × Json)
  | .menu _ _ children =>
    [("type".toList, .str (kindName .menu)), ("children".toList, .arr (ofNodes children))]
  | .note _ _ content =>
    [("type".toList, .str (kindName .note)), ("content".toList, .str content)]
  | .code _ _ content =>
    [("type".toList, .str (kindName .code)), ("content".toList, .str content)]

def nodeMembers (node : Node) : List (Text × Json) :=
  ("id".toList, .str node.id) :: ("title".toList, .str node.title) :: details node

theorem ofNode_eq (node : Node) : ofNode node = .obj (nodeMembers node) := by
  cases node <;> rw [ofNode] <;> rfl

theorem nodeOf?_of_details {node : Node}
    (found : node? node.id node.title (membersOf (details node)) = some node) :
    nodeOf? (ofNode node) = some node := by
  have id : text? "id".toList (membersOf (nodeMembers node)) = some node.id := by
    cases node <;> simp only [nodeMembers, details, membersOf] <;> rfl
  have title : text? "title".toList (membersOf (nodeMembers node)) = some node.title := by
    cases node <;> simp only [nodeMembers, details, membersOf] <;> rfl
  rw [ofNode_eq, nodeOf?, id, title, Option.bind_some, Option.bind_some, nodeMembers, membersOf,
    membersOf]
  exact found

mutual

theorem node?_details : (node : Node) → node? node.id node.title (membersOf (details node)) = some node
  | .menu id title children => by
      have inner := nodesIn?_ofNodes children
      simp only [details, membersOf, nodesOf?, inner]
      rfl
  | .note id title content => by
      simp only [details, membersOf]
      rfl
  | .code id title content => by
      simp only [details, membersOf]
      rfl

theorem nodesIn?_ofNodes : (children : List Node) → nodesIn? (ofNodes children) = some children
  | [] => by rw [ofNodes, nodesIn?]
  | child :: rest => by
      have first := nodeOf?_of_details (node?_details child)
      have others := nodesIn?_ofNodes rest
      rw [ofNodes, nodesIn?, first, others, Option.bind_some, Option.map_some]

end

theorem nodeOf?_ofNode (node : Node) : nodeOf? (ofNode node) = some node :=
  nodeOf?_of_details (node?_details node)

mutual

theorem plain_ofNode : (node : Node) → (ofNode node).Plain
  | .menu id title children => by
      have inner := plain_ofNodes children
      rw [ofNode]
      exact ⟨trivial, trivial, trivial, inner, trivial⟩
  | .note id title content => by
      rw [ofNode]
      exact ⟨trivial, trivial, trivial, trivial, trivial⟩
  | .code id title content => by
      rw [ofNode]
      exact ⟨trivial, trivial, trivial, trivial, trivial⟩

theorem plain_ofNodes : (children : List Node) → PlainItems (ofNodes children)
  | [] => by
      rw [ofNodes]
      exact trivial
  | child :: rest => by
      rw [ofNodes]
      exact ⟨plain_ofNode child, plain_ofNodes rest⟩

end

mutual

/-- Each level of a tree takes two levels of nesting. -/
theorem nesting_ofNode (levels depth : Nat) : (node : Node) →
    ((ofNode node).nesting ≤ 2 * levels ↔ ∀ entry ∈ node.preorder depth, entry.1 < depth + levels)
  | .menu id title children => by
      have inner := nesting_ofNodes (levels - 1) (depth + 1) children
      have size : (ofNode (.menu id title children)).nesting = nestingItems (ofNodes children) + 2 := by
        rw [ofNode]
        simp [nesting, nestingMembers]
      rw [size, Node.preorder]
      simp only [List.mem_cons, forall_eq_or_imp]
      cases levels with
      | zero => simp
      -- the children have one level less, counted from one further down
      | succ fewer =>
          have shift : depth + 1 + (fewer + 1 - 1) = depth + (fewer + 1) := by omega
          rw [shift] at inner
          rw [← inner]
          omega
  | .note id title content => by
      rw [ofNode, Node.preorder]
      simp [nesting, nestingMembers]
      omega
  | .code id title content => by
      rw [ofNode, Node.preorder]
      simp [nesting, nestingMembers]
      omega

theorem nesting_ofNodes (levels depth : Nat) : (children : List Node) →
    (nestingItems (ofNodes children) ≤ 2 * levels ↔
      ∀ entry ∈ Node.preorderIn depth children, entry.1 < depth + levels)
  | [] => by simp [ofNodes, nestingItems, Node.preorderIn]
  | child :: rest => by
      have first := nesting_ofNode levels depth child
      have others := nesting_ofNodes levels depth rest
      rw [ofNodes, nestingItems, Nat.max_le, first, others, Node.preorderIn, List.forall_mem_append]

end

theorem into_ok {α σ : Type} {store : α → σ} {reader : Reader α} {text rest : Text} {value : α}
    (read : reader text = .ok (value, rest)) : into store reader text = .ok (store value, rest) := by
  rw [into, read]
  rfl

theorem into_value {σ : Type} {json : Json} (plain : json.Plain) (store : Json → σ)
    (depth indent : Nat) {rest : Text} (ends : Ends rest) :
    into store (Reader.value false depth) (' ' :: (json.pretty indent ++ rest)) =
      ((within depth json).map store).map (·, rest) := by
  have space : Reader.value false depth (' ' :: (json.pretty indent ++ rest)) =
      Reader.value false depth (json.pretty indent ++ rest) :=
    Reader.value_skipSpace (skipSpace_space _)
  rw [into, space, legible false json plain depth indent rest ends]
  cases within depth json <;> rfl

def unseen {α σ : Type} (seen : Option α) (result : Except Fault σ) : Except Fault σ :=
  if seen.isSome then .error .mismatched else result

theorem once_unseen {α σ : Type} {seen : Option α} {reader : Reader σ} {text rest : Text}
    {result : Except Fault σ} (read : reader text = result.map (·, rest)) :
    ((once seen reader).bind fun reader => reader text) = (unseen seen result).map (·, rest) := by
  cases seen with
  | none => exact read
  | some value => rfl

def textOf : Json → Except Fault Text
  | .str text => .ok text
  | _ => .error .mismatched

def nodeStep (depth : Nat) (fields : NodeFields) : Text × Json → Except Fault NodeFields
  | (key, value) =>
    if key = "id".toList then
      unseen fields.id ((textOf value).map fun id => { fields with id := some id })
    else if key = "title".toList then
      unseen fields.title ((textOf value).map fun title => { fields with title := some title })
    else (collect depth fields.others (key, value)).map fun others => { fields with others }

theorem details_other (node : Node) : ∀ member ∈ details node,
    member.1 ≠ "id".toList ∧ member.1 ≠ "title".toList ∧ member.2.Plain := by
  intro member listed
  cases node with
  | menu id title children =>
      rcases List.mem_pair.mp listed with rfl | rfl
      · exact ⟨by simp, by simp, trivial⟩
      · exact ⟨by simp, by simp, plain_ofNodes children⟩
  | note id title content =>
      rcases List.mem_pair.mp listed with rfl | rfl <;> exact ⟨by simp, by simp, trivial⟩
  | code id title content =>
      rcases List.mem_pair.mp listed with rfl | rfl <;> exact ⟨by simp, by simp, trivial⟩

theorem nodeField_written (depth indent : Nat) (node : Node) :
    ∀ member ∈ nodeMembers node, ∀ fields rest, Ends rest →
      ((nodeField depth fields member.1).bind fun reader =>
          reader (' ' :: (member.2.pretty indent ++ rest))) =
        (nodeStep depth fields member).map (·, rest) := by
  intro member listed fields rest ends
  rcases List.mem_cons.mp listed with rfl | listed
  · dsimp only
    rw [nodeField, nodeStep, if_pos rfl, if_pos rfl]
    apply once_unseen
    exact into_ok (Reader.string_quoted node.id rest)
  rcases List.mem_cons.mp listed with rfl | listed
  · have other : "title".toList ≠ "id".toList := by decide
    dsimp only
    rw [nodeField, nodeStep, if_neg other, if_pos rfl, if_neg other, if_pos rfl]
    apply once_unseen
    exact into_ok (Reader.string_quoted node.title rest)
  · obtain ⟨other, other', plain⟩ := details_other node member listed
    rw [nodeField, if_neg other, if_neg other', nodeStep, if_neg other, if_neg other']
    simp only [Except.bind]
    rw [into_value plain _ depth indent ends, collect]
    cases within depth member.2 <;> rfl

theorem foldlM_nodeStep (depth : Nat) (fields : NodeFields) {members : List (Text × Json)}
    (others : ∀ member ∈ members, member.1 ≠ "id".toList ∧ member.1 ≠ "title".toList) :
    members.foldlM (nodeStep depth) fields =
      (members.foldlM (collect depth) fields.others).map fun others => { fields with others } := by
  induction members generalizing fields with
  | nil => rfl
  | cons member rest ih =>
      obtain ⟨other, other'⟩ := others member (by simp)
      have later := fun fields => ih fields fun next listed => others next (by simp [listed])
      rw [List.foldlM_cons, List.foldlM_cons, nodeStep, if_neg other, if_neg other']
      cases collect depth fields.others member with
      | error fault => rfl
      | ok found => exact later { fields with others := found }

theorem nodeFields_written (depth : Nat) (node : Node) :
    (nodeMembers node).foldlM (nodeStep depth) {} =
      if (ofNode node).nesting ≤ depth + 1 then .ok ⟨some node.id, some node.title, details node⟩
      else .error .malformed := by
  have levels : (ofNode node).nesting = nestingMembers (details node) + 1 := by
    simp [ofNode_eq, nodeMembers, nesting, nestingMembers]
  have first : nodeStep depth {} ("id".toList, .str node.id) = .ok ⟨some node.id, none, []⟩ := rfl
  have second : nodeStep depth ⟨some node.id, none, []⟩ ("title".toList, .str node.title) =
      .ok ⟨some node.id, some node.title, []⟩ := rfl
  have others := foldlM_nodeStep depth ⟨some node.id, some node.title, []⟩ fun member listed =>
    ⟨(details_other node member listed).1, (details_other node member listed).2.1⟩
  rw [nodeMembers, List.foldlM_cons, first, levels]
  show (details node).foldlM (nodeStep depth) ⟨some node.id, some node.title, []⟩ = _
  rw [others, foldlM_collect, List.nil_append]
  by_cases room : nestingMembers (details node) ≤ depth
  · rw [if_pos room, if_pos (by omega)]
    rfl
  · rw [if_neg room, if_neg (by omega)]
    rfl

theorem node_written (depth indent : Nat) (node : Node) (rest : Text) :
    Document.node depth (' ' :: ((ofNode node).pretty indent ++ rest)) =
      if (ofNode node).nesting ≤ depth + 1 then .ok (node, rest) else .error .malformed := by
  have space : skipSpace (' ' :: ((ofNode node).pretty indent ++ rest)) =
      skipSpace ((Json.obj (nodeMembers node)).pretty indent ++ rest) := by
    rw [skipSpace_space, ofNode_eq]
  rw [Document.node, Reader.object_pretty (nodeField_written depth (indent + 2) node) {} space,
    nodeFields_written]
  by_cases room : (ofNode node).nesting ≤ depth + 1
  · rw [if_pos room, if_pos room]
    show (expected (node? node.id node.title (membersOf (details node)))).bind _ = _
    rw [node?_details]
    rfl
  · rw [if_neg room, if_neg room]
    rfl

def numberOf : Json → Except Fault Nat
  | .natural n => .ok n
  | _ => .error .mismatched

def outlineStep (fields : OutlineFields) : Text × Json → Except Fault OutlineFields
  | (key, value) =>
    if key = "root".toList then
      unseen fields.root ((within (maxDepth - 1) value).bind fun json =>
        (expected (nodeOf? json)).map fun root => { fields with root := some root })
    else if key = "nextId".toList then
      unseen fields.nextId ((numberOf value).map fun nextId => { fields with nextId := some nextId })
    else (collect (maxDepth - 1) fields.others (key, value)).map fun others => { fields with others }

def Bounded (outline : Outline) : Prop :=
  outline.settings.charsPerLine < 2 ^ 64 ∧ outline.settings.linesPerScreen < 2 ^ 64 ∧
    outline.settings.maxItemsPerMenu < 2 ^ 64 ∧ outline.nextId < 2 ^ 64

def settingMembers (settings : Settings) : List (Text × Json) :=
  [("chars_per_line".toList, .natural settings.charsPerLine),
    ("lines_per_screen".toList, .natural settings.linesPerScreen),
    ("max_items_per_menu".toList, .natural settings.maxItemsPerMenu)]

def outlineMembers (outline : Outline) : List (Text × Json) :=
  settingMembers outline.settings ++
    [("root".toList, ofNode outline.root), ("nextId".toList, .natural outline.nextId)]

theorem ofOutline_eq (outline : Outline) : ofOutline outline = .obj (outlineMembers outline) := rfl

theorem settingMembers_other {outline : Outline} (bounded : Bounded outline) :
    ∀ member ∈ settingMembers outline.settings,
      member.1 ≠ "root".toList ∧ member.1 ≠ "nextId".toList ∧ member.2.Plain := by
  intro member listed
  simp only [settingMembers, List.mem_cons, List.not_mem_nil, or_false] at listed
  rcases listed with rfl | rfl | rfl
  · exact ⟨by simp, by simp, bounded.1⟩
  · exact ⟨by simp, by simp, bounded.2.1⟩
  · exact ⟨by simp, by simp, bounded.2.2.1⟩

theorem outlineField_written {outline : Outline} (bounded : Bounded outline) (indent : Nat) :
    ∀ member ∈ outlineMembers outline, ∀ fields rest, Ends rest →
      ((outlineField fields member.1).bind fun reader =>
          reader (' ' :: (member.2.pretty indent ++ rest))) =
        (outlineStep fields member).map (·, rest) := by
  intro member listed fields rest ends
  rcases List.mem_append.mp listed with setting | listed
  · obtain ⟨other, other', plain⟩ := settingMembers_other bounded member setting
    rw [outlineField, if_neg other, if_neg other', outlineStep, if_neg other, if_neg other']
    simp only [Except.bind]
    rw [into_value plain _ _ indent ends, collect]
    cases within (maxDepth - 1) member.2 <;> rfl
  rcases List.mem_pair.mp listed with rfl | rfl
  · dsimp only
    rw [outlineField, outlineStep, if_pos rfl, if_pos rfl]
    apply once_unseen
    rw [into, node_written, within]
    by_cases room : (ofNode outline.root).nesting ≤ maxDepth - 2 + 1
    · rw [if_pos room, if_pos (show _ ≤ maxDepth - 1 from room)]
      simp only [Except.bind, nodeOf?_ofNode]
      rfl
    · rw [if_neg room, if_neg (show ¬ _ ≤ maxDepth - 1 from room)]
      rfl
  · have other : "nextId".toList ≠ "root".toList := by decide
    dsimp only
    rw [outlineField, outlineStep, if_neg other, if_pos rfl, if_neg other, if_pos rfl]
    apply once_unseen
    exact into_ok (Reader.natural_ofNat bounded.2.2.2 ends)

theorem outlineFields_written (outline : Outline) :
    (outlineMembers outline).foldlM outlineStep {} =
      if (ofNode outline.root).nesting ≤ 126 then
        .ok ⟨some outline.root, some outline.nextId, settingMembers outline.settings⟩
      else .error .malformed := by
  have start : (settingMembers outline.settings).foldlM outlineStep {} =
      .ok ⟨none, none, settingMembers outline.settings⟩ := rfl
  have root : outlineStep ⟨none, none, settingMembers outline.settings⟩
        ("root".toList, ofNode outline.root) =
      if (ofNode outline.root).nesting ≤ 126 then
        .ok ⟨some outline.root, none, settingMembers outline.settings⟩
      else .error .malformed := by
    rw [outlineStep, if_pos rfl, within, maxDepth]
    by_cases room : (ofNode outline.root).nesting ≤ 126
    · rw [if_pos room, if_pos room]
      simp only [unseen, Except.bind, nodeOf?_ofNode]
      rfl
    · rw [if_neg room, if_neg room]
      rfl
  rw [outlineMembers, List.foldlM_append, start]
  show (outlineStep ⟨none, none, settingMembers outline.settings⟩
    ("root".toList, ofNode outline.root)).bind _ = _
  rw [root]
  by_cases room : (ofNode outline.root).nesting ≤ 126
  · rw [if_pos room, if_pos room]
    rfl
  · rw [if_neg room, if_neg room]
    rfl

theorem readOutline_written {outline : Outline} (bounded : Bounded outline) :
    readOutline (writeOutline outline) =
      if (ofNode outline.root).nesting ≤ 126 then .ok outline else .error .malformed := by
  have settings : settings? (membersOf (settingMembers outline.settings)) =
      some outline.settings := by
    simp only [settingMembers, membersOf]
    rfl
  have written : skipSpace (writeOutline outline) =
      skipSpace ((Json.obj (outlineMembers outline)).pretty 0 ++ []) := by
    rw [writeOutline, ofOutline_eq, List.append_nil]
  have read := Reader.object_pretty (outlineField_written bounded 2) {} written
  rw [outlineFields_written] at read
  rw [readOutline, Reader.whole, Document.outline, read]
  by_cases room : (ofNode outline.root).nesting ≤ 126
  · rw [if_pos room, if_pos room]
    simp only [Except.map, bind, Except.bind, expected, settings]
    rfl
  · rw [if_neg room, if_neg room]
    rfl

/-- A saved document loads back exactly if no node is deeper than 62 levels below the root; the
text of a deeper one is not taken for JSON. -/
theorem load_iff_shallow (outline : Outline) (bounded : Bounded outline) :
    (readOutline (writeOutline outline) = .ok outline ↔
        ∀ entry ∈ outline.root.preorder 0, entry.1 ≤ 62) ∧
      ((∃ entry ∈ outline.root.preorder 0, 62 < entry.1) →
        readOutline (writeOutline outline) = .error .malformed) := by
  have levels := nesting_ofNode 63 0 outline.root
  have shallow : (ofNode outline.root).nesting ≤ 126 ↔
      ∀ entry ∈ outline.root.preorder 0, entry.1 ≤ 62 := by
    rw [show 126 = 2 * 63 from rfl, levels]
    simp only [Nat.zero_add, Nat.lt_succ_iff]
  rw [readOutline_written bounded, ← shallow]
  constructor
  · by_cases room : (ofNode outline.root).nesting ≤ 126
    · simp [room]
    · simp [room]
  · intro deep
    obtain ⟨entry, listed, below⟩ := deep
    apply if_neg
    intro room
    have bound := shallow.mp room entry listed
    omega

def chain : Nat → Node
  | 0 => .note [] [] []
  | levels + 1 => .menu [] [] [chain levels]

/-- Texts with quotes, backslashes, control characters and characters beyond the first plane, and
the least and the greatest numbers. -/
def oddDocument : Outline :=
  ⟨⟨0, 2 ^ 64 - 1, 10⟩, .menu "\"\\".toList "\x00\x1f\x7f\u2028".toList
    [.code "\"\\".toList "\r\n\t\x08\x0c".toList "😀".toList, .menu [] [] [], chain 61], 2 ^ 64 - 1⟩

theorem load_iff_shallow_oddDocument :
    Bounded oddDocument ∧ readOutline (writeOutline oddDocument) = .ok oddDocument ∧
      readOutline (writeOutline ⟨{}, chain 63, 0⟩) = .error .malformed := by
  have bounded : Bounded oddDocument := ⟨by decide, by decide, by decide, by decide⟩
  have bounded' : Bounded ⟨{}, chain 63, 0⟩ := ⟨by decide, by decide, by decide, by decide⟩
  refine ⟨bounded, ?_, ?_⟩
  · exact (load_iff_shallow oddDocument bounded).1.mpr (by decide +kernel)
  · exact (load_iff_shallow ⟨{}, chain 63, 0⟩ bounded').2 (by decide +kernel)

end CalcApp.Document
