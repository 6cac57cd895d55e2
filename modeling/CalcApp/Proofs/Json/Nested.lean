import CalcApp.Proofs.Json.Scalar
import CalcApp.Proofs.Text

/-! Nested values are read as they were written, as long as arrays and objects are not nested deeper
than the reader goes; text that goes deeper is malformed. -/

namespace CalcApp

namespace Json

mutual

def Plain : Json → Prop
  | .natural value => value < 2 ^ 64
  | .decimal _ => False
  | .arr items => PlainItems items
  | .obj members => PlainMembers members
  | .null | .bool _ | .str _ => True

def PlainItems : List Json → Prop
  | [] => True
  | item :: rest => Plain item ∧ PlainItems rest

def PlainMembers : List (Text × Json) → Prop
  | [] => True
  | (_, value) :: rest => Plain value ∧ PlainMembers rest

end

mutual

def nesting : Json → Nat
  | .arr items => nestingItems items + 1
  | .obj members => nestingMembers members + 1
  | .null | .bool _ | .natural _ | .decimal _ | .str _ => 0

def nestingItems : List Json → Nat
  | [] => 0
  | item :: rest => max (nesting item) (nestingItems rest)

def nestingMembers : List (Text × Json) → Nat
  | [] => 0
  | (_, value) :: rest => max (nesting value) (nestingMembers rest)

end

theorem pretty_arr (indent : Nat) (items : List Json) :
    (Json.arr items).pretty indent = bracketed '[' ']' indent (prettyItems (indent + 2) items) := rfl

theorem pretty_obj (indent : Nat) (members : List (Text × Json)) :
    (Json.obj members).pretty indent =
      bracketed '\x7b' '\x7d' indent (prettyMembers (indent + 2) members) := rfl

theorem pretty_cons {json : Json} (plain : json.Plain) (indent : Nat) :
    ∃ c rest, json.pretty indent = c :: rest ∧ isSpace c = false ∧ c ≠ ']' := by
  cases json with
  | null => exact ⟨'n', _, rfl, by decide, by decide⟩
  | bool value => cases value <;> exact ⟨_, _, rfl, by decide, by decide⟩
  | natural value =>
      obtain ⟨first, others, shape, digit⟩ := ofNat_cons value
      refine ⟨first, others, shape, isSpace_of_isDigit digit, ?_⟩
      intro bracket
      rw [bracket] at digit
      exact absurd digit (by decide)
  | decimal literal => exact plain.elim
  | str text => exact ⟨'"', _, rfl, by decide, by decide⟩
  | arr items =>
      rw [pretty_arr, bracketed]
      split
      · exact ⟨_, _, rfl, by decide, by decide⟩
      · exact ⟨'[', _, rfl, by decide, by decide⟩
  | obj members =>
      rw [pretty_obj, bracketed]
      split
      · exact ⟨_, _, rfl, by decide, by decide⟩
      · exact ⟨'\x7b', _, rfl, by decide, by decide⟩

theorem skipSpace_pretty {json : Json} (plain : json.Plain) (indent : Nat) (rest : Text) :
    skipSpace (json.pretty indent ++ rest) = json.pretty indent ++ rest := by
  obtain ⟨c, following, shape, shown, _⟩ := pretty_cons plain indent
  rw [shape, List.cons_append, skipSpace_cons shown]

theorem bracketed_append (opening closing : Char) (indent : Nat) {parts : List Text}
    (some : parts ≠ []) (rest : Text) :
    bracketed opening closing indent parts ++ rest =
      opening :: (newline (indent + 2) ++ (Text.join (',' :: newline (indent + 2)) parts ++
        (newline indent ++ closing :: rest))) := by
  have filled : parts.isEmpty = false := by simpa using some
  rw [bracketed, filled]
  simp

theorem length_le_join (c : Char) (separator : Text) (parts : List Text) :
    parts.length ≤ (Text.join (c :: separator) parts).length + 1 := by
  induction parts with
  | nil => simp
  | cons part rest ih =>
      by_cases last : rest = []
      · subst last
        simp
      · rw [Text.join_cons _ _ last]
        simp only [List.length_append, List.length_cons]
        omega

theorem join_first (separator : Text) (c : Char) (part : Text) (parts : List Text) :
    Text.join separator ((c :: part) :: parts) = c :: Text.join separator (part :: parts) := by
  cases parts with
  | nil => rw [Text.join_singleton, Text.join_singleton]
  | cons next rest =>
      rw [Text.join_cons _ _ (List.cons_ne_nil _ _), Text.join_cons _ _ (List.cons_ne_nil _ _)]
      rfl

theorem prettyItems_eq (indent : Nat) (items : List Json) :
    prettyItems indent items = items.map (pretty indent) := by
  induction items with
  | nil => rw [prettyItems, List.map_nil]
  | cons item rest ih => rw [prettyItems, List.map_cons, ih]

theorem prettyMembers_eq (indent : Nat) (members : List (Text × Json)) :
    prettyMembers indent members =
      members.map fun member => quoted member.1 ++ ':' :: ' ' :: member.2.pretty indent := by
  induction members with
  | nil => rw [prettyMembers, List.map_nil]
  | cons member rest ih => rw [prettyMembers, List.map_cons, ih]

/-- What a reader that goes `depth` levels down makes of a value. -/
def within (depth : Nat) (json : Json) : Except Fault Json :=
  if json.nesting ≤ depth then .ok json else .error .malformed

def Legible (lenient : Bool) (json : Json) : Prop :=
  ∀ depth indent rest, Ends rest →
    Reader.value lenient depth (json.pretty indent ++ rest) = (within depth json).map (·, rest)

namespace Reader

theorem value_skipSpace {lenient : Bool} {depth : Nat} {first second : Text}
    (same : skipSpace first = skipSpace second) :
    value lenient depth first = value lenient depth second := by
  cases depth with
  | zero => rw [value, value, same]
  | succ depth => rw [value, value, same]

theorem value_scalar {lenient : Bool} {text : Text} {json : Json} {rest : Text}
    (shown : skipSpace text = text) (found : scalar? lenient text = some (json, rest))
    (depth : Nat) : value lenient depth text = .ok (json, rest) := by
  cases depth with
  | zero => rw [value, shown, found, required]
  | succ depth =>
      rw [value, shown]
      split
      · cases found
      · cases found
      · rw [found, required]

section

variable {α : Type} {item : Reader α}

theorem itemsFrom_fault {text : Text} {fault : Fault} (read : item text = .error fault)
    (most : Nat) : itemsFrom item (most + 1) text = .error fault := by
  rw [itemsFrom, read]
  rfl

theorem itemsFrom_last {text rest : Text} {last : α} {indent : Nat}
    (read : item text = .ok (last, newline indent ++ ']' :: rest)) (most : Nat) :
    itemsFrom item (most + 1) text = .ok ([last], rest) := by
  have close : skipSpace (newline indent ++ ']' :: rest) = ']' :: rest := by
    rw [skipSpace_newline, skipSpace_cons (by decide)]
  rw [itemsFrom, read]
  simp only [bind, Except.bind, close]
  rfl

theorem itemsFrom_more {text rest : Text} {first : α} (read : item text = .ok (first, ',' :: rest))
    (most : Nat) : itemsFrom item (most + 1) text =
      (itemsFrom item most rest).map fun (others, following) => (first :: others, following) := by
  have comma : skipSpace (',' :: rest) = ',' :: rest := skipSpace_cons (by decide) rest
  rw [itemsFrom, read]
  simp only [bind, Except.bind, comma]
  cases itemsFrom item most rest <;> rfl

theorem itemsFrom_congr {first second : Text} (same : item first = item second) (most : Nat) :
    itemsFrom item most first = itemsFrom item most second := by
  cases most with
  | zero => rfl
  | succ most => rw [itemsFrom, itemsFrom, same]

theorem items_shown {text following : Text} {c : Char} (shape : skipSpace text = c :: following)
    (other : c ≠ ']') (most : Nat) : items item most text = itemsFrom item most (c :: following) := by
  rw [items, shape]
  split
  · rename_i same
    cases same
    exact absurd rfl other
  · rfl

end

theorem itemsFrom_pretty {lenient : Bool} {items : List Json} (some : items ≠ [])
    (legible : ∀ item ∈ items, Legible lenient item) (depth inner indent : Nat) (rest : Text)
    {most : Nat} (enough : items.length ≤ most) :
    itemsFrom (value lenient depth) most
        (Text.join (',' :: newline inner) (prettyItems inner items) ++
          (newline indent ++ ']' :: rest)) =
      (items.mapM (within depth)).map (·, rest) := by
  induction items generalizing most with
  | nil => exact absurd rfl some
  | cons item others ih =>
      obtain ⟨fewer, rfl⟩ : ∃ fewer, most = fewer + 1 :=
        ⟨most - 1, by rw [List.length_cons] at enough; omega⟩
      have first := legible item (by simp) depth inner
      rw [List.mapM_cons]
      by_cases last : others = []
      · subst last
        have read := first (newline indent ++ ']' :: rest) (.inr rfl)
        rw [prettyItems, prettyItems, Text.join_singleton]
        cases held : within depth item with
        | error fault =>
            rw [held] at read
            exact itemsFrom_fault read fewer
        | ok found =>
            rw [held] at read
            exact itemsFrom_last read fewer
      · have later := ih last (fun other member => legible other (by simp [member]))
          (Nat.le_of_succ_le_succ enough)
        -- the loop goes on at the new line after the comma
        have shift : itemsFrom (value lenient depth) fewer (newline inner ++
              (Text.join (',' :: newline inner) (prettyItems inner others) ++
                (newline indent ++ ']' :: rest))) = _ :=
          itemsFrom_congr (value_skipSpace (skipSpace_newline inner _)) fewer
        have read := first (',' :: (newline inner ++
          (Text.join (',' :: newline inner) (prettyItems inner others) ++
            (newline indent ++ ']' :: rest)))) (.inl rfl)
        have more : prettyItems inner others ≠ [] := by
          rw [prettyItems_eq]
          exact mt List.map_eq_nil_iff.mp last
        rw [prettyItems, Text.join_cons _ _ more, List.append_assoc, List.append_assoc,
          List.cons_append]
        cases held : within depth item with
        | error fault =>
            rw [held] at read
            exact itemsFrom_fault read fewer
        | ok found =>
            rw [held] at read
            rw [itemsFrom_more read fewer, shift, later]
            cases others.mapM (within depth) <;> rfl

section

variable {σ : Type} {lenient : Bool} {field : σ → Text → Except Fault (Reader σ)}

theorem membersFrom_member (most : Nat) (state : σ) (key text : Text) :
    membersFrom lenient field (most + 1) state (quoted key ++ ':' :: text) =
      ((field state key).bind fun member => member text).bind fun (longer, rest) =>
        match skipSpace rest with
        | ',' :: rest => membersFrom lenient field most longer rest
        | '\x7d' :: following => .ok (longer, following)
        | _ => .error .malformed := by
  rw [membersFrom, quoted_append, skipSpace_cons (by decide)]
  show (required (stringTail? lenient (key.flatMap escape ++ '"' :: ':' :: text))).bind _ = _
  rw [stringTail?_quoted]
  show (field state key).bind _ = _
  cases field state key with
  | error fault => rfl
  | ok member => rfl

theorem membersFrom_newline (most : Nat) (state : σ) (indent : Nat) (text : Text) :
    membersFrom lenient field most state (newline indent ++ text) =
      membersFrom lenient field most state text := by
  cases most with
  | zero => rfl
  | succ most => rw [membersFrom, membersFrom, skipSpace_newline]

theorem membersFrom_pretty {step : σ → Text × Json → Except Fault σ} {inner : Nat}
    {members : List (Text × Json)} (some : members ≠ [])
    (reads : ∀ member ∈ members, ∀ state rest, Ends rest →
      ((field state member.1).bind fun reader => reader (' ' :: (member.2.pretty inner ++ rest))) =
        (step state member).map (·, rest))
    (state : σ) (indent : Nat) (rest : Text) {most : Nat} (enough : members.length ≤ most) :
    membersFrom lenient field most state
        (Text.join (',' :: newline inner) (prettyMembers inner members) ++
          (newline indent ++ '\x7d' :: rest)) =
      (members.foldlM step state).map (·, rest) := by
  induction members generalizing state most with
  | nil => exact absurd rfl some
  | cons member others ih =>
      obtain ⟨fewer, rfl⟩ : ∃ fewer, most = fewer + 1 :=
        ⟨most - 1, by rw [List.length_cons] at enough; omega⟩
      have first := reads member (by simp) state
      rw [List.foldlM_cons]
      by_cases last : others = []
      · subst last
        have read := first (newline indent ++ '\x7d' :: rest) (.inr rfl)
        have close : skipSpace (newline indent ++ '\x7d' :: rest) = '\x7d' :: rest := by
          rw [skipSpace_newline, skipSpace_cons (by decide)]
        rw [prettyMembers, prettyMembers, Text.join_singleton, List.append_assoc, List.cons_append,
          List.cons_append, membersFrom_member, read]
        cases step state member with
        | error fault => rfl
        | ok longer =>
            simp only [Except.map, Except.bind, close]
            rfl
      · have later := fun longer => ih last (fun other listed => reads other (by simp [listed]))
          longer (Nat.le_of_succ_le_succ enough)
        have read := first (',' :: (newline inner ++
          (Text.join (',' :: newline inner) (prettyMembers inner others) ++
            (newline indent ++ '\x7d' :: rest)))) (.inl rfl)
        have more : prettyMembers inner others ≠ [] := by
          rw [prettyMembers_eq]
          exact mt List.map_eq_nil_iff.mp last
        rw [prettyMembers, Text.join_cons _ _ more, List.append_assoc, List.append_assoc,
          List.append_assoc, List.cons_append, List.cons_append, List.cons_append,
          membersFrom_member, read]
        cases step state member with
        | error fault => rfl
        | ok longer =>
            simp only [Except.map, Except.bind, skipSpace_cons (show isSpace ',' = false by decide),
              membersFrom_newline]
            exact later longer

theorem members_shown {text following : Text} {c : Char} (shape : skipSpace text = c :: following)
    (other : c ≠ '\x7d') (start : σ) : members lenient field start text =
      membersFrom lenient field (following.length + 1) start (c :: following) := by
  rw [members, shape]
  split
  · rename_i same
    cases same
    exact absurd rfl other
  · rfl

end

theorem members_pretty {σ : Type} (lenient : Bool) {field : σ → Text → Except Fault (Reader σ)}
    {step : σ → Text × Json → Except Fault σ} {indent : Nat}
    {members : List (Text × Json)}
    (reads : ∀ member ∈ members, ∀ state rest, Ends rest →
      ((field state member.1).bind fun reader =>
          reader (' ' :: (member.2.pretty (indent + 2) ++ rest))) =
        (step state member).map (·, rest))
    (start : σ) (rest : Text) :
    ∃ text, (Json.obj members).pretty indent ++ rest = '\x7b' :: text ∧
      Reader.members lenient field start text = (members.foldlM step start).map (·, rest) := by
  cases members with
  | nil =>
      refine ⟨'\x7d' :: rest, ?_, ?_⟩
      · rw [pretty_obj, prettyMembers]
        rfl
      · rw [Reader.members, skipSpace_cons (by decide)]
        rfl
  | cons member others =>
      have filled : prettyMembers (indent + 2) (member :: others) ≠ [] := by
        rw [prettyMembers]
        exact List.cons_ne_nil _ _
      obtain ⟨following, shape⟩ : ∃ following,
          Text.join (',' :: newline (indent + 2)) (prettyMembers (indent + 2) (member :: others)) ++
            (newline indent ++ '\x7d' :: rest) = '"' :: following := by
        rw [prettyMembers, quoted_append, join_first, List.cons_append]
        exact ⟨_, rfl⟩
      refine ⟨_, by rw [pretty_obj, bracketed_append _ _ _ filled], ?_⟩
      rw [members_shown (by rw [skipSpace_newline, shape, skipSpace_cons (by decide)]) (by decide),
        ← shape]
      apply membersFrom_pretty (List.cons_ne_nil _ _) reads
      have whole := congrArg List.length shape
      have parts := length_le_join ',' (newline (indent + 2))
        (prettyMembers (indent + 2) (member :: others))
      have count : (prettyMembers (indent + 2) (member :: others)).length = others.length + 1 := by
        rw [prettyMembers_eq, List.length_map, List.length_cons]
      simp only [count, List.length_append, List.length_cons] at whole parts ⊢
      omega

theorem object_pretty {σ : Type} {field : σ → Text → Except Fault (Reader σ)}
    {step : σ → Text × Json → Except Fault σ} {indent : Nat} {members : List (Text × Json)}
    (reads : ∀ member ∈ members, ∀ state rest, Ends rest →
      ((field state member.1).bind fun reader =>
          reader (' ' :: (member.2.pretty (indent + 2) ++ rest))) =
        (step state member).map (·, rest))
    (start : σ) {text rest : Text}
    (written : skipSpace text = skipSpace ((Json.obj members).pretty indent ++ rest)) :
    object field start text = (members.foldlM step start).map (·, rest) := by
  obtain ⟨inside, shape, read⟩ := members_pretty false reads start rest
  rw [object, written, shape, skipSpace_cons (by decide)]
  exact read

end Reader

theorem within_of_le {depth : Nat} {json : Json} (room : json.nesting ≤ depth) :
    within depth json = .ok json := if_pos room

theorem within_of_lt {depth : Nat} {json : Json} (deep : depth < json.nesting) :
    within depth json = .error .malformed := if_neg (Nat.not_le.mpr deep)

theorem mapM_within (depth : Nat) (items : List Json) :
    items.mapM (within depth) =
      if nestingItems items ≤ depth then .ok items else .error .malformed := by
  induction items with
  | nil => rw [nestingItems, if_pos (Nat.zero_le depth), List.mapM_nil]; rfl
  | cons item rest ih =>
      rw [List.mapM_cons, ih, nestingItems]
      by_cases here : item.nesting ≤ depth
      · rw [within_of_le here]
        by_cases later : nestingItems rest ≤ depth
        · rw [if_pos later, if_pos (Nat.max_le.mpr ⟨here, later⟩)]
          rfl
        · rw [if_neg later, if_neg fun both => later (Nat.max_le.mp both).2]
          rfl
      · rw [within_of_lt (Nat.not_le.mp here), if_neg fun both => here (Nat.max_le.mp both).1]
        rfl

def collect (depth : Nat) (found : List (Text × Json)) (member : Text × Json) :
    Except Fault (List (Text × Json)) :=
  (within depth member.2).map fun value => found ++ [(member.1, value)]

theorem foldlM_collect (depth : Nat) (found members : List (Text × Json)) :
    members.foldlM (collect depth) found =
      if nestingMembers members ≤ depth then .ok (found ++ members) else .error .malformed := by
  induction members generalizing found with
  | nil => rw [nestingMembers, if_pos (Nat.zero_le depth), List.foldlM_nil, List.append_nil]; rfl
  | cons member rest ih =>
      rw [List.foldlM_cons, collect, nestingMembers]
      by_cases here : member.2.nesting ≤ depth
      · rw [within_of_le here]
        show rest.foldlM (collect depth) (found ++ [member]) = _
        rw [ih, List.append_assoc, List.singleton_append]
        by_cases later : nestingMembers rest ≤ depth
        · rw [if_pos later, if_pos (Nat.max_le.mpr ⟨here, later⟩)]
        · rw [if_neg later, if_neg fun both => later (Nat.max_le.mp both).2]
      · rw [within_of_lt (Nat.not_le.mp here), if_neg fun both => here (Nat.max_le.mp both).1]
        rfl

theorem legible_scalar {lenient : Bool} {json : Json} (plain : json.Plain) (flat : json.nesting = 0)
    (found : ∀ indent rest, Ends rest → scalar? lenient (json.pretty indent ++ rest) = some (json, rest)) :
    Legible lenient json := by
  intro depth indent rest ends
  rw [Reader.value_scalar (skipSpace_pretty plain indent rest) (found indent rest ends) depth,
    within_of_le (by omega)]
  rfl

theorem items_pretty {lenient : Bool} {items : List Json} (plain : PlainItems items)
    (legible : ∀ item ∈ items, Legible lenient item) (depth indent : Nat) (rest : Text) :
    ∃ text, (Json.arr items).pretty indent ++ rest = '[' :: text ∧
      Reader.items (Reader.value lenient depth) text.length text =
        (items.mapM (within depth)).map (·, rest) := by
  cases items with
  | nil =>
      refine ⟨']' :: rest, ?_, ?_⟩
      · rw [pretty_arr, prettyItems]
        rfl
      · rw [Reader.items, skipSpace_cons (by decide)]
        rfl
  | cons item others =>
      have filled : prettyItems (indent + 2) (item :: others) ≠ [] := by
        rw [prettyItems]
        exact List.cons_ne_nil _ _
      obtain ⟨c, first, start, shown, other⟩ := pretty_cons plain.1 (indent + 2)
      obtain ⟨following, shape⟩ : ∃ following,
          Text.join (',' :: newline (indent + 2)) (prettyItems (indent + 2) (item :: others)) ++
            (newline indent ++ ']' :: rest) = c :: following := by
        rw [prettyItems, start, join_first, List.cons_append]
        exact ⟨_, rfl⟩
      refine ⟨_, by rw [pretty_arr, bracketed_append _ _ _ filled], ?_⟩
      rw [Reader.items_shown (by rw [skipSpace_newline, shape, skipSpace_cons shown]) other, ← shape]
      apply Reader.itemsFrom_pretty (List.cons_ne_nil _ _) legible
      have parts := length_le_join ',' (newline (indent + 2))
        (prettyItems (indent + 2) (item :: others))
      have count : (prettyItems (indent + 2) (item :: others)).length = others.length + 1 := by
        rw [prettyItems_eq, List.length_map, List.length_cons]
      simp only [count, List.length_append, List.length_cons] at parts ⊢
      omega

theorem legible_arr {lenient : Bool} {items : List Json} (plain : PlainItems items)
    (legible : ∀ item ∈ items, Legible lenient item) : Legible lenient (.arr items) := by
  intro depth indent rest _
  cases depth with
  | zero =>
      obtain ⟨text, shape, _⟩ := items_pretty plain legible 0 indent rest
      rw [shape, Reader.value, skipSpace_cons (by decide), within_of_lt (by rw [nesting]; omega)]
      rfl
  | succ depth =>
      obtain ⟨text, shape, read⟩ := items_pretty plain legible depth indent rest
      rw [mapM_within] at read
      rw [shape, Reader.value, skipSpace_cons (by decide)]
      show (Reader.items (Reader.value lenient depth) text.length text).bind _ = _
      rw [read, within, nesting]
      by_cases room : nestingItems items ≤ depth
      · rw [if_pos room, if_pos (by omega)]
        rfl
      · rw [if_neg room, if_neg (by omega)]
        rfl

def gather (lenient : Bool) (depth : Nat) (found : List (Text × Json)) (key : Text) :
    Except Fault (Reader (List (Text × Json))) :=
  pure fun text => do
    let (next, following) ← Reader.value lenient depth text
    pure (found ++ [(key, next)], following)

theorem gather_legible {lenient : Bool} {member : Text × Json} (legible : Legible lenient member.2)
    (depth indent : Nat) (found : List (Text × Json)) {rest : Text} (ends : Ends rest) :
    ((gather lenient depth found member.1).bind fun reader =>
        reader (' ' :: (member.2.pretty indent ++ rest))) =
      (collect depth found member).map (·, rest) := by
  have read := legible depth indent rest ends
  have space : Reader.value lenient depth (' ' :: (member.2.pretty indent ++ rest)) =
      Reader.value lenient depth (member.2.pretty indent ++ rest) :=
    Reader.value_skipSpace (skipSpace_space _)
  show (Reader.value lenient depth (' ' :: (member.2.pretty indent ++ rest))).bind _ = _
  rw [space, read, collect]
  cases within depth member.2 <;> rfl

theorem legible_obj {lenient : Bool} {members : List (Text × Json)}
    (legible : ∀ member ∈ members, Legible lenient member.2) : Legible lenient (.obj members) := by
  intro depth indent rest _
  have gathered (depth : Nat) := Reader.members_pretty lenient (fun member listed found _ ends =>
    gather_legible (legible member listed) depth (indent + 2) found ends) [] rest
  cases depth with
  | zero =>
      obtain ⟨text, shape, _⟩ := gathered 0
      rw [shape, Reader.value, skipSpace_cons (by decide), within_of_lt (by rw [nesting]; omega)]
      rfl
  | succ depth =>
      obtain ⟨text, shape, read⟩ := gathered depth
      rw [foldlM_collect] at read
      rw [shape, Reader.value, skipSpace_cons (by decide)]
      show (Reader.members lenient (gather lenient depth) [] text).bind _ = _
      rw [read, within, nesting]
      by_cases room : nestingMembers members ≤ depth
      · rw [if_pos room, if_pos (by omega)]
        rfl
      · rw [if_neg room, if_neg (by omega)]
        rfl

mutual

theorem legible (lenient : Bool) : (json : Json) → json.Plain → Legible lenient json
  | .null, plain => legible_scalar plain rfl fun _ _ _ => rfl
  | .bool value, plain => by
      apply legible_scalar plain rfl
      intro indent rest _
      cases value <;> rfl
  | .natural value, plain => by
      apply legible_scalar plain rfl
      intro indent rest ends
      exact scalar?_ofNat lenient plain ends
  | .decimal _, plain => plain.elim
  | .str text, plain => legible_scalar plain rfl fun _ rest _ => scalar?_quoted lenient text rest
  | .arr items, plain => legible_arr plain (legible_items lenient items plain)
  | .obj members, plain => legible_obj (legible_members lenient members plain)

theorem legible_items (lenient : Bool) :
    (items : List Json) → PlainItems items → ∀ item ∈ items, Legible lenient item
  | [], _ => fun _ member => nomatch member
  | first :: rest, plain => by
      have here := legible lenient first plain.1
      have others := legible_items lenient rest plain.2
      intro item member
      rcases List.mem_cons.mp member with same | later
      · rw [same]
        exact here
      · exact others item later

theorem legible_members (lenient : Bool) :
    (members : List (Text × Json)) → PlainMembers members →
      ∀ member ∈ members, Legible lenient member.2
  | [], _ => fun _ member => nomatch member
  | (key, value) :: rest, plain => by
      have here := legible lenient value plain.1
      have others := legible_members lenient rest plain.2
      intro member listed
      rcases List.mem_cons.mp listed with same | later
      · rw [same]
        exact here
      · exact others member later

end

end Json

end CalcApp
