import CalcApp.Note
import CalcApp.Proofs.Text

namespace CalcApp

/-- Pieces with a break between neighbours. -/
inductive Chain (α β : Type) where
  | one (piece : α)
  | cons (piece : α) (gap : β) (rest : Chain α β)

namespace Chain

variable {α α' β β' : Type}

def mapHead (f : α → α) : Chain α β → Chain α β
  | one piece => one (f piece)
  | cons piece gap rest => cons (f piece) gap rest

def map (f : α → α') (g : β → β') : Chain α β → Chain α' β'
  | one piece => one (f piece)
  | cons piece gap rest => cons (f piece) (g gap) (rest.map f g)

def pieces : Chain α β → List α
  | one piece => [piece]
  | cons piece _ rest => piece :: rest.pieces

def gaps : Chain α β → List β
  | one _ => []
  | cons _ gap rest => gap :: rest.gaps

@[simp] theorem pieces_map (f : α → α') (g : β → β') (chain : Chain α β) :
    (chain.map f g).pieces = chain.pieces.map f := by
  induction chain with
  | one piece => rfl
  | cons piece gap rest ih => simp [map, pieces, ih]

@[simp] theorem pieces_mapHead (f : α → α) (chain : Chain α β) :
    (chain.mapHead f).pieces = chain.pieces.modifyHead f := by
  cases chain <;> rfl

@[simp] theorem gaps_mapHead (f : α → α) (chain : Chain α β) :
    (chain.mapHead f).gaps = chain.gaps := by
  cases chain <;> rfl

theorem mapHead_mapHead (f g : α → α) (chain : Chain α β) :
    (chain.mapHead f).mapHead g = chain.mapHead fun piece => g (f piece) := by
  cases chain <;> rfl

theorem map_congr {f f' : α → α'} {g g' : β → β'} {chain : Chain α β}
    (pieces : ∀ piece ∈ chain.pieces, f piece = f' piece) (gaps : ∀ gap ∈ chain.gaps, g gap = g' gap) :
    chain.map f g = chain.map f' g' := by
  induction chain with
  | one piece => simp [map, pieces piece (by simp [Chain.pieces])]
  | cons piece gap rest ih =>
      have later := ih (fun other member => pieces other (by simp [Chain.pieces, member]))
        (fun other member => gaps other (by simp [Chain.gaps, member]))
      simp [map, pieces piece (by simp [Chain.pieces]), gaps gap (by simp [Chain.gaps]), later]

theorem map_map {α'' β'' : Type} (f : α → α') (g : β → β') (f' : α' → α'') (g' : β' → β'')
    (chain : Chain α β) :
    (chain.map f g).map f' g' = chain.map (fun piece => f' (f piece)) (fun gap => g' (g gap)) := by
  induction chain with
  | one piece => rfl
  | cons piece gap rest ih => simp [map, ih]

theorem map_id (chain : Chain α β) : chain.map id id = chain := by
  induction chain with
  | one piece => rfl
  | cons piece gap rest ih => simp [map, ih]

end Chain

namespace Note

def stretchesAfter (pending : Nat) : Text → Chain Text Nat
  | [] => if 2 ≤ pending then .cons [] pending (.one []) else .one (List.replicate pending '\n')
  | c :: rest =>
    if c = '\n' then stretchesAfter (pending + 1) rest
    else
      let following := (stretchesAfter 0 rest).mapHead (c :: ·)
      if 2 ≤ pending then .cons [] pending following
      else following.mapHead (List.replicate pending '\n' ++ ·)

/-- The pieces of a text between its maximal runs of two or more newlines, and how long each of
these runs is. -/
def stretches (text : Text) : Chain Text Nat := stretchesAfter 0 text

def weave : Chain Text Nat → Text
  | .one stretch => stretch
  | .cons stretch run rest => stretch ++ List.replicate run '\n' ++ weave rest

theorem weave_mapHead (front : Text) (chain : Chain Text Nat) :
    weave (chain.mapHead (front ++ ·)) = front ++ weave chain := by
  cases chain <;> simp [Chain.mapHead, weave]

theorem weave_mapHead_cons (c : Char) (chain : Chain Text Nat) :
    weave (chain.mapHead (c :: ·)) = c :: weave chain :=
  weave_mapHead [c] chain

theorem weave_stretchesAfter (pending : Nat) (text : Text) :
    weave (stretchesAfter pending text) = List.replicate pending '\n' ++ text := by
  induction text generalizing pending with
  | nil =>
      rw [stretchesAfter]
      split <;> simp [weave]
  | cons c rest ih =>
      rw [stretchesAfter]
      split
      · rename_i newline
        rw [ih, newline, List.replicate_succ']
        simp
      · have later : weave ((stretchesAfter 0 rest).mapHead (c :: ·)) = c :: rest := by
          rw [weave_mapHead_cons, ih]
          rfl
        dsimp only
        split
        · simp [weave, later]
        · rw [weave_mapHead, later]

theorem weave_stretches (text : Text) : weave (stretches text) = text := by
  exact weave_stretchesAfter 0 text

theorem two_le_of_mem_gaps {pending run : Nat} {text : Text}
    (member : run ∈ (stretchesAfter pending text).gaps) : 2 ≤ run := by
  induction text generalizing pending with
  | nil =>
      rw [stretchesAfter] at member
      split at member
      · have same : run = pending := by simpa [Chain.gaps] using member
        omega
      · cases member
  | cons c rest ih =>
      rw [stretchesAfter] at member
      split at member
      · exact ih member
      · dsimp only at member
        split at member
        · rcases List.mem_cons.mp member with same | later
          · omega
          · exact ih (by simpa using later)
        · exact ih (by simpa using member)

/-- The stretches of each screen: a run of three or more newlines starts a new screen. -/
def perScreen : Chain Text Nat → List (List Text)
  | .one stretch => [[stretch]]
  | .cons stretch run rest =>
    if 3 ≤ run then [stretch] :: perScreen rest
    else (perScreen rest).modifyHead (stretch :: ·)

theorem perScreen_filled (chain : Chain Text Nat) :
    perScreen chain ≠ [] ∧ ∀ screen ∈ perScreen chain, screen ≠ [] := by
  induction chain with
  | one stretch => simp [perScreen]
  | cons stretch run rest ih =>
      rw [perScreen]
      split
      · simpa using ih.2
      · obtain ⟨first, others, shape⟩ := List.exists_cons_of_ne_nil ih.1
        have later := ih.2
        rw [shape] at later ⊢
        simp_all

theorem perScreen_mapHead (f : Text → Text) (chain : Chain Text Nat) :
    perScreen (chain.mapHead f) = (perScreen chain).modifyHead (·.modifyHead f) := by
  cases chain with
  | one stretch => rfl
  | cons stretch run rest =>
      rw [Chain.mapHead, perScreen, perScreen]
      split
      · rfl
      · obtain ⟨first, others, shape⟩ := List.exists_cons_of_ne_nil (perScreen_filled rest).1
        simp [shape]

theorem pauseGroups_cons {c : Char} (other : c ≠ '\n') (rest : Text) :
    pauseGroups (c :: rest) = (pauseGroups rest).modifyHead (c :: ·) := by
  rw [pauseGroups]
  rintro _ newline _
  exact other newline

theorem pauseGroups_newline {c : Char} (other : c ≠ '\n') (rest : Text) :
    pauseGroups ('\n' :: c :: rest) = (pauseGroups rest).modifyHead ('\n' :: c :: ·) := by
  rw [pauseGroups, pauseGroups_cons other, List.modifyHead_modifyHead]
  · rfl
  · intro following _ shape
    exact other (List.cons.inj shape).1

theorem map_modifyHead {α β : Type} {f : α → α} {g : α → β} {f' : β → β} (list : List α)
    (commute : ∀ x, g (f x) = f' (g x)) :
    (list.modifyHead f).map g = (list.map g).modifyHead f' := by
  cases list <;> simp [commute]

theorem screensAfter_groups (pending : Nat) (text : Text) :
    (screensAfter pending text).map pauseGroups = perScreen (stretchesAfter pending text) := by
  induction text generalizing pending with
  | nil =>
      rw [screensAfter, stretchesAfter]
      match pending with
      | 0 => rfl
      | 1 => rfl
      | 2 => rfl
      | more + 3 =>
          rw [if_pos (by omega), if_pos (by omega), perScreen, if_pos (by omega)]
          rfl
  | cons c rest ih =>
      rw [screensAfter, stretchesAfter]
      split
      · exact ih (pending + 1)
      · rename_i other
        have first : ((screensAfter 0 rest).modifyHead (c :: ·)).map pauseGroups =
            perScreen ((stretchesAfter 0 rest).mapHead (c :: ·)) := by
          rw [perScreen_mapHead, ← ih 0]
          exact map_modifyHead _ (pauseGroups_cons other)
        dsimp only
        match pending with
        | 0 =>
            rw [if_neg (by omega), if_neg (by omega), perScreen_mapHead, ← first]
            exact map_modifyHead _ fun screen => by cases shape : pauseGroups screen <;> simp [shape]
        | 1 =>
            rw [if_neg (by omega), if_neg (by omega), Chain.mapHead_mapHead, perScreen_mapHead,
              List.modifyHead_modifyHead, ← ih 0]
            exact map_modifyHead _ (pauseGroups_newline other)
        | 2 =>
            rw [if_neg (by omega), if_pos (by omega), perScreen, if_neg (by omega), ← first]
            exact map_modifyHead _ fun screen => by simp [pauseGroups, List.replicate]
        | more + 3 =>
            rw [if_pos (by omega), if_pos (by omega), perScreen, if_pos (by omega), ← first]
            rfl

/-- The lines of a note between its pauses, and for each pause whether it clears the screen. -/
abbrev Sheets := Chain (List Text) Bool

def Sheets.items : Sheets → List Item
  | .one lines => [.lines lines]
  | .cons lines clears rest =>
    .lines lines :: (if clears then .hardBreak else .pause) :: Sheets.items rest

def groupLines (width : Nat) (group : Text) : List Text :=
  (Text.split '\n' group).flatMap (displayLines width)

def sheets (width : Nat) (text : Text) : Sheets :=
  (stretches (Text.unifyNewlines text)).map (groupLines width) fun run => decide (3 ≤ run)

theorem intercalate_modifyHead {α : Type} (separator front : List α) (lists : List (List α))
    (filled : lists ≠ []) :
    separator.intercalate (lists.modifyHead (front ++ ·)) = front ++ separator.intercalate lists := by
  obtain ⟨first, others, rfl⟩ := List.exists_cons_of_ne_nil filled
  cases others <;> simp

theorem items_perScreen (width : Nat) (chain : Chain Text Nat) :
    [Item.hardBreak].intercalate ((perScreen chain).map fun groups =>
        (groups.map (groupItem width)).intersperse .pause) =
      Sheets.items (chain.map (groupLines width) fun run => decide (3 ≤ run)) := by
  induction chain with
  | one stretch => simp [perScreen, Chain.map, Sheets.items, groupItem, groupLines]
  | cons stretch run rest ih =>
      obtain ⟨more, filled⟩ := perScreen_filled rest
      rw [perScreen, Chain.map, Sheets.items, ← ih]
      split
      · rename_i long
        rw [List.map_cons, List.intercalate_cons_of_ne_nil (by simpa using more)]
        simp [long, groupItem, groupLines]
      · rename_i short
        have apart : ∀ groups ∈ perScreen rest,
            ((stretch :: groups).map (groupItem width)).intersperse .pause =
              [groupItem width stretch, .pause] ++ (groups.map (groupItem width)).intersperse .pause := by
          intro groups member
          obtain ⟨first, others, rfl⟩ := List.exists_cons_of_ne_nil (filled groups member)
          simp
        obtain ⟨first, others, shape⟩ := List.exists_cons_of_ne_nil more
        have start := apart first (by simp [shape])
        have front := intercalate_modifyHead [Item.hardBreak] [groupItem width stretch, .pause]
          ((perScreen rest).map fun groups => (groups.map (groupItem width)).intersperse .pause)
          (by simpa using more)
        rw [shape] at front ⊢
        rw [List.modifyHead_cons, List.map_cons, start]
        rw [List.map_cons, List.modifyHead_cons] at front
        rw [front]
        simp [short, groupItem, groupLines]

/-- A note shows the lines of its stretches, with a pause at each run of two newlines and a hard
break at each longer run. -/
theorem paginate_eq (text : Text) (width : Nat) : paginate text width = (sheets width text).items := by
  have groups := screensAfter_groups 0 (Text.unifyNewlines text)
  have shown := items_perScreen width (stretches (Text.unifyNewlines text))
  rw [stretches, ← groups, List.map_map] at shown
  exact shown

end Note

end CalcApp
