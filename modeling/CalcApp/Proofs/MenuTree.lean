import CalcApp.Proofs.Listing.Shape
import CalcApp.Proofs.Unfold

/-! A program text is read as an outline exactly if its menus form a tree below its root menu. The
reader walks the entries in depth, and the invariant of the walk says which entries have led to
the menus met so far: a menu that is met again is then the target of two entries or of itself. -/

namespace CalcApp

namespace Listing

theorem getElem?_of_drop {α : Type} {row rest : List α} {place : Nat} {x : α}
    (ahead : row.drop place = x :: rest) : row[place]? = some x := by
  rw [← Nat.add_zero place, ← List.getElem?_drop, ahead]
  rfl

theorem drop_succ_of_cons {α : Type} {row rest : List α} {place : Nat} {x : α}
    (ahead : row.drop place = x :: rest) : row.drop (place + 1) = rest := by
  rw [← List.drop_drop, ahead]
  rfl

theorem unfolds_of_ok {listing : Listing} (above : List Label) (menu : Label) (progress : Progress)
    (entries : List Choice) {nodes : List Node} {last : Progress}
    (read : (unfold listing above menu progress entries).result = .ok (nodes, last)) :
    ∃ met, listing.blocks.Unfolds entries nodes met ∧ last.built = met.reverse ++ progress.built ∧
      (progress.built.Nodup → last.built.Nodup) := by
  induction above, menu, progress, entries using unfold.induct listing generalizing nodes last with
  | case1 above menu progress =>
      rw [result_unfold_nil] at read
      cases read
      exact ⟨[], .nil, rfl, id⟩
  | case2 above menu progress name target rest missing =>
      rw [result_unfold_unknown missing] at read
      cases read
  | case3 above menu progress name target rest found ih =>
      rw [result_unfold_quit found] at read
      obtain ⟨met, later, built, distinct⟩ := ih read
      exact ⟨met, .quit found later, built, distinct⟩
  | case4 above menu progress name target rest content parent found ih =>
      rw [result_unfold_note found] at read
      obtain ⟨after, readLater, same⟩ := Outcome.map_eq_ok read
      cases same
      obtain ⟨met, later, built, distinct⟩ := ih readLater
      exact ⟨met, .note found later, built, distinct⟩
  | case5 above menu progress name target rest content parent found ih =>
      rw [result_unfold_code found] at read
      obtain ⟨after, readLater, same⟩ := Outcome.map_eq_ok read
      cases same
      obtain ⟨met, later, built, distinct⟩ := ih readLater
      exact ⟨met, .code found later, built, distinct⟩
  | case6 above menu progress name target rest title entries parent found ihBelow ihLater =>
      rw [result_unfold_menu found] at read
      split at read
      · cases read
      · rename_i off
        split at read
        · cases read
        · rename_i new
          obtain ⟨inner, readBelow, read⟩ := Outcome.bind_eq_ok read
          obtain ⟨after, readLater, same⟩ := Outcome.map_eq_ok read
          cases same
          obtain ⟨deeper, below, builtBelow, distinctBelow⟩ := ihBelow off readBelow
          obtain ⟨met, later, built, distinct⟩ := ihLater inner.2 readLater
          refine ⟨target :: deeper ++ met, .menu found below later, ?_, ?_⟩
          · rw [built, builtBelow]
            simp
          · intro before
            exact distinct (distinctBelow (List.nodup_cons.mpr ⟨new, before⟩))

/-- The state of a walk from the root before the entry at `place` of `menu`. The menus on the path
lead to `menu`, and every menu met so far but the root was led to by an entry of a menu met so far,
which for `menu` itself is one before `place`. -/
structure Walk (blocks : BlockMap) (root : Label) (above : List Label) (menu : Label) (place : Nat)
    (built : List Label) : Prop where
  start : root ∈ menu :: above
  path : ∀ label ∈ menu :: above, label ∈ built ∧ blocks.Reaches label menu
  reached : ∀ label ∈ built, blocks.Reaches root label
  distinct : built.Nodup
  entered : ∀ label ∈ built, label ≠ root → ∃ entry : Label × Nat,
    (blocks.targets entry.1)[entry.2]? = some label ∧ entry.1 ∈ built ∧
      (entry.1 = menu → entry.2 < place)

namespace Walk

variable {blocks : BlockMap} {root menu target : Label} {above built : List Label} {place : Nat}

theorem known (walk : Walk blocks root above menu place built) : menu ∈ built :=
  (walk.path menu (.head _)).1

theorem initial (blocks : BlockMap) (root : Label) : Walk blocks root [] root 0 [root] := by
  constructor
  · exact .head _
  · intro label member
    cases List.mem_singleton.mp member
    exact ⟨.head _, .refl⟩
  · intro label member
    cases List.mem_singleton.mp member
    exact .refl
  · exact List.nodup_singleton root
  · intro label member other
    exact absurd (List.mem_singleton.mp member) other

theorem skip (walk : Walk blocks root above menu place built) :
    Walk blocks root above menu (place + 1) built := by
  refine ⟨walk.start, walk.path, walk.reached, walk.distinct, ?_⟩
  intro label member other
  obtain ⟨entry, held, inside, before⟩ := walk.entered label member other
  exact ⟨entry, held, inside, fun same => Nat.lt_succ_of_lt (before same)⟩

theorem enter (walk : Walk blocks root above menu place built)
    (held : (blocks.targets menu)[place]? = some target) (new : target ∉ built) :
    Walk blocks root (menu :: above) target 0 (target :: built) := by
  have leads : blocks.Leads menu target := List.mem_of_getElem? held
  have apart : ∀ label ∈ built, label ≠ target := by
    rintro label member rfl
    exact new member
  constructor
  · exact .tail _ walk.start
  · intro label member
    rcases List.mem_cons.mp member with rfl | before
    · exact ⟨.head _, .refl⟩
    · have earlier := walk.path label before
      exact ⟨.tail _ earlier.1, earlier.2.tail leads⟩
  · intro label member
    rcases List.mem_cons.mp member with rfl | before
    · exact (walk.reached menu walk.known).tail leads
    · exact walk.reached label before
  · exact List.nodup_cons.mpr ⟨new, walk.distinct⟩
  · intro label member other
    rcases List.mem_cons.mp member with rfl | before
    · exact ⟨(menu, place), held, .tail _ walk.known, fun same => absurd same (apart _ walk.known)⟩
    · obtain ⟨entry, holds, inside, _⟩ := walk.entered label before other
      exact ⟨entry, holds, .tail _ inside, fun same => absurd same (apart _ inside)⟩

theorem leave {title : Text} {entries : List Choice} {parent : Option Label} {nodes : List Node}
    {met after : List Label} (walk : Walk blocks root above menu place built)
    (held : (blocks.targets menu)[place]? = some target)
    (found : blocks target = some (.menu title entries parent))
    (unfolds : blocks.Unfolds entries nodes met) (built' : after = met.reverse ++ target :: built)
    (distinct : after.Nodup) : Walk blocks root above menu (place + 1) after := by
  subst built'
  have leads : blocks.Leads menu target := List.mem_of_getElem? held
  have old : ∀ {label}, label ∈ built → label ∈ met.reverse ++ target :: built := fun member =>
    List.mem_append_right _ (.tail _ member)
  have new : ∀ {label}, label ∈ target :: met → label ∈ met.reverse ++ target :: built := by
    intro label member
    rcases List.mem_cons.mp member with rfl | inside
    · exact List.mem_append_right _ (.head _)
    · exact List.mem_append_left _ (List.mem_reverse.mpr inside)
  -- the menus met below are none of those met before
  have apart : ∀ label ∈ target :: met, label ≠ menu := by
    rintro label member rfl
    rw [List.nodup_append'] at distinct
    rcases List.mem_cons.mp member with rfl | inside
    · exact (List.nodup_cons.mp distinct.2.1).1 walk.known
    · exact distinct.2.2 (List.mem_reverse.mpr inside) (.tail _ walk.known)
  refine ⟨walk.start, ?_, ?_, distinct, ?_⟩
  · intro label member
    exact ⟨old (walk.path label member).1, (walk.path label member).2⟩
  · intro label member
    rcases List.mem_append.mp member with inside | before
    · have way := unfolds.reaches_of_mem found (.tail _ (List.mem_reverse.mp inside))
      exact ((walk.reached menu walk.known).tail leads).trans way
    · rcases List.mem_cons.mp before with rfl | before
      · exact (walk.reached menu walk.known).tail leads
      · exact walk.reached label before
  · intro label member other
    rcases List.mem_append.mp member with inside | before
    · obtain ⟨holder, listed, led⟩ := unfolds.led_to found (List.mem_reverse.mp inside)
      obtain ⟨index, holds⟩ := List.mem_iff_getElem?.mp led
      exact ⟨(holder, index), holds, new listed, fun same => absurd same (apart holder listed)⟩
    · rcases List.mem_cons.mp before with rfl | before
      · exact ⟨(menu, place), held, old walk.known, fun _ => Nat.lt_succ_self place⟩
      · obtain ⟨entry, holds, known, earlier⟩ := walk.entered label before other
        exact ⟨entry, holds, old known, fun same => Nat.lt_succ_of_lt (earlier same)⟩

end Walk

end Listing

namespace BlockMap

/-- What a failure to read says about the menus below the root. -/
def Explains (blocks : BlockMap) (root : Option Label) : ParseError → Prop
  | .rootMenuNotFound => root = none
  | .unresolvedLabel label =>
    ∃ top menu, root = some top ∧ blocks.Reaches top menu ∧ blocks.Leads menu label ∧
      blocks label = none
  | .cyclicMenu label =>
    ∃ top, root = some top ∧ blocks.isMenu label = true ∧ blocks.Reaches top label ∧
      Relation.TransGen blocks.Leads label label
  | .sharedMenu label =>
    ∃ top first second, root = some top ∧ blocks.isMenu label = true ∧ first ≠ second ∧
      blocks.EntryTo top label first ∧ blocks.EntryTo top label second

theorem IsTree.not_explains {blocks : BlockMap} {root : Label} (tree : blocks.IsTree root)
    (cause : ParseError) : ¬ blocks.Explains (some root) cause := by
  cases cause with
  | rootMenuNotFound =>
      rintro ⟨⟩
  | unresolvedLabel label =>
      rintro ⟨_, menu, ⟨⟩, reached, leads, missing⟩
      have present := tree.resolved menu label reached leads
      rw [missing] at present
      cases present
  | cyclicMenu label =>
      rintro ⟨_, ⟨⟩, _, reached, cycle⟩
      exact tree.acyclic reached cycle
  | sharedMenu label =>
      rintro ⟨_, first, second, ⟨⟩, menu, differ, entry, entry'⟩
      have other : label ≠ root := by
        rintro rfl
        exact tree.top first entry
      have reached : blocks.Reaches root label := entry.1.tail (leads_of_place entry.2)
      exact differ ((tree.once label reached menu other).unique entry entry')

end BlockMap

namespace Listing

/-- A failure below a menu has its cause in the menus that are reached. -/
theorem explains_of_error {listing : Listing} {root : Label} (above : List Label) (menu : Label)
    (progress : Progress) (entries : List Choice) {place : Nat} {cause : ParseError}
    (walk : Walk listing.blocks root above menu place progress.built)
    (ahead : (listing.blocks.targets menu).drop place = entries.map Choice.target)
    (failed : (unfold listing above menu progress entries).result = .error cause) :
    listing.blocks.Explains (some root) cause := by
  induction above, menu, progress, entries using unfold.induct listing generalizing place with
  | case1 above menu progress =>
      rw [result_unfold_nil] at failed
      cases failed
  | case2 above menu progress name target rest missing =>
      rw [result_unfold_unknown missing] at failed
      cases failed
      refine ⟨root, menu, rfl, walk.reached menu walk.known, ?_, missing⟩
      apply List.mem_of_mem_drop
      rw [ahead]
      exact .head _
  | case3 above menu progress name target rest found ih =>
      rw [result_unfold_quit found] at failed
      exact ih walk.skip (drop_succ_of_cons ahead) failed
  | case4 above menu progress name target rest content parent found ih =>
      rw [result_unfold_note found] at failed
      exact ih walk.skip (drop_succ_of_cons ahead) (Outcome.map_eq_error failed)
  | case5 above menu progress name target rest content parent found ih =>
      rw [result_unfold_code found] at failed
      exact ih walk.skip (drop_succ_of_cons ahead) (Outcome.map_eq_error failed)
  | case6 above menu progress name target rest title entries parent found ihBelow ihLater =>
      have held : (listing.blocks.targets menu)[place]? = some target := getElem?_of_drop ahead
      have inner : listing.blocks.isMenu target = true := BlockMap.isMenu_menu found
      have leads : listing.blocks.Leads menu target := List.mem_of_getElem? held
      have reached := walk.reached menu walk.known
      rw [result_unfold_menu found] at failed
      split at failed
      · rename_i path
        cases failed
        exact ⟨root, rfl, inner, reached.tail leads, .tail' (walk.path target path).2 leads⟩
      · rename_i off
        split at failed
        · rename_i known
          cases failed
          have other : target ≠ root := by
            rintro rfl
            exact off walk.start
          obtain ⟨entry, holds, inside, before⟩ := walk.entered target known other
          refine ⟨root, entry, (menu, place), rfl, inner, ?_, ⟨walk.reached _ inside, holds⟩,
            ⟨reached, held⟩⟩
          rintro rfl
          exact Nat.lt_irrefl _ (before rfl)
        · rename_i new
          have entered := walk.enter held new
          have whole : (listing.blocks.targets target).drop 0 = entries.map Choice.target :=
            BlockMap.targets_menu found
          rcases Outcome.bind_eq_error failed with below | ⟨⟨children, between⟩, readBelow, later⟩
          · exact ihBelow off entered whole below
          · obtain ⟨met, unfolds, built, distinct⟩ := unfolds_of_ok _ _ _ _ readBelow
            have left := walk.leave held found unfolds built (distinct entered.distinct)
            exact ihLater between left (drop_succ_of_cons ahead) (Outcome.map_eq_error later)

theorem blocks_root? {listing : Listing} {label : Label} {title : Text} {entries : List Choice}
    (distinct : (listing.map Prod.fst).Nodup)
    (found : listing.root? = some (label, title, entries)) :
    listing.blocks label = some (.menu title entries none) :=
  Program.lookup_of_mem distinct (mem_of_root? found)

theorem outline_ok {listing : Listing} {outline : Outline}
    (read : listing.outline.result = .ok outline) :
    ∃ label title entries children met last, listing.root? = some (label, title, entries) ∧
      (unfold listing [] label ⟨1, [label]⟩ entries).result = .ok (children, last) ∧
      outline = ⟨{}, .menu Outline.rootId title children, last.next⟩ ∧
      listing.blocks.Unfolds entries children met ∧ (label :: met).Nodup := by
  rw [Listing.outline] at read
  cases found : listing.root? with
  | none =>
      rw [found] at read
      cases read
  | some top =>
      obtain ⟨label, title, entries⟩ := top
      rw [found, Traced.result_bind] at read
      obtain ⟨⟨children, last⟩, below, same⟩ := Outcome.bind_eq_ok read
      cases same
      obtain ⟨met, unfolds, built, distinct⟩ := unfolds_of_ok _ _ _ _ below
      have once := distinct (List.nodup_singleton label)
      rw [built, List.nodup_append_comm, List.singleton_append, List.nodup_cons,
        List.mem_reverse, List.nodup_reverse] at once
      exact ⟨label, title, entries, children, met, last, rfl, below, rfl, unfolds,
        List.nodup_cons.mpr once⟩

theorem outline_error {listing : Listing} {cause : ParseError}
    (distinct : (listing.map Prod.fst).Nodup) (failed : listing.outline.result = .error cause) :
    listing.blocks.Explains (listing.root?.map Prod.fst) cause := by
  rw [Listing.outline] at failed
  cases found : listing.root? with
  | none =>
      rw [found] at failed
      cases failed
      rfl
  | some top =>
      obtain ⟨label, title, entries⟩ := top
      rw [found, Traced.result_bind] at failed
      rcases Outcome.bind_eq_error failed with below | ⟨_, _, later⟩
      · exact explains_of_error [] label ⟨1, [label]⟩ entries (Walk.initial _ label)
          (BlockMap.targets_menu (blocks_root? distinct found)) below
      · cases later

end Listing

namespace Outline

theorem parse_result (text : Text) :
    (parse text).result = (Listing.defineAll [] (Listing.labelled text)).outline.result := by
  rw [parse, Traced.result_bind_ok (Listing.ofText_result text), Traced.result_reportFailure]

/-- A text is read as an outline exactly if its lines describe a root and the menus form a tree
below it. The outline is then unfolded from the root, and a failure names a label that breaks the
tree. -/
theorem parse_iff_isTree (text : Text) :
    ∃ (blocks : List (List Text)) (pages : BlockMap) (root : Option Label),
      (∀ others, Listing.CutInto text others ↔ others = blocks) ∧
      (∀ others top, Listing.Describes blocks others top ↔ others = pages ∧ top = root) ∧
      ((∃ outline, (parse text).result = .ok outline) ↔
        ∃ top, root = some top ∧ pages.IsTree top) ∧
      (∀ outline, (parse text).result = .ok outline → ∃ top title entries children met,
        root = some top ∧ pages top = some (.menu title entries none) ∧
          outline.root = .menu rootId title children ∧ pages.Unfolds entries children met) ∧
      ∀ cause, (parse text).result = .error cause → pages.Explains root cause := by
  refine ⟨Text.paragraphs (Text.lines (Text.unifyNewlines text)),
    BlockMap.last (Listing.labelled text), BlockMap.root? (Listing.labelled text),
    fun others => Listing.cutInto_iff.trans eq_comm,
    fun others top => Listing.describes_iff (Listing.cutInto_iff.mpr rfl), ?_⟩
  have distinct := Listing.nodup_labels (Listing.labelled text)
  rw [parse_result, ← Listing.root?_defineAll, ← Listing.blocks_defineAll]
  generalize Listing.defineAll [] (Listing.labelled text) = listing at distinct ⊢
  have explained : ∀ cause, listing.outline.result = .error cause →
      listing.blocks.Explains (listing.root?.map Prod.fst) cause :=
    fun _ => Listing.outline_error distinct
  refine ⟨⟨?_, ?_⟩, ?_, explained⟩
  · rintro ⟨outline, read⟩
    obtain ⟨label, title, entries, children, met, last, top, _, _, unfolds, once⟩ :=
      Listing.outline_ok read
    rw [top]
    exact ⟨label, rfl, unfolds.isTree (Listing.blocks_root? distinct top) once⟩
  · rintro ⟨label, top, tree⟩
    rw [top] at explained
    cases read : listing.outline.result with
    | ok outline => exact ⟨outline, rfl⟩
    | error cause => exact absurd (explained cause read) (tree.not_explains cause)
  · intro outline read
    obtain ⟨label, title, entries, children, met, last, top, _, rfl, unfolds, _⟩ :=
      Listing.outline_ok read
    rw [top]
    exact ⟨label, title, entries, children, met, rfl, Listing.blocks_root? distinct top, rfl,
      unfolds⟩

end Outline

end CalcApp
