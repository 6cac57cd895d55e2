import CalcApp.Proofs.Numbering
import Mathlib.Data.Finset.Card
import Mathlib.Data.Finset.Dedup

/-! Why reading a listing ends, and how much it builds. A run of the reader is a derivation that
follows the entries one by one and has no measure in it. Every run is finite since each menu that
it expands is one that was not built before, so that the built labels grow with every expansion
and the menus of the listing run out. -/

namespace CalcApp

namespace BlockMap

variable {blocks : BlockMap}

def menus (blocks : BlockMap) (labels : List Label) : Finset Label :=
  labels.toFinset.filter fun label => blocks.isMenu label = true

theorem mem_menus {labels : List Label} {label : Label} :
    label ∈ blocks.menus labels ↔ label ∈ labels ∧ blocks.isMenu label = true := by
  rw [menus, Finset.mem_filter, List.mem_toFinset]

theorem Unfolds.menus_eq {entries : List Choice} {nodes : List Node} {met : List Label}
    (unfolds : blocks.Unfolds entries nodes met) :
    ((nodes.flatMap Node.nodes).filter Node.isMenu).length = met.length := by
  induction unfolds with
  | nil => rfl
  | quit _ _ ih => exact ih
  | note _ _ ih | code _ _ ih =>
      rw [List.flatMap_cons, List.filter_append, List.length_append, ih]
      simp [Node.isMenu, Node.kind]
  | menu _ _ _ below later =>
      rw [List.flatMap_cons, List.filter_append, List.length_append, later, Node.nodes_menu,
        List.filter_cons_of_pos rfl, List.length_cons, below, List.cons_append, List.length_cons,
        List.length_append]
      omega

end BlockMap

namespace Listing

structure Expansion where
  menu : Label
  built : List Label
  deriving DecidableEq

/-- A run of the reader over the entries of `menu`: the menus that it expands, in order, and how
it ends. -/
inductive Runs (listing : Listing) : List Label → Label → Progress → List Choice →
    List Expansion → Except ParseError (List Node × Progress) → Prop
  | nil {above : List Label} {menu : Label} {progress : Progress} :
      Runs listing above menu progress [] [] (.ok ([], progress))
  | unknown {above : List Label} {menu target : Label} {progress : Progress} {name : Text}
      {rest : List Choice} (missing : listing.lookup target = none) :
      Runs listing above menu progress (⟨name, target⟩ :: rest) []
        (.error (.unresolvedLabel target))
  | quit {above : List Label} {menu target : Label} {progress : Progress} {name : Text}
      {rest : List Choice} {expansions : List Expansion}
      {outcome : Except ParseError (List Node × Progress)}
      (found : listing.lookup target = some .quit)
      (later : Runs listing above menu progress rest expansions outcome) :
      Runs listing above menu progress (⟨name, target⟩ :: rest) expansions outcome
  | note {above : List Label} {menu target : Label} {progress : Progress} {name content : Text}
      {parent : Option Label} {rest : List Choice} {expansions : List Expansion}
      {outcome : Except ParseError (List Node × Progress)}
      (found : listing.lookup target = some (.note content parent))
      (later : Runs listing above menu ⟨progress.next + 1, progress.built⟩ rest expansions outcome) :
      Runs listing above menu progress (⟨name, target⟩ :: rest) expansions
        (outcome.map fun later =>
          (.note (Outline.itemId progress.next) name content :: later.1, later.2))
  | code {above : List Label} {menu target : Label} {progress : Progress} {name content : Text}
      {parent : Option Label} {rest : List Choice} {expansions : List Expansion}
      {outcome : Except ParseError (List Node × Progress)}
      (found : listing.lookup target = some (.code content parent))
      (later : Runs listing above menu ⟨progress.next + 1, progress.built⟩ rest expansions outcome) :
      Runs listing above menu progress (⟨name, target⟩ :: rest) expansions
        (outcome.map fun later =>
          (.code (Outline.itemId progress.next) name content :: later.1, later.2))
  | cyclic {above : List Label} {menu target : Label} {progress : Progress} {name title : Text}
      {entries rest : List Choice} {parent : Option Label}
      (found : listing.lookup target = some (.menu title entries parent))
      (path : target ∈ menu :: above) :
      Runs listing above menu progress (⟨name, target⟩ :: rest) [] (.error (.cyclicMenu target))
  | shared {above : List Label} {menu target : Label} {progress : Progress} {name title : Text}
      {entries rest : List Choice} {parent : Option Label}
      (found : listing.lookup target = some (.menu title entries parent))
      (off : target ∉ menu :: above) (known : target ∈ progress.built) :
      Runs listing above menu progress (⟨name, target⟩ :: rest) [] (.error (.sharedMenu target))
  | broken {above : List Label} {menu target : Label} {progress : Progress} {name title : Text}
      {entries rest : List Choice} {parent : Option Label} {inner : List Expansion}
      {cause : ParseError}
      (found : listing.lookup target = some (.menu title entries parent))
      (off : target ∉ menu :: above) (new : target ∉ progress.built)
      (below : Runs listing (menu :: above) target ⟨progress.next + 1, target :: progress.built⟩
        entries inner (.error cause)) :
      Runs listing above menu progress (⟨name, target⟩ :: rest)
        (⟨target, target :: progress.built⟩ :: inner) (.error cause)
  | menu {above : List Label} {menu target : Label} {progress between : Progress}
      {name title : Text} {entries rest : List Choice} {parent : Option Label}
      {children : List Node} {inner expansions : List Expansion}
      {outcome : Except ParseError (List Node × Progress)}
      (found : listing.lookup target = some (.menu title entries parent))
      (off : target ∉ menu :: above) (new : target ∉ progress.built)
      (below : Runs listing (menu :: above) target ⟨progress.next + 1, target :: progress.built⟩
        entries inner (.ok (children, between)))
      (later : Runs listing above menu between rest expansions outcome) :
      Runs listing above menu progress (⟨name, target⟩ :: rest)
        (⟨target, target :: progress.built⟩ :: (inner ++ expansions))
        (outcome.map fun later =>
          (.menu (Outline.itemId progress.next) title children :: later.1, later.2))

variable {listing : Listing}

theorem mem_labels_of_isMenu {label : Label} (isMenu : listing.blocks.isMenu label = true) :
    label ∈ listing.map Prod.fst := by
  by_contra missing
  have none : listing.lookup label = none := by
    rw [List.lookup_eq_none_iff]
    rintro pair member
    simpa using fun same : label = pair.1 => missing (same ▸ List.mem_map_of_mem member)
  simp [BlockMap.isMenu, blocks, none] at isMenu

theorem exists_runs (listing : Listing) (above : List Label) (menu : Label) (progress : Progress)
    (entries : List Choice) : ∃ expansions,
      Runs listing above menu progress entries expansions
        (unfold listing above menu progress entries).result := by
  induction above, menu, progress, entries using unfold.induct listing with
  | case1 above menu progress =>
      rw [result_unfold_nil]
      exact ⟨[], .nil⟩
  | case2 above menu progress name target rest missing =>
      rw [result_unfold_unknown missing]
      exact ⟨[], .unknown missing⟩
  | case3 above menu progress name target rest found ih =>
      rw [result_unfold_quit found]
      obtain ⟨expansions, later⟩ := ih
      exact ⟨expansions, .quit found later⟩
  | case4 above menu progress name target rest content parent found ih =>
      rw [result_unfold_note found]
      obtain ⟨expansions, later⟩ := ih
      exact ⟨expansions, .note found later⟩
  | case5 above menu progress name target rest content parent found ih =>
      rw [result_unfold_code found]
      obtain ⟨expansions, later⟩ := ih
      exact ⟨expansions, .code found later⟩
  | case6 above menu progress name target rest title entries parent found ihBelow ihLater =>
      rw [result_unfold_menu found]
      split
      · rename_i path
        exact ⟨[], .cyclic found path⟩
      · rename_i off
        split
        · rename_i known
          exact ⟨[], .shared found off known⟩
        · rename_i new
          obtain ⟨inner, below⟩ := ihBelow off
          cases read : (unfold listing (menu :: above) target
              ⟨progress.next + 1, target :: progress.built⟩ entries).result with
          | error cause =>
              rw [read] at below
              exact ⟨_, .broken found off new below⟩
          | ok inside =>
              obtain ⟨children, between⟩ := inside
              rw [read] at below
              obtain ⟨expansions, later⟩ := ihLater between
              exact ⟨_, .menu found off new below later⟩

/-- Every expansion builds one label that is not built yet, and keeps those that are. -/
def Enlarges (built : List Label) : List Expansion → Prop
  | [] => True
  | expansion :: rest =>
    expansion.menu ∉ built ∧ expansion.built = expansion.menu :: built ∧
      Enlarges expansion.built rest

namespace Enlarges

variable {built : List Label} {expansions front back : List Expansion}

theorem append (first : Enlarges built front)
    (second : Enlarges ((front.map Expansion.menu).reverse ++ built) back) :
    Enlarges built (front ++ back) := by
  induction front generalizing built with
  | nil => exact second
  | cons expansion rest ih =>
      obtain ⟨new, enlarged, later⟩ := first
      refine ⟨new, enlarged, ih later ?_⟩
      simpa [enlarged] using second

theorem strict (enlarges : Enlarges built expansions) :
    (built.toFinset :: expansions.map fun expansion => expansion.built.toFinset).Pairwise
      (· ⊂ ·) := by
  induction expansions generalizing built with
  | nil => exact List.pairwise_singleton _ _
  | cons first rest ih =>
      obtain ⟨new, enlarged, later⟩ := enlarges
      have more : built.toFinset ⊂ first.built.toFinset := by
        rw [enlarged, List.toFinset_cons]
        exact Finset.ssubset_insert (by simpa using new)
      have following := ih later
      refine List.pairwise_cons.mpr ⟨?_, following⟩
      intro set member
      rcases List.mem_cons.mp member with rfl | after
      · exact more
      · exact more.trans ((List.pairwise_cons.mp following).1 set after)

/-- No label is expanded that is built, so none is expanded twice. -/
theorem fresh (enlarges : Enlarges built expansions) :
    (expansions.map Expansion.menu).Nodup ∧
      ∀ expansion ∈ expansions, expansion.menu ∉ built := by
  induction expansions generalizing built with
  | nil => simp
  | cons first rest ih =>
      obtain ⟨new, enlarged, later⟩ := enlarges
      rw [enlarged] at later
      obtain ⟨once, outside⟩ := ih later
      constructor
      · refine List.nodup_cons.mpr ⟨?_, once⟩
        intro again
        obtain ⟨expansion, member, same⟩ := List.mem_map.mp again
        exact outside expansion member (same ▸ List.mem_cons_self ..)
      · intro expansion member
        rcases List.mem_cons.mp member with rfl | after
        · exact new
        · exact List.not_mem_of_not_mem_cons (outside expansion after)

end Enlarges

namespace Runs

variable {above : List Label} {menu : Label} {progress : Progress} {entries : List Choice}
  {expansions : List Expansion} {outcome : Except ParseError (List Node × Progress)}

theorem unique (run : Runs listing above menu progress entries expansions outcome)
    {others : List Expansion} {ending : Except ParseError (List Node × Progress)}
    (other : Runs listing above menu progress entries others ending) :
    others = expansions ∧ ending = outcome := by
  induction run generalizing others ending with
  | nil =>
      cases other
      exact ⟨rfl, rfl⟩
  | unknown missing =>
      cases other
      case unknown => exact ⟨rfl, rfl⟩
      all_goals simp_all
  | quit found _ ih =>
      cases other
      case quit found' later => exact ih later
      all_goals simp_all
  | note found _ ih =>
      cases other
      case note found' later =>
          cases found.symm.trans found'
          obtain ⟨rfl, rfl⟩ := ih later
          exact ⟨rfl, rfl⟩
      all_goals simp_all
  | code found _ ih =>
      cases other
      case code found' later =>
          cases found.symm.trans found'
          obtain ⟨rfl, rfl⟩ := ih later
          exact ⟨rfl, rfl⟩
      all_goals simp_all
  | cyclic found path =>
      cases other
      case cyclic => exact ⟨rfl, rfl⟩
      all_goals simp_all
  | shared found off known =>
      cases other
      case shared => exact ⟨rfl, rfl⟩
      all_goals simp_all
  | broken found off new _ ih =>
      cases other
      case broken found' _ _ below =>
          cases found.symm.trans found'
          obtain ⟨rfl, same⟩ := ih below
          exact ⟨rfl, same⟩
      case menu found' _ _ below later =>
          cases found.symm.trans found'
          cases (ih below).2
      all_goals simp_all
  | menu found off new _ _ ihBelow ihLater =>
      cases other
      case broken found' _ _ below =>
          cases found.symm.trans found'
          cases (ihBelow below).2
      case menu found' _ _ below later =>
          cases found.symm.trans found'
          obtain ⟨rfl, same⟩ := ihBelow below
          cases same
          obtain ⟨rfl, rfl⟩ := ihLater later
          exact ⟨rfl, rfl⟩
      all_goals simp_all

theorem built_of_ok (run : Runs listing above menu progress entries expansions outcome)
    {nodes : List Node} {last : Progress} (ended : outcome = .ok (nodes, last)) :
    last.built = (expansions.map Expansion.menu).reverse ++ progress.built := by
  induction run generalizing nodes last with
  | nil =>
      cases ended
      rfl
  | unknown _ | cyclic _ _ | shared _ _ _ | broken _ _ _ _ _ => cases ended
  | quit _ _ ih => exact ih ended
  | note _ _ ih | code _ _ ih =>
      obtain ⟨_, read, same⟩ := Outcome.map_eq_ok ended
      cases same
      exact ih read
  | menu _ _ _ _ _ ihBelow ihLater =>
      obtain ⟨_, read, same⟩ := Outcome.map_eq_ok ended
      cases same
      rw [ihLater read, ihBelow rfl]
      simp

theorem enlarges (run : Runs listing above menu progress entries expansions outcome) :
    Enlarges progress.built expansions := by
  induction run with
  | nil | unknown _ | cyclic _ _ | shared _ _ _ => trivial
  | quit _ _ ih | note _ _ ih | code _ _ ih => exact ih
  | broken _ _ new _ ih => exact ⟨new, rfl, ih⟩
  | menu _ _ new below _ ihBelow ihLater =>
      refine ⟨new, rfl, ihBelow.append ?_⟩
      rw [← below.built_of_ok rfl]
      exact ihLater

theorem expands_menu (run : Runs listing above menu progress entries expansions outcome) :
    ∀ expansion ∈ expansions,
      listing.blocks.isMenu expansion.menu = true ∧ expansion.menu ∉ menu :: above := by
  induction run with
  | nil | unknown _ | cyclic _ _ | shared _ _ _ => simp
  | quit _ _ ih | note _ _ ih | code _ _ ih => exact ih
  | broken found off _ _ ih =>
      intro expansion member
      rcases List.mem_cons.mp member with rfl | below
      · exact ⟨BlockMap.isMenu_menu found, off⟩
      · exact ⟨(ih expansion below).1, List.not_mem_of_not_mem_cons (ih expansion below).2⟩
  | menu found off _ _ _ ihBelow ihLater =>
      intro expansion member
      rcases List.mem_cons.mp member with rfl | member
      · exact ⟨BlockMap.isMenu_menu found, off⟩
      · rcases List.mem_append.mp member with below | later
        · have inside := ihBelow expansion below
          exact ⟨inside.1, List.not_mem_of_not_mem_cons inside.2⟩
        · exact ihLater expansion later

/-- A run expands no more menus than the listing has left. -/
theorem length_le (run : Runs listing above menu progress entries expansions outcome) :
    expansions.length ≤
      (listing.blocks.menus (listing.map Prod.fst) \ progress.built.toFinset).card := by
  obtain ⟨once, outside⟩ := run.enlarges.fresh
  rw [← List.length_map Expansion.menu, ← List.toFinset_card_of_nodup once]
  apply Finset.card_le_card
  intro label member
  obtain ⟨expansion, expanded, rfl⟩ := List.mem_map.mp (List.mem_toFinset.mp member)
  have left := outside expansion expanded
  have isMenu := (run.expands_menu expansion expanded).1
  rw [Finset.mem_sdiff, BlockMap.mem_menus, List.mem_toFinset]
  exact ⟨⟨mem_labels_of_isMenu isMenu, isMenu⟩, left⟩

end Runs

end Listing

namespace Block

/-- The choices of a menu as its block writes them, with those that lead out of it. -/
def options : List Text → List Choice
  | head :: first :: second :: _ =>
    match Instruction.ofLine head, Instruction.ofLine first, Instruction.ofLine second with
    | .define _, .clear, .menu _ choices => choices
    | _, _, _ => []
  | _ => []

theorem length_entries_le_options {lines : List Text} {pair : Label × Block}
    (read : classify lines = some pair) : pair.2.entries.length ≤ (options lines).length := by
  unfold classify at read
  split at read
  · rename_i head first rest
    split at read
    · rename_i label named
      cases read
      show (ofLines first rest).entries.length ≤ _
      unfold ofLines
      split
      · rename_i title choices following clear menu
        cases rest with
        | nil => cases menu
        | cons second others =>
            have line : Instruction.ofLine second = .menu title choices := (List.cons.inj menu).1
            have offered : options (head :: first :: second :: others) = choices := by
              simp only [options, named, clear, line]
            rw [offered]
            exact List.length_filter_le _ _
      · split <;> exact Nat.zero_le _
      · exact Nat.zero_le _
      · exact Nat.zero_le _
    · cases read
  · cases read

end Block

namespace Listing

def optionCount (text : Text) : Nat :=
  ((Text.paragraphs (Text.lines (Text.unifyNewlines text))).map fun lines =>
    (Block.options lines).length).sum

end Listing

namespace Outline

theorem parse_menus_le {text : Text} {outline : Outline}
    (read : (parse text).result = .ok outline) :
    (outline.root.nodes.filter Node.isMenu).length ≤
      ((BlockMap.last (Listing.labelled text)).menus
        ((Listing.labelled text).map Prod.fst)).card := by
  rw [parse_result] at read
  obtain ⟨label, title, entries, children, met, last, top, _, rfl, unfolds, once⟩ :=
    Listing.outline_ok read
  have found := Listing.blocks_root? (Listing.nodup_labels _) top
  rw [Listing.blocks_defineAll] at found unfolds
  have count : ((Node.menu rootId title children).nodes.filter Node.isMenu).length =
      (label :: met).length := by
    rw [Node.nodes_menu, List.filter_cons_of_pos rfl, List.length_cons, unfolds.menus_eq,
      List.length_cons]
  rw [count, ← List.toFinset_card_of_nodup once]
  apply Finset.card_le_card
  intro menu member
  have isMenu : (BlockMap.last (Listing.labelled text)).isMenu menu = true := by
    rcases List.mem_cons.mp (List.mem_toFinset.mp member) with rfl | below
    · exact BlockMap.isMenu_menu found
    · exact (List.mem_filter.mp (unfolds.perm.subset below)).2
  have listed : menu ∈ (Listing.labelled text).reverse.map Prod.fst :=
    Listing.mem_labels_of_isMenu isMenu
  rw [BlockMap.mem_menus]
  exact ⟨by simpa using listed, isMenu⟩

/-- From every state the reader has one run, it ends as `unfold` says, and every menu that it
expands is a menu of the listing that was not built and is not above it: the built labels are more
at each expansion than at the one before, so that no label is expanded twice and there are no more
expansions than menus left. An outline that is read from a text has no more items than the menu
blocks of the text have options, and no more menus than there are labels with a menu. -/
theorem parse_expands_each_menu_once :
    (∀ (listing : Listing) (above : List Label) (menu : Label) (progress : Listing.Progress)
        (entries : List Choice), ∃ expansions,
      (∀ others outcome, Listing.Runs listing above menu progress entries others outcome ↔
        others = expansions ∧ outcome = (Listing.unfold listing above menu progress entries).result) ∧
      (progress.built.toFinset :: expansions.map fun expansion => expansion.built.toFinset).Pairwise
        (· ⊂ ·) ∧
      (menu :: expansions.map Listing.Expansion.menu).Nodup ∧
      (∀ expansion ∈ expansions, listing.blocks.isMenu expansion.menu = true ∧
        expansion.menu ∉ above ∧ expansion.menu ∉ progress.built) ∧
      expansions.length ≤
        (listing.blocks.menus (listing.map Prod.fst) \ progress.built.toFinset).card) ∧
    ∀ (text : Text) (outline : Outline), (parse text).result = .ok outline →
      outline.root.nodes.length ≤ 1 + Listing.optionCount text ∧
      (outline.root.nodes.filter Node.isMenu).length ≤
        ((BlockMap.last (Listing.labelled text)).menus
          ((Listing.labelled text).map Prod.fst)).card := by
  constructor
  · intro listing above menu progress entries
    obtain ⟨expansions, run⟩ := Listing.exists_runs listing above menu progress entries
    obtain ⟨once, outside⟩ := run.enlarges.fresh
    refine ⟨expansions, ?_, run.enlarges.strict, ?_, ?_, run.length_le⟩
    · intro others outcome
      constructor
      · exact run.unique
      · rintro ⟨rfl, rfl⟩
        exact run
    · refine List.nodup_cons.mpr ⟨?_, once⟩
      intro again
      obtain ⟨expansion, member, same⟩ := List.mem_map.mp again
      exact (run.expands_menu expansion member).2 (same ▸ List.mem_cons_self ..)
    · intro expansion member
      have expanded := run.expands_menu expansion member
      exact ⟨expanded.1, List.not_mem_of_not_mem_cons expanded.2, outside expansion member⟩
  · intro text outline read
    have few : Node.sizeIn outline.root.children ≤ Listing.optionCount text :=
      Nat.le_trans (parse_sizeIn_le_entries read)
        (Listing.entryCount_le_sum Block.length_entries_le_options _)
    have size : outline.root.nodes.length = Node.sizeIn outline.root.children + 1 :=
      Node.size_eq outline.root
    exact ⟨by omega, parse_menus_le read⟩

def strayMenu : Text :=
  ("Lbl AA\nClrHome\nMenu(\"T\",\"A\",AC,\"S\",AD,\"B\",AC,\"Quit\",AB)\n\nLbl AB\nStop\n\n" ++
    "Lbl AC\nX\n\nLbl AD\nClrHome\nMenu(\"S\",\"C\",AC,\"Back\",AA)\n\n" ++
    "Lbl AE\nClrHome\nMenu(\"U\",\"A\",AC)").toList

theorem parse_expands_each_menu_once_strayMenu :
    ∃ outline, (parse strayMenu).result = .ok outline ∧
      outline.root.nodes.map Node.title = [['T'], ['A'], ['S'], ['C'], ['B']] ∧
      outline.root.nodes.length ≤ 1 + 7 ∧
      (outline.root.nodes.filter Node.isMenu).length ≤ 3 := by
  have titles : (parse strayMenu).result.toOption.map
      (fun outline => outline.root.nodes.map Node.title) =
      some [['T'], ['A'], ['S'], ['C'], ['B']] := by decide +kernel
  have options : Listing.optionCount strayMenu = 7 := by decide +kernel
  have labels : ((BlockMap.last (Listing.labelled strayMenu)).menus
      ((Listing.labelled strayMenu).map Prod.fst)).card = 3 := by decide +kernel
  cases read : (parse strayMenu).result with
  | error cause =>
      rw [read] at titles
      cases titles
  | ok outline =>
      rw [read] at titles
      have bounds := parse_expands_each_menu_once.2 strayMenu outline read
      rw [options, labels] at bounds
      exact ⟨outline, rfl, Option.some.inj titles, bounds.1, bounds.2⟩

end Outline

end CalcApp
