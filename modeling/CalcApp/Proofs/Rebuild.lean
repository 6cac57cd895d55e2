import CalcApp.Proofs.Listing
import CalcApp.Proofs.Node.Reread
import CalcApp.Proofs.Unfold

namespace CalcApp

namespace Node

def Titled (node : Node) : Prop := '"' ∉ node.title ∧ Text.OneLine node.title

instance (node : Node) : Decidable (Titled node) := inferInstanceAs (Decidable (_ ∧ _))

def Inside (node : Node) : Prop := node.title ≠ "Back".toList ∧ node.title ≠ "Quit".toList

instance (node : Node) : Decidable (Inside node) := inferInstanceAs (Decidable (_ ∧ _))

def Recognizable : Node → Prop
  | .code _ _ content => Code.Recognizable (Code.lines content)
  | _ => True

instance : (node : Node) → Decidable node.Recognizable
  | .code _ _ content => inferInstanceAs (Decidable (Code.Recognizable (Code.lines content)))
  | .menu _ _ _ | .note _ _ _ => inferInstanceAs (Decidable True)

end Node

namespace Listing

variable {listing : Listing} {above : List Label} {menu target : Label} {progress last : Progress}
  {name : Text} {rest : List Choice} {others : List Node}

theorem unfold_note {content : Text} {parent : Option Label}
    (found : listing.lookup target = some (.note content parent))
    (later : (unfold listing above menu ⟨progress.next + 1, progress.built⟩ rest).result =
      .ok (others, last)) :
    (unfold listing above menu progress (⟨name, target⟩ :: rest)).result =
      .ok (.note (Outline.itemId progress.next) name content :: others, last) := by
  rw [result_unfold_note found, later]
  rfl

theorem unfold_code {content : Text} {parent : Option Label}
    (found : listing.lookup target = some (.code content parent))
    (later : (unfold listing above menu ⟨progress.next + 1, progress.built⟩ rest).result =
      .ok (others, last)) :
    (unfold listing above menu progress (⟨name, target⟩ :: rest)).result =
      .ok (.code (Outline.itemId progress.next) name content :: others, last) := by
  rw [result_unfold_code found, later]
  rfl

theorem unfold_menu {title : Text} {entries : List Choice} {parent : Option Label}
    {children : List Node} {inner : Progress}
    (found : listing.lookup target = some (.menu title entries parent))
    (fresh : target ∉ menu :: above) (new : target ∉ progress.built)
    (below : (unfold listing (menu :: above) target ⟨progress.next + 1, target :: progress.built⟩
      entries).result = .ok (children, inner))
    (later : (unfold listing above menu inner rest).result = .ok (others, last)) :
    (unfold listing above menu progress (⟨name, target⟩ :: rest)).result =
      .ok (.menu (Outline.itemId progress.next) title children :: others, last) := by
  rw [result_unfold_menu found, if_neg fresh, if_neg new, below]
  show Except.map _ (unfold listing above menu inner rest).result = _
  rw [later]
  rfl

def Below (bound : Nat) (labels : List Label) : Prop := ∀ label ∈ labels, label.index.val < bound

theorem Below.mono {low high : Nat} {labels : List Label} (below : Below low labels)
    (bound : low ≤ high) : Below high labels := by
  intro label member
  exact Nat.lt_of_lt_of_le (below label member) bound

theorem Below.cons {bound : Nat} {labels : List Label} (below : Below bound labels)
    (room : bound < 676) : Below (bound + 1) (Program.labelOf bound :: labels) := by
  intro label member
  rcases List.mem_cons.mp member with rfl | member
  · rw [Program.labelOf_index room]
    omega
  · exact Nat.lt_succ_of_lt (below label member)

theorem Below.not_mem {bound : Nat} {labels : List Label} (below : Below bound labels)
    (room : bound < 676) : Program.labelOf bound ∉ labels := by
  intro member
  have smaller := below _ member
  rw [Program.labelOf_index room] at smaller
  exact Nat.lt_irrefl _ smaller

def Lists (settings : Settings) (exit : Label) (listing : Listing) (pages : List (Label × Page)) :
    Prop :=
  ∀ page ∈ pages, listing.lookup page.1 = some (page.2.readBack exit settings.linesPerScreen)

def Readable (nodes : List Node) : Prop :=
  ∀ node ∈ nodes, node.Titled ∧ node.Inside ∧ node.Recognizable

theorem readBack_entries {children : List Node} (settings : Settings) (exit : Label) {title : Text}
    (place : Nat) (parent : Option Label) (heading : '"' ∉ title)
    (titled : ∀ node ∈ children.flatMap Node.nodes, node.Titled) :
    Page.readBack exit settings.linesPerScreen
        (.menu title (Program.entriesAt place children) parent) =
      .menu title (Page.listed (Program.entriesAt place children))
        (parent.or ((Page.returning (Program.entriesAt place children)).getLast?.map
          Choice.target)) := by
  apply Page.readBack_choices exit _ parent heading
  intro entry member
  obtain ⟨child, listed, same⟩ := Program.title_of_mem_entriesAt member
  rw [← same]
  exact (titled child (Node.mem_nodes_of_mem listed)).1

theorem readBack_siblings {children : List Node} (settings : Settings) (exit : Label) {title : Text}
    (place : Nat) (parent : Option Label) (heading : '"' ∉ title)
    (readable : Readable (children.flatMap Node.nodes)) :
    Page.readBack exit settings.linesPerScreen
        (.menu title (Program.entriesAt place children) parent) =
      .menu title (Program.entriesAt place children) parent := by
  apply Page.readBack_menu exit _ parent heading
  all_goals
    intro entry member
    obtain ⟨child, listed, same⟩ := Program.title_of_mem_entriesAt member
    have known := readable child (Node.mem_nodes_of_mem listed)
    rw [← same]
  · exact known.1.1
  · exact known.2.1

/-- The entries of a menu lead to its children. Every menu on the path and every menu that was met
before has a label that comes before those of the children, so that none is met twice. -/
theorem unfold_entries (settings : Settings) (exit : Label) (listing : Listing) (menu : Label)
    (above built : List Label) (place next : Nat) (path : Below place (menu :: above))
    (met : Below place built) :
    (children : List Node) →
      Lists settings exit listing (Program.pagesIn settings.charsPerLine menu place children) →
      Readable (children.flatMap Node.nodes) → place + Node.sizeIn children ≤ 676 →
      ∃ seen, (unfold listing above menu ⟨next, built⟩ (Program.entriesAt place children)).result =
          .ok (Node.rereadIn settings next children, ⟨next + Node.sizeIn children, seen⟩) ∧
        Below (place + Node.sizeIn children) seen
  | [], _, _, _ => by
      refine ⟨built, ?_, met⟩
      rw [Program.entriesAt, result_unfold_nil]
      rfl
  | child :: rest, listed, readable, fits => by
      rw [Program.pagesIn, Program.pagesAt_eq] at listed
      rw [List.flatMap_cons] at readable
      rw [Node.sizeIn_cons, ← Nat.add_assoc] at fits
      rw [Program.entriesAt, Node.rereadIn, Node.sizeIn_cons, ← Nat.add_assoc, ← Nat.add_assoc]
      have size := Node.size_eq child
      have room : place < 676 := by omega
      have found : listing.lookup (Program.labelOf place) = some (Page.readBack exit
          settings.linesPerScreen (Program.pageAt settings.charsPerLine menu place child)) :=
        listed _ (List.mem_append_left _ (List.mem_cons_self ..))
      have own := readable child (List.mem_append_left _ (Node.mem_nodes_self child))
      have inside : Readable (child.children.flatMap Node.nodes) := fun node member =>
        readable node (List.mem_append_left _ (Node.mem_nodes_of_below member))
      obtain ⟨between, below, bound⟩ := unfold_entries settings exit listing
        (Program.labelOf place) (menu :: above) (Program.labelOf place :: built) (place + 1)
        (next + 1) (path.cons room) (met.cons room) child.children
        (fun page member => listed page (List.mem_append_left _ (.tail _ member))) inside (by omega)
      have later := fun known met => unfold_entries settings exit listing menu above known
        (place + child.size) (next + child.size) (path.mono (by omega)) met rest
        (fun page member => listed page (List.mem_append_right _ member))
        (fun node member => readable node (List.mem_append_right _ member)) fits
      have total : next + 1 + Node.sizeIn child.children = next + child.size := by omega
      rw [total] at below
      cases child with
      | menu id title children =>
          have heading : '"' ∉ title := own.1.1
          have siblings : Readable (children.flatMap Node.nodes) := inside
          obtain ⟨seen, others, last⟩ := later between (bound.mono (by omega))
          rw [Program.pageAt, readBack_siblings settings exit _ _ heading siblings] at found
          refine ⟨seen, ?_, last⟩
          rw [Node.reread]
          exact unfold_menu found (path.not_mem room) (met.not_mem room) below others
      | note id title content =>
          obtain ⟨seen, others, last⟩ := later built (met.mono (by omega))
          rw [Program.pageAt, Page.readBack_note] at found
          rw [Node.size_note] at others
          refine ⟨seen, ?_, last⟩
          rw [Node.reread]
          exact unfold_note found others
      | code id title content =>
          obtain ⟨seen, others, last⟩ := later built (met.mono (by omega))
          obtain ⟨back, read⟩ := Page.readBack_code exit settings.linesPerScreen menu own.2.2
          rw [Program.pageAt, read] at found
          rw [Node.size_code] at others
          refine ⟨seen, ?_, last⟩
          rw [Node.reread]
          exact unfold_code found others
termination_by children => Node.sizeIn children
decreasing_by
  all_goals
    rw [Node.sizeIn_cons]
    omega

end Listing

namespace Program

theorem parse_render (settings : Settings) {title : Text} {children : List Node}
    (fits : Node.sizeIn children + 2 ≤ 676) (heading : Text.OneLine title)
    (titled : ∀ other ∈ children.flatMap Node.nodes, other.Titled) :
    (Outline.parse (ofTree settings title children).render).result =
      (ofTree settings title children).listing.outline.result := by
  have unbroken := ofTree_allTexts settings (fun _ plain => plain) heading fun other listed =>
    (titled other listed).2
  have listing := ofText_render (ofTree_distinct settings title fits) unbroken
  rw [Outline.parse, Traced.result_bind_ok listing, Traced.result_reportFailure]

theorem parse_ofTree (settings : Settings) {title : Text} {children : List Node}
    (fits : Node.sizeIn children + 2 ≤ 676) (heading : '"' ∉ title ∧ Text.OneLine title)
    (readable : Listing.Readable (children.flatMap Node.nodes)) :
    (Outline.parse (ofTree settings title children).render).result =
      .ok ⟨{}, .menu Outline.rootId title (Node.rereadIn settings 1 children),
        Node.sizeIn children + 1⟩ := by
  have distinct := ofTree_distinct settings title fits
  have root : (ofTree settings title children).listing.root? =
      some (labelOf 0, title, entriesAt 2 children) := by
    show Listing.root? ((labelOf 0, Page.readBack (labelOf 1) settings.linesPerScreen
      (.menu title (entriesAt 2 children) none)) :: _) = _
    rw [Listing.readBack_siblings settings (labelOf 1) 2 none heading.1 readable]
    rfl
  have first : Listing.Below 2 [labelOf 0] := by
    intro label member
    cases List.mem_singleton.mp member
    decide
  obtain ⟨seen, unfolded, _⟩ := Listing.unfold_entries settings (labelOf 1)
    (ofTree settings title children).listing (labelOf 0) [] [labelOf 0] 2 1 first first children
    (fun page member => lookup_listing distinct (.tail _ (.tail _ member))) readable (by omega)
  rw [parse_render settings fits heading.2 fun other listed => (readable other listed).1,
    Listing.outline, root]
  dsimp only
  rw [Traced.result_bind_ok unfolded, Nat.add_comm]
  rfl

end Program

end CalcApp
