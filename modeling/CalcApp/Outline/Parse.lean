import CalcApp.Listing
import CalcApp.Outline

/-! Reading an outline back from the text of a program. The menus must form a tree: a menu that
is reached twice is an error, a note or code block that is reached twice is copied. -/

namespace CalcApp

namespace Listing

structure Progress where
  next : Nat
  built : List Label
  deriving DecidableEq

/-- What is left to read of a listing below the menus on a path: every other block, and its
entries. -/
def pending (path : List Label) : Listing → Nat
  | [] => 0
  | (label, block) :: rest =>
    (if label ∈ path then 0 else block.entries.length + 1) + pending path rest

theorem pending_cons_le (label : Label) (path : List Label) (listing : Listing) :
    listing.pending (label :: path) ≤ listing.pending path := by
  induction listing with
  | nil => simp [pending]
  | cons entry rest ih =>
      obtain ⟨known, block⟩ := entry
      simp only [pending, List.mem_cons]
      by_cases same : known = label <;> by_cases visited : known ∈ path <;>
        simp [same, visited] <;> omega

theorem pending_cons_lt {listing : Listing} {label : Label} {block : Block} {path : List Label}
    (defined : listing.lookup label = some block) (fresh : label ∉ path) :
    listing.pending (label :: path) + block.entries.length < listing.pending path := by
  induction listing with
  | nil => simp at defined
  | cons entry rest ih =>
      obtain ⟨known, found⟩ := entry
      have fewer := pending_cons_le label path rest
      simp only [pending, List.mem_cons]
      by_cases same : known = label
      · subst same
        have equal : found = block := by simpa [List.lookup_cons] using defined
        simp only [fresh, or_false, if_true, if_false, equal]
        omega
      · have other : (label == known) = false := by simpa using fun equal => same equal.symm
        have later := ih (by simpa [List.lookup_cons, other] using defined)
        simp only [same, false_or]
        omega

def reportReturn (menu target : Label) (block : Block) : Traced ParseError Unit :=
  match block.parent with
  | some back =>
    if back = menu then pure () else Traced.report (.returnsElsewhere target back menu)
  | none => pure ()

/-- The items that the entries of `menu` list, below the menus `above`. Items are numbered in
pre-order, and entries that lead to the quit page are passed over. -/
def unfold (listing : Listing) (above : List Label) (menu : Label) (progress : Progress) :
    List Choice → Traced ParseError (List Node × Progress)
  | [] => pure ([], progress)
  | ⟨name, target⟩ :: rest =>
    let id := Outline.itemId progress.next
    match defined : listing.lookup target with
    | none => Traced.fail (.unresolvedLabel target)
    | some .quit => unfold listing above menu progress rest
    | some (.note content parent) => do
      reportReturn menu target (.note content parent)
      let (others, last) ← unfold listing above menu ⟨progress.next + 1, progress.built⟩ rest
      pure (.note id name content :: others, last)
    | some (.code content parent) => do
      reportReturn menu target (.code content parent)
      let (others, last) ← unfold listing above menu ⟨progress.next + 1, progress.built⟩ rest
      pure (.code id name content :: others, last)
    | some (.menu title entries parent) => do
      reportReturn menu target (.menu title entries parent)
      if fresh : target ∉ menu :: above then
        if target ∈ progress.built then Traced.fail (.sharedMenu target)
        else
          have := pending_cons_lt defined fresh
          let (children, inner) ←
            unfold listing (menu :: above) target ⟨progress.next + 1, target :: progress.built⟩ entries
          let (others, last) ← unfold listing above menu inner rest
          pure (.menu id title children :: others, last)
      else Traced.fail (.cyclicMenu target)
termination_by entries => listing.pending (menu :: above) + entries.length
decreasing_by
  all_goals simp_all only [Block.entries, List.length_cons]
  all_goals omega

def outline (listing : Listing) : Traced ParseError Outline :=
  match listing.root? with
  | none => Traced.fail .rootMenuNotFound
  | some (label, title, entries) => do
    let (children, last) ← unfold listing [] label ⟨1, [label]⟩ entries
    pure ⟨{}, .menu Outline.rootId title children, last.next⟩

end Listing

def Outline.parse (text : Text) : Traced ParseError Outline := do
  let listing ← Listing.ofText text
  listing.outline.reportFailure .parseFailed

end CalcApp
