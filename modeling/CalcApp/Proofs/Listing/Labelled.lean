import CalcApp.Proofs.BlockMap
import CalcApp.Proofs.Compile

namespace CalcApp

namespace BlockMap

def last (pairs : List (Label × Block)) : BlockMap := fun label => pairs.reverse.lookup label

def isTop : Option Block → Bool
  | some (.menu _ _ none) => true
  | _ => false

def root? (pairs : List (Label × Block)) : Option Label :=
  (pairs.map Prod.fst).find? fun label => isTop (last pairs label)

theorem isTop_iff {block : Option Block} :
    isTop block = true ↔ ∃ title entries, block = some (.menu title entries none) := by
  unfold isTop
  split
  · simp
  · rename_i other
    simp only [Bool.false_eq_true, false_iff, not_exists]
    exact other

end BlockMap

namespace Listing

def blocks (listing : Listing) : BlockMap := fun label => listing.lookup label

def labelled (text : Text) : List (Label × Block) :=
  (Text.paragraphs (Text.lines (Text.unifyNewlines text))).filterMap Block.classify

def defineAll (listing : Listing) (pairs : List (Label × Block)) : Listing :=
  pairs.foldl (fun known pair => define pair.1 pair.2 known) listing

theorem addBlocks_defineAll (listing : Listing) (blocks : List (List Text)) :
    (addBlocks listing blocks).result = .ok (defineAll listing (blocks.filterMap Block.classify)) := by
  induction blocks generalizing listing with
  | nil => rfl
  | cons lines rest ih =>
      cases read : Block.classify lines with
      | none =>
          have added : (addBlock listing lines).result = .ok listing := by simp [addBlock, read]
          rw [addBlocks, Traced.result_bind_ok added, ih, List.filterMap_cons_none read]
      | some pair =>
          have added : (addBlock listing lines).result = .ok (define pair.1 pair.2 listing) := by
            simp [addBlock, read]
          rw [addBlocks, Traced.result_bind_ok added, ih, List.filterMap_cons_some read]
          rfl

theorem define_of_not_mem {label : Label} {listing : Listing} (fresh : label ∉ listing.map Prod.fst)
    (block : Block) : define label block listing = listing ++ [(label, block)] := by
  induction listing with
  | nil => rfl
  | cons entry rest ih =>
      obtain ⟨known, old⟩ := entry
      simp only [List.map_cons, List.mem_cons, not_or] at fresh
      rw [define, if_neg fun same => fresh.1 same.symm, ih fresh.2]
      rfl

theorem defineAll_append {listing pairs : Listing}
    (distinct : ((listing ++ pairs).map Prod.fst).Nodup) :
    defineAll listing pairs = listing ++ pairs := by
  induction pairs generalizing listing with
  | nil =>
      rw [List.append_nil]
      rfl
  | cons pair rest ih =>
      have fresh : pair.1 ∉ listing.map Prod.fst := by
        rw [List.map_append, List.nodup_append'] at distinct
        exact fun member => distinct.2.2 member (.head _)
      rw [defineAll, List.foldl_cons, ← defineAll, define_of_not_mem fresh,
        ih (by simpa using distinct), List.append_assoc, List.singleton_append]

theorem lookup_cons_if (pair : Label × Block) (rest : Listing) (label : Label) :
    List.lookup label (pair :: rest) = if label = pair.1 then some pair.2 else rest.lookup label := by
  rw [List.lookup_cons]
  by_cases same : label = pair.1
  · simp [same]
  · simp [same, beq_false_of_ne same]

theorem lookup_define (label : Label) (block : Block) (listing : Listing) (other : Label) :
    (define label block listing).lookup other =
      if other = label then some block else listing.lookup other := by
  induction listing with
  | nil => rw [define, lookup_cons_if]
  | cons entry rest ih =>
      obtain ⟨known, old⟩ := entry
      rw [define]
      by_cases here : known = label
      · rw [if_pos here, lookup_cons_if, lookup_cons_if, here]
        by_cases same : other = label <;> simp [same]
      · rw [if_neg here, lookup_cons_if, lookup_cons_if, ih]
        by_cases same : other = known <;> simp [same, here]

theorem lookup_defineAll (listing : Listing) (pairs : List (Label × Block)) (label : Label) :
    (defineAll listing pairs).lookup label =
      (pairs.reverse.lookup label).or (listing.lookup label) := by
  induction pairs generalizing listing with
  | nil => rfl
  | cons pair rest ih =>
      have first : (define pair.1 pair.2 listing).lookup label =
          (List.lookup label [pair]).or (listing.lookup label) := by
        rw [lookup_define, lookup_cons_if]
        by_cases same : label = pair.1 <;> simp [same]
      rw [defineAll, List.foldl_cons, ← defineAll, ih, first, List.reverse_cons, List.lookup_append,
        Option.or_assoc]

theorem labels_define (label : Label) (block : Block) (listing : Listing) :
    (define label block listing).map Prod.fst =
      if label ∈ listing.map Prod.fst then listing.map Prod.fst
      else listing.map Prod.fst ++ [label] := by
  induction listing with
  | nil => rfl
  | cons entry rest ih =>
      obtain ⟨known, old⟩ := entry
      rw [define]
      by_cases here : known = label
      · simp [here]
      · have other : label ≠ known := fun same => here same.symm
        rw [if_neg here, List.map_cons, ih]
        by_cases listed : label ∈ rest.map Prod.fst <;> simp [listed, other]

theorem nodup_labels_define (label : Label) (block : Block) {listing : Listing}
    (distinct : (listing.map Prod.fst).Nodup) :
    ((define label block listing).map Prod.fst).Nodup := by
  rw [labels_define]
  split
  · exact distinct
  · rename_i fresh
    rw [List.nodup_append']
    refine ⟨distinct, List.nodup_singleton _, ?_⟩
    intro known listed last
    rw [List.mem_singleton.mp last] at listed
    exact fresh listed

theorem nodup_labels_defineAll (pairs : List (Label × Block)) {listing : Listing}
    (distinct : (listing.map Prod.fst).Nodup) : ((defineAll listing pairs).map Prod.fst).Nodup := by
  induction pairs generalizing listing with
  | nil => exact distinct
  | cons pair rest ih => exact ih (nodup_labels_define pair.1 pair.2 distinct)

/-- The first label with a property does not depend on later definitions of it. -/
theorem find?_labels_defineAll (p : Label → Bool) (listing : Listing) (pairs : List (Label × Block)) :
    ((defineAll listing pairs).map Prod.fst).find? p =
      (listing.map Prod.fst ++ pairs.map Prod.fst).find? p := by
  induction pairs generalizing listing with
  | nil => simp [defineAll]
  | cons pair rest ih =>
      rw [defineAll, List.foldl_cons, ← defineAll, ih, labels_define]
      split
      · rename_i listed
        rw [List.find?_append, List.find?_append, List.map_cons, List.find?_cons]
        cases found : (listing.map Prod.fst).find? p with
        | some label => rfl
        | none =>
            have other : p pair.1 = false := by
              simpa using List.find?_eq_none.mp found pair.1 listed
            rw [other]
      · rw [List.append_assoc, List.map_cons, List.singleton_append]

theorem mem_of_root? {listing : Listing} {label : Label} {title : Text} {entries : List Choice}
    (found : listing.root? = some (label, title, entries)) :
    (label, .menu title entries none) ∈ listing := by
  induction listing with
  | nil => cases found
  | cons entry rest ih =>
      unfold root? at found
      split at found
      · cases found
      · rename_i same
        cases same
        cases found
        exact .head _
      · rename_i same
        cases same
        exact .tail _ (ih found)

theorem root?_find {blocks : BlockMap} {listing : Listing}
    (listed : ∀ pair ∈ listing, blocks pair.1 = some pair.2) :
    listing.root?.map Prod.fst =
      (listing.map Prod.fst).find? fun label => BlockMap.isTop (blocks label) := by
  induction listing with
  | nil => rfl
  | cons entry rest ih =>
      have own := listed entry (.head _)
      unfold root?
      split
      · rename_i same
        cases same
      · rename_i same
        cases same
        rw [List.map_cons, List.find?_cons_of_pos (by rw [own]; rfl)]
        rfl
      · rename_i other same
        cases same
        rw [ih fun pair member => listed pair (.tail _ member), List.map_cons,
          List.find?_cons_of_neg]
        rw [own]
        intro top
        obtain ⟨title, entries, menu⟩ := BlockMap.isTop_iff.mp top
        exact other entry.1 title entries (Prod.ext rfl (Option.some.inj menu))

theorem ofText_result (text : Text) :
    (ofText text).result = .ok (defineAll [] (labelled text)) :=
  addBlocks_defineAll [] _

theorem nodup_labels (pairs : List (Label × Block)) : ((defineAll [] pairs).map Prod.fst).Nodup :=
  nodup_labels_defineAll pairs List.nodup_nil

theorem blocks_defineAll (pairs : List (Label × Block)) :
    (defineAll [] pairs).blocks = BlockMap.last pairs := by
  funext label
  rw [blocks, lookup_defineAll]
  exact Option.or_none

theorem root?_defineAll (pairs : List (Label × Block)) :
    (defineAll [] pairs).root?.map Prod.fst = BlockMap.root? pairs := by
  have listed : ∀ pair ∈ defineAll [] pairs, BlockMap.last pairs pair.1 = some pair.2 := by
    intro pair member
    rw [← blocks_defineAll]
    exact Program.lookup_of_mem (nodup_labels pairs) member
  rw [root?_find listed, find?_labels_defineAll]
  rfl

end Listing

end CalcApp
