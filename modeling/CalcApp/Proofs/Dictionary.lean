import CalcApp.Dictionary
import CalcApp.Proofs.Text
import Mathlib.Logic.Relation
import Mathlib.Order.WellFounded

/-! What a dictionary accepts. The tokens are sorted by their bytes, but among the beginnings of one
text this is the order by characters, so that the first one found is the longest. Acceptance is
therefore a matter of the set of tokens alone. -/

namespace CalcApp

namespace Dictionary

/-- The text starts with the token, which is not empty, and with no longer one. -/
structure Longest (tokens : List Text) (text token : Text) : Prop where
  listed : token ∈ tokens
  filled : token ≠ []
  start : token <+: text
  longest : ∀ other ∈ tokens, other ≠ [] → other <+: text → other.length ≤ token.length

def Takes (tokens : List Text) (text rest : Text) : Prop :=
  ∃ token, Longest tokens text token ∧ text = token ++ rest

def Written (tokens : List Text) (text : Text) : Prop :=
  ∃ parts : List Text, (∀ part ∈ parts, part ∈ tokens) ∧ parts.flatten = text

theorem Longest.unique {tokens : List Text} {text token other : Text}
    (longest : Longest tokens text token) (again : Longest tokens text other) : token = other := by
  have within : token <+: other := List.prefix_of_prefix_length_le longest.start again.start
    (again.longest token longest.listed longest.filled longest.start)
  apply within.eq_of_length_le
  exact longest.longest other again.listed again.filled again.start

theorem Takes.unique {tokens : List Text} {text rest other : Text} (takes : Takes tokens text rest)
    (again : Takes tokens text other) : rest = other := by
  obtain ⟨token, longest, rfl⟩ := takes
  obtain ⟨second, longest', same⟩ := again
  cases longest.unique longest'
  exact List.append_cancel_left same

theorem Takes.shorter {tokens : List Text} {text rest : Text} (takes : Takes tokens text rest) :
    rest.length < text.length := by
  obtain ⟨token, longest, rfl⟩ := takes
  have positive := List.length_pos_iff.mpr longest.filled
  rw [List.length_append]
  omega

theorem takes_wellFounded (tokens : List Text) :
    WellFounded fun rest text => Takes tokens text rest :=
  Subrelation.wf Takes.shorter (measure List.length).wf

theorem precedes_iff {first second : Text} :
    precedes first second = true ↔ second.byteSize < first.byteSize ∨
      first.byteSize = second.byteSize ∧ ¬ second < first := by
  simp [precedes]

theorem precedes_trans (first second third : Text) (earlier : precedes first second = true)
    (later : precedes second third = true) : precedes first third = true := by
  rw [precedes_iff] at earlier later ⊢
  rcases earlier with more | ⟨same, low⟩
  · left
    omega
  · rcases later with more | ⟨same', high⟩
    · left
      omega
    · right
      have between := List.le_trans (List.not_lt.mp low) (List.not_lt.mp high)
      exact ⟨by omega, List.not_lt.mpr between⟩

theorem precedes_total (first second : Text) :
    (precedes first second || precedes second first) = true := by
  rw [Bool.or_eq_true, precedes_iff, precedes_iff]
  rcases Nat.lt_trichotomy first.byteSize second.byteSize with less | same | more
  · exact .inr (.inl less)
  · rcases List.le_total first second with low | high
    · exact .inl (.inr ⟨same, List.not_lt.mpr low⟩)
    · exact .inr (.inr ⟨same.symm, List.not_lt.mpr high⟩)
  · exact .inl (.inl more)

theorem mem_ofTokens {tokens : List Text} {token : Text} :
    token ∈ (ofTokens tokens).tokens ↔ token ∈ tokens ∧ token ≠ [] := by
  simp [ofTokens, List.mem_mergeSort]

/-- The first token found in the order of bytes is the longest one. -/
theorem longest_of_find? {tokens : List Text} {text token : Text}
    (found : ((ofTokens tokens).tokens.find? fun token => token.isPrefixOf text) = some token) :
    Longest tokens text token := by
  obtain ⟨matched, front, back, split, missed⟩ := List.find?_eq_some_iff_append.mp found
  have listed := mem_ofTokens.mp (List.mem_of_find?_eq_some found)
  have start := List.isPrefixOf_iff_prefix.mp matched
  refine ⟨listed.1, listed.2, start, ?_⟩
  intro other member filled begins
  have known : other ∈ front ++ token :: back := split ▸ mem_ofTokens.mpr ⟨member, filled⟩
  have sorted : (front ++ token :: back).Pairwise fun first second =>
      precedes first second = true :=
    split ▸ List.pairwise_mergeSort precedes_trans precedes_total _
  rcases List.mem_append.mp known with early | late
  · have absent := missed other early
    simp [List.isPrefixOf_iff_prefix.mpr begins] at absent
  · rcases List.mem_cons.mp late with rfl | later
    · exact Nat.le_refl _
    · have behind := (List.pairwise_cons.mp (List.pairwise_append.mp sorted).2.1).1 other later
      rw [precedes_iff] at behind
      exact Text.length_le_of_byteSize_le begins start (by omega)

theorem find?_eq_some_iff {tokens : List Text} {text token : Text} :
    ((ofTokens tokens).tokens.find? fun token => token.isPrefixOf text) = some token ↔
      Longest tokens text token := by
  constructor
  · exact longest_of_find?
  · intro longest
    have known := mem_ofTokens.mpr ⟨longest.listed, longest.filled⟩
    have some : ((ofTokens tokens).tokens.find? fun token => token.isPrefixOf text).isSome :=
      List.find?_isSome.mpr ⟨token, known, List.isPrefixOf_iff_prefix.mpr longest.start⟩
    obtain ⟨first, found⟩ := Option.isSome_iff_exists.mp some
    rw [found, (longest_of_find? found).unique longest]

theorem spells_of_takes {tokens : List Text} {text rest : Text} (takes : Takes tokens text rest) :
    (ofTokens tokens).spells text = (ofTokens tokens).spells rest := by
  obtain ⟨token, longest, rfl⟩ := takes
  obtain ⟨c, more, rfl⟩ := List.exists_cons_of_ne_nil longest.filled
  have found := find?_eq_some_iff.mpr longest
  rw [List.cons_append] at found ⊢
  rw [spells, found]
  simp

theorem not_spells_of_stuck {tokens : List Text} {text : Text} (more : text ≠ [])
    (stuck : ∀ rest, ¬ Takes tokens text rest) : (ofTokens tokens).spells text = false := by
  obtain ⟨c, following, rfl⟩ := List.exists_cons_of_ne_nil more
  have missing : ((ofTokens tokens).tokens.find? fun token =>
      token.isPrefixOf (c :: following)) = none := by
    rw [Option.eq_none_iff_forall_ne_some]
    intro token found
    have longest := find?_eq_some_iff.mp found
    obtain ⟨rest, whole⟩ := longest.start
    exact stuck rest ⟨token, longest, whole.symm⟩
  rw [spells, missing]

theorem spells_iff {tokens : List Text} {text : Text} :
    (ofTokens tokens).spells text = true ↔ Relation.ReflTransGen (Takes tokens) text [] := by
  induction text using (takes_wellFounded tokens).induction with
  | _ text ih =>
    by_cases step : ∃ rest, Takes tokens text rest
    · obtain ⟨rest, takes⟩ := step
      rw [spells_of_takes takes, ih rest takes]
      constructor
      · exact .head takes
      · intro run
        rcases Relation.ReflTransGen.cases_head run with rfl | ⟨next, first, later⟩
        · exact absurd takes.shorter (Nat.not_lt_zero _)
        · exact takes.unique first ▸ later
    · have stuck : ∀ rest, ¬ Takes tokens text rest := fun rest takes => step ⟨rest, takes⟩
      by_cases empty : text = []
      · subst empty
        simp [spells, Relation.ReflTransGen.refl]
      · rw [not_spells_of_stuck empty stuck]
        constructor
        · intro spelled
          cases spelled
        · intro run
          rcases Relation.ReflTransGen.cases_head run with same | ⟨next, first, _⟩
          · exact absurd same empty
          · exact absurd first (stuck next)

theorem takes_of_mem {tokens : List Text} {token : Text} (listed : token ∈ tokens)
    (filled : token ≠ []) : Takes tokens token [] :=
  ⟨token, ⟨listed, filled, List.prefix_refl token, fun _ _ _ begins => begins.length_le⟩,
    (List.append_nil token).symm⟩

theorem accepts_eq_spells (tokens : List Text) (candidate : Text) :
    (ofTokens tokens).accepts candidate = (ofTokens tokens).spells candidate := by
  cases exact : (ofTokens tokens).contains candidate with
  | false => rw [accepts, exact, Bool.false_or]
  | true =>
      obtain ⟨listed, filled⟩ := mem_ofTokens.mp (List.contains_iff_mem.mp exact)
      rw [accepts, exact, Bool.true_or, spells_of_takes (takes_of_mem listed filled), spells]

theorem accepts_iff {tokens : List Text} {candidate : Text} :
    (ofTokens tokens).accepts candidate = true ↔
      Relation.ReflTransGen (Takes tokens) candidate [] := by
  rw [accepts_eq_spells, spells_iff]

theorem Written.cons {tokens : List Text} {token text : Text} (listed : token ∈ tokens)
    (written : Written tokens text) : Written tokens (token ++ text) := by
  obtain ⟨parts, members, rfl⟩ := written
  refine ⟨token :: parts, ?_, rfl⟩
  intro part member
  rcases List.mem_cons.mp member with rfl | later
  · exact listed
  · exact members part later

theorem Written.mono {tokens others : List Text} {text : Text} (written : Written tokens text)
    (within : ∀ token ∈ tokens, token ∈ others) : Written others text := by
  obtain ⟨parts, members, whole⟩ := written
  exact ⟨parts, fun part member => within part (members part member), whole⟩

theorem written_of_accepts {tokens : List Text} {text : Text}
    (accepted : (ofTokens tokens).accepts text = true) : Written (ofTokens tokens).tokens text := by
  rw [accepts_iff] at accepted
  induction accepted using Relation.ReflTransGen.head_induction_on with
  | refl => exact ⟨[], by simp, rfl⟩
  | head step _ ih =>
      obtain ⟨token, longest, rfl⟩ := step
      exact ih.cons (mem_ofTokens.mpr ⟨longest.listed, longest.filled⟩)

section

variable {tokens others : List Text}
  (same : ∀ token, token ≠ [] → (token ∈ tokens ↔ token ∈ others))
include same

theorem Longest.congr {text token : Text} (longest : Longest tokens text token) :
    Longest others text token := by
  refine ⟨(same token longest.filled).mp longest.listed, longest.filled, longest.start, ?_⟩
  intro other member filled begins
  exact longest.longest other ((same other filled).mpr member) filled begins

theorem takes_congr : Takes tokens = Takes others := by
  have back : ∀ token, token ≠ [] → (token ∈ others ↔ token ∈ tokens) :=
    fun token filled => (same token filled).symm
  funext text rest
  apply propext
  constructor
  · rintro ⟨token, longest, whole⟩
    exact ⟨token, longest.congr same, whole⟩
  · rintro ⟨token, longest, whole⟩
    exact ⟨token, longest.congr back, whole⟩

theorem accepts_congr (candidate : Text) :
    (ofTokens tokens).accepts candidate = (ofTokens others).accepts candidate := by
  rw [Bool.eq_iff_iff, accepts_iff, accepts_iff, takes_congr same]

theorem isEmpty_congr :
    (ofTokens tokens).tokens.isEmpty = (ofTokens others).tokens.isEmpty := by
  have members : ∀ token, token ∈ (ofTokens tokens).tokens ↔ token ∈ (ofTokens others).tokens := by
    intro token
    rw [mem_ofTokens, mem_ofTokens]
    constructor
    · rintro ⟨listed, filled⟩
      exact ⟨(same token filled).mp listed, filled⟩
    · rintro ⟨listed, filled⟩
      exact ⟨(same token filled).mpr listed, filled⟩
  rw [Bool.eq_iff_iff, List.isEmpty_iff, List.isEmpty_iff, List.eq_nil_iff_forall_not_mem,
    List.eq_nil_iff_forall_not_mem]
  exact forall_congr' fun token => not_congr (members token)

theorem findInvalid_congr (forbid : Bool) (text : Text) :
    (ofTokens tokens).findInvalid forbid text = (ofTokens others).findInvalid forbid text := by
  simp only [findInvalid, isEmpty_congr same, accepts_congr same]

end

/-- A dictionary accepts what is used up when the longest token is taken off the front again and
again; this always ends, and in one way only. That a token is accepted at once makes no difference,
what is accepted is a concatenation of tokens, and dictionaries with the same tokens find the same
texts invalid. -/
theorem accepts_iff_used_up (tokens : List Text) :
    (∀ candidate, (ofTokens tokens).accepts candidate = true ↔
        Relation.ReflTransGen (Takes tokens) candidate []) ∧
      (WellFounded fun rest text => Takes tokens text rest) ∧
      (∀ text rest other, Takes tokens text rest → Takes tokens text other → rest = other) ∧
      (∀ candidate, (ofTokens tokens).accepts candidate = (ofTokens tokens).spells candidate) ∧
      (∀ candidate, (ofTokens tokens).accepts candidate = true → Written tokens candidate) ∧
      ∀ others, (∀ token, token ≠ [] → (token ∈ tokens ↔ token ∈ others)) → ∀ forbid text,
        (ofTokens tokens).findInvalid forbid text = (ofTokens others).findInvalid forbid text := by
  refine ⟨fun _ => accepts_iff, takes_wellFounded tokens, fun _ _ _ => Takes.unique,
    accepts_eq_spells tokens, ?_, ?_⟩
  · intro candidate accepted
    exact (written_of_accepts accepted).mono fun token listed => (mem_ofTokens.mp listed).1
  · intro others same forbid text
    exact findInvalid_congr same forbid text

def nestedTokens : List Text :=
  ["-".toList, "".toList, "->".toList, "→".toList, "→-".toList, ">>".toList]

theorem accepts_iff_used_up_nestedTokens :
    (ofTokens nestedTokens).accepts "→-->".toList = true ∧ Written nestedTokens "→-->".toList ∧
      Written nestedTokens "->>".toList ∧ (ofTokens nestedTokens).accepts "->>".toList = false ∧
      ∀ forbid text, (ofTokens nestedTokens).findInvalid forbid text =
        (ofTokens (nestedTokens.reverse ++ ["-".toList])).findInvalid forbid text := by
  obtain ⟨used, _, _, shortcut, written, same⟩ := accepts_iff_used_up nestedTokens
  have first : Takes nestedTokens "→-->".toList "->".toList :=
    ⟨"→-".toList, ⟨by decide, by decide, by decide, by decide⟩, rfl⟩
  have second : Takes nestedTokens "->".toList [] := takes_of_mem (by decide) (by decide)
  have accepted := (used _).mpr (.head first (.single second))
  -- `->` is taken off, although `-` and `>>` make up the text
  have greedy : Takes nestedTokens "->>".toList ">".toList :=
    ⟨"->".toList, ⟨by decide, by decide, by decide, by decide⟩, rfl⟩
  have stuck : ∀ rest, ¬ Takes nestedTokens ">".toList rest := by
    rintro rest ⟨token, longest, _⟩
    have none : ∀ token ∈ nestedTokens, token <+: ">".toList → token = [] := by decide
    exact longest.filled (none token longest.listed longest.start)
  have refused : (ofTokens nestedTokens).accepts "->>".toList = false := by
    rw [shortcut, spells_of_takes greedy, not_spells_of_stuck (by decide) stuck]
  refine ⟨accepted, written _ accepted, ⟨["-".toList, ">>".toList], by decide, rfl⟩, refused, ?_⟩
  apply same
  intro token _
  simp only [nestedTokens, List.mem_append, List.mem_reverse, List.mem_cons, List.not_mem_nil,
    or_false]
  tauto

end Dictionary

end CalcApp
