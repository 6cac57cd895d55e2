import CalcApp.Proofs.Dictionary
import CalcApp.Proofs.Runs

namespace CalcApp

namespace Text

theorem mem_insertSorted {text other : Text} {set : List Text} :
    other ∈ insertSorted text set ↔ other = text ∨ other ∈ set := by
  fun_induction insertSorted text set with
  | case1 => simp
  | case2 first rest before => simp
  | case3 rest _ => simp
  | case4 first rest _ _ ih =>
      rw [List.mem_cons, List.mem_cons, ih]
      exact or_left_comm

theorem mem_sortedSet {text : Text} {texts : List Text} :
    text ∈ sortedSet texts ↔ text ∈ texts := by
  induction texts with
  | nil => rfl
  | cons first rest ih =>
      rw [sortedSet, List.foldr_cons, ← sortedSet, mem_insertSorted, ih, List.mem_cons]

theorem ascending_insertSorted {text : Text} {set : List Text} (ascending : set.Pairwise (· < ·)) :
    (insertSorted text set).Pairwise (· < ·) := by
  fun_induction insertSorted text set with
  | case1 => exact List.pairwise_singleton _ _
  | case2 first rest before =>
      refine List.pairwise_cons.mpr ⟨?_, ascending⟩
      intro other member
      rcases List.mem_cons.mp member with rfl | later
      · exact before
      · exact List.lt_trans before ((List.pairwise_cons.mp ascending).1 other later)
  | case3 rest _ => exact ascending
  | case4 first rest notBefore differs ih =>
      obtain ⟨above, later⟩ := List.pairwise_cons.mp ascending
      refine List.pairwise_cons.mpr ⟨?_, ih later⟩
      intro other member
      rcases mem_insertSorted.mp member with rfl | old
      · by_contra notAfter
        exact differs (List.le_antisymm (List.not_lt.mp notAfter) (List.not_lt.mp notBefore))
      · exact above other old

theorem ascending_sortedSet (texts : List Text) : (sortedSet texts).Pairwise (· < ·) := by
  induction texts with
  | nil => exact List.Pairwise.nil
  | cons first rest ih => exact ascending_insertSorted ih

end Text

namespace Dictionary

/-- What is found invalid is a run that is not accepted as a whole, or a forbidden character. -/
theorem mem_findInvalid_iff {dictionary : Dictionary} {forbid : Bool} {text found : Text} :
    found ∈ dictionary.findInvalid forbid text ↔ dictionary.tokens ≠ [] ∧
      (MaximalRun isSymbol text found ∧ dictionary.accepts found = false ∨
        forbid = true ∧ found ∈ forbidden text) := by
  by_cases loaded : dictionary.tokens = []
  · simp [findInvalid, loaded]
  · cases forbid <;> simp [findInvalid, loaded, Text.mem_sortedSet, mem_runs_iff]

theorem mem_findInvalid {dictionary : Dictionary} (loaded : dictionary.tokens ≠ [])
    {text run : Text} :
    run ∈ dictionary.findInvalid false text ↔
      MaximalRun isSymbol text run ∧ dictionary.accepts run = false := by
  simp [mem_findInvalid_iff, loaded]

theorem ascending_findInvalid (dictionary : Dictionary) (forbid : Bool) (text : Text) :
    (dictionary.findInvalid forbid text).Pairwise (· < ·) := by
  unfold findInvalid
  split
  · exact List.Pairwise.nil
  · exact Text.ascending_sortedSet _

def PrefixFree (dictionary : Dictionary) : Prop :=
  ∀ token ∈ dictionary.tokens, ∀ other ∈ dictionary.tokens, token <+: other → token = other

theorem PrefixFree.takes {tokens : List Text} (free : (ofTokens tokens).PrefixFree)
    {token : Text} (listed : token ∈ (ofTokens tokens).tokens) (rest : Text) :
    Takes tokens (token ++ rest) rest := by
  obtain ⟨member, filled⟩ := mem_ofTokens.mp listed
  have start : token <+: token ++ rest := List.prefix_append token rest
  refine ⟨token, ⟨member, filled, start, ?_⟩, rfl⟩
  intro other known filled' begins
  have held : other ∈ (ofTokens tokens).tokens := mem_ofTokens.mpr ⟨known, filled'⟩
  rcases List.prefix_or_prefix_of_prefix begins start with shorter | longer
  · exact shorter.length_le
  · rw [free token listed other held longer]

theorem PrefixFree.accepts_written {tokens : List Text} (free : (ofTokens tokens).PrefixFree)
    {candidate : Text} :
    (ofTokens tokens).accepts candidate = true ↔ Written (ofTokens tokens).tokens candidate := by
  constructor
  · exact written_of_accepts
  · rintro ⟨parts, members, rfl⟩
    rw [accepts_iff]
    induction parts with
    | nil => exact .refl
    | cons first rest ih =>
        have later := ih fun part member => members part (List.mem_cons_of_mem _ member)
        exact .head (free.takes (members first (List.mem_cons_self ..)) rest.flatten) later

/-- A dictionary in which no token begins with another one accepts all concatenations of its tokens
and nothing else. What it finds invalid in a text is the ascending set of the maximal symbol runs
that are no such concatenation. -/
theorem accepts_iff_written (tokens : List Text) (loaded : (ofTokens tokens).tokens ≠ [])
    (free : (ofTokens tokens).PrefixFree) :
    (∀ candidate, (ofTokens tokens).accepts candidate = true ↔
        Written (ofTokens tokens).tokens candidate) ∧
      ∀ text, ((ofTokens tokens).findInvalid false text).Pairwise (· < ·) ∧
        ∀ run, run ∈ (ofTokens tokens).findInvalid false text ↔
          MaximalRun isSymbol text run ∧ ¬ Written (ofTokens tokens).tokens run := by
  refine ⟨fun _ => free.accepts_written, fun text => ⟨ascending_findInvalid _ _ _, ?_⟩⟩
  intro run
  rw [mem_findInvalid loaded, ← free.accepts_written, Bool.not_eq_true]

def arrowTokens : List Text := ["->".toList, ">>".toList, "".toList, "→".toList, "<-".toList]

theorem accepts_iff_written_arrowTokens :
    (ofTokens arrowTokens).tokens ≠ [] ∧ (ofTokens arrowTokens).PrefixFree ∧
      (ofTokens arrowTokens).accepts "->>>→".toList = true ∧
      "->+".toList ∈ (ofTokens arrowTokens).findInvalid false "a ->+b ->>>→".toList ∧
      "->>>→".toList ∉ (ofTokens arrowTokens).findInvalid false "a ->+b ->>>→".toList := by
  have loaded : (ofTokens arrowTokens).tokens ≠ [] :=
    List.ne_nil_of_mem (a := "->".toList) (mem_ofTokens.mpr ⟨by decide, by decide⟩)
  have free : (ofTokens arrowTokens).PrefixFree := by
    have apart : ∀ token ∈ arrowTokens, ∀ other ∈ arrowTokens, token ≠ [] → token <+: other →
        token = other := by decide
    intro token listed other held begins
    exact apart token (mem_ofTokens.mp listed).1 other (mem_ofTokens.mp held).1
      (mem_ofTokens.mp listed).2 begins
  obtain ⟨accepted, invalid⟩ := accepts_iff_written arrowTokens loaded free
  have spelled : Written (ofTokens arrowTokens).tokens "->>>→".toList := by
    refine ⟨["->".toList, ">>".toList, "→".toList], ?_, rfl⟩
    intro part member
    have known : ∀ part ∈ ["->".toList, ">>".toList, "→".toList],
        part ∈ arrowTokens ∧ part ≠ [] := by decide
    exact mem_ofTokens.mpr (known part member)
  have missing : ¬ Written (ofTokens arrowTokens).tokens "->+".toList := by
    rintro ⟨parts, members, whole⟩
    have plus : '+' ∈ parts.flatten := by rw [whole]; decide
    obtain ⟨part, listed, inside⟩ := List.mem_flatten.mp plus
    have absent : ∀ token ∈ arrowTokens, '+' ∉ token := by decide
    exact absent part (mem_ofTokens.mp (members part listed)).1 inside
  have run : MaximalRun isSymbol "a ->+b ->>>→".toList "->+".toList :=
    ⟨by decide, List.all_eq_true.mp (by decide), "a ".toList, "b ->>>→".toList, rfl,
      fun _ last => by cases last; rfl, fun _ first => by cases first; rfl⟩
  exact ⟨loaded, free, (accepted _).mpr spelled, ((invalid _).2 _).mpr ⟨run, missing⟩,
    fun found => (((invalid _).2 _).mp found).2 spelled⟩

end Dictionary

end CalcApp
