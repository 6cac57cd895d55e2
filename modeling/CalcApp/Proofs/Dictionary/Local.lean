import CalcApp.Proofs.Dictionary.Invalid

namespace CalcApp

namespace Text

theorem nodup_of_ascending {set : List Text} (ascending : set.Pairwise (· < ·)) : set.Nodup := by
  apply ascending.imp
  intro text other less same
  rw [same] at less
  exact List.lt_irrefl other less

theorem eq_of_ascending {set others : List Text} (ascending : set.Pairwise (· < ·))
    (ascending' : others.Pairwise (· < ·)) (same : ∀ text, text ∈ set ↔ text ∈ others) :
    set = others := by
  have perm : set.Perm others := (List.perm_ext_iff_of_nodup (nodup_of_ascending ascending)
    (nodup_of_ascending ascending')).mpr same
  apply perm.eq_of_pairwise _ ascending ascending'
  intro text other _ _ less greater
  exact absurd greater (List.lt_asymm less)

end Text

namespace Dictionary

theorem isSymbol_eq_false_iff {c : Char} :
    isSymbol c = false ↔ Text.isBlank c = true ∨ c.isAlphanum = true ∨ c = '_' := by
  simp only [isSymbol, Bool.not_eq_false', Bool.or_eq_true, decide_eq_true_eq]
  tauto

theorem mem_forbidden {text found : Text} :
    found ∈ forbidden text ↔ ∃ c ∈ text, (c = '"' ∨ c = '\\') ∧ found = [c] := by
  simp only [forbidden, List.mem_map, List.mem_filter, Bool.or_eq_true, decide_eq_true_eq,
    and_assoc, @eq_comm _ found]

theorem forbidden_append {c : Char} (other : isSymbol c = false) (front back : Text) :
    forbidden (front ++ c :: back) = forbidden front ++ forbidden back := by
  have plain : (decide (c = '"') || decide (c = '\\')) = false := by
    by_contra quoted
    simp only [Bool.not_eq_false, Bool.or_eq_true, decide_eq_true_eq] at quoted
    rcases quoted with rfl | rfl <;> cases other
  rw [forbidden, List.filter_append, List.filter_cons_of_neg (by simp [plain]), List.map_append]
  rfl

theorem mem_findInvalid_append {dictionary : Dictionary} {forbid : Bool} {front back found : Text}
    {c : Char} (other : isSymbol c = false) :
    found ∈ dictionary.findInvalid forbid (front ++ c :: back) ↔
      found ∈ dictionary.findInvalid forbid front ∨ found ∈ dictionary.findInvalid forbid back := by
  rw [mem_findInvalid_iff, mem_findInvalid_iff, mem_findInvalid_iff, maximalRun_append other,
    forbidden_append other, List.mem_append]
  tauto

/-- What is invalid in a text is what is invalid before and what is invalid behind any blank or word
character of it. Each text found is a symbol run that is not accepted as a whole, or a quote or
backslash where these are forbidden; the symbol runs and the stretches between them make up the
text. -/
theorem findInvalid_local (dictionary : Dictionary) (forbid : Bool) :
    (∀ (front back : Text) (c : Char),
      Text.isBlank c = true ∨ c.isAlphanum = true ∨ c = '_' →
        dictionary.findInvalid forbid (front ++ c :: back) =
            Text.sortedSet (dictionary.findInvalid forbid front ++
              dictionary.findInvalid forbid back) ∧
          ∀ found, found ∈ dictionary.findInvalid forbid (front ++ c :: back) ↔
            found ∈ dictionary.findInvalid forbid front ∨
              found ∈ dictionary.findInvalid forbid back) ∧
      (∀ text found, found ∈ dictionary.findInvalid forbid text ↔ dictionary.tokens ≠ [] ∧
        (MaximalRun isSymbol text found ∧ dictionary.accepts found = false ∨
          forbid = true ∧ ∃ c ∈ text, (c = '"' ∨ c = '\\') ∧ found = [c])) ∧
      ∀ text : Text, ∃ cut : Chain Text Text,
        cut.flatten = text ∧ cut.gaps = runs isSymbol text ∧ Alternates isSymbol cut := by
  refine ⟨?_, ?_, ?_⟩
  · intro front back c separates
    have other : isSymbol c = false := isSymbol_eq_false_iff.mpr separates
    have union : ∀ found, found ∈ dictionary.findInvalid forbid (front ++ c :: back) ↔
        found ∈ dictionary.findInvalid forbid front ∨
          found ∈ dictionary.findInvalid forbid back := fun _ => mem_findInvalid_append other
    refine ⟨?_, union⟩
    apply Text.eq_of_ascending (ascending_findInvalid ..) (Text.ascending_sortedSet _)
    intro found
    rw [union, Text.mem_sortedSet, List.mem_append]
  · intro text found
    rw [mem_findInvalid_iff, mem_forbidden]
  · intro text
    obtain ⟨cut, alternates, whole⟩ := exists_alternates isSymbol text
    refine ⟨cut, whole, ?_, alternates⟩
    rw [← whole, alternates.runs_eq]

theorem findInvalid_local_hardSpace :
    Text.isBlank '\u00a0' = true ∧
      (ofTokens ["->".toList]).findInvalid true "x~>\u00a0->\"y".toList =
        ["\"".toList, "->\"".toList, "~>".toList] ∧
      MaximalRun isSymbol "x~>\u00a0->\"y".toList "->\"".toList := by
  have blank : Text.isBlank '\u00a0' = true := by decide
  have before : (ofTokens ["->".toList]).findInvalid true "x~>".toList = ["~>".toList] := by
    decide +kernel
  have behind : (ofTokens ["->".toList]).findInvalid true "->\"y".toList =
      ["\"".toList, "->\"".toList] := by decide +kernel
  obtain ⟨union, found, _⟩ := findInvalid_local (ofTokens ["->".toList]) true
  have whole : (ofTokens ["->".toList]).findInvalid true "x~>\u00a0->\"y".toList =
      ["\"".toList, "->\"".toList, "~>".toList] := by
    have sides := (union "x~>".toList "->\"y".toList '\u00a0' (.inl blank)).1
    rw [before, behind] at sides
    exact sides
  refine ⟨blank, whole, ?_⟩
  have reported : "->\"".toList ∈ (ofTokens ["->".toList]).findInvalid true
      "x~>\u00a0->\"y".toList := by
    rw [whole]
    decide
  rcases ((found _ _).mp reported).2 with run | ⟨_, c, _, _, single⟩
  · exact run.1
  · cases single

end Dictionary

end CalcApp
