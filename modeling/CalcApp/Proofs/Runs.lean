import CalcApp.Proofs.Note.Stretch
import CalcApp.Proofs.Text

namespace CalcApp

/-- A part of the list whose elements all satisfy `p`, with an end of the list or an element that
does not on each side of it. -/
structure MaximalRun {α : Type} (p : α → Bool) (elements run : List α) : Prop where
  filled : run ≠ []
  all : ∀ x ∈ run, p x = true
  bounded : ∃ before after, elements = before ++ run ++ after ∧
    (∀ x, before.getLast? = some x → p x = false) ∧ ∀ x, after.head? = some x → p x = false

def Chain.flatten {α : Type} : Chain (List α) (List α) → List α
  | one piece => piece
  | cons piece gap rest => piece ++ gap ++ rest.flatten

/-- A chain of stretches without elements that satisfy `p`, with the runs of such elements between
them. Only the first and the last stretch can be empty, so that no run can be made longer. -/
def Alternates {α : Type} (p : α → Bool) : Chain (List α) (List α) → Prop
  | .one stretch => ∀ x ∈ stretch, p x = false
  | .cons stretch run rest =>
    (∀ x ∈ stretch, p x = false) ∧ run ≠ [] ∧ (∀ x ∈ run, p x = true) ∧
      (∀ x, rest.flatten.head? = some x → p x = false) ∧ Alternates p rest

section

variable {α : Type} {p : α → Bool} {run : List α}

theorem maximalRun_of_all {elements : List α} (all : ∀ x ∈ elements, p x = true) :
    MaximalRun p elements run ↔ run = elements ∧ elements ≠ [] := by
  constructor
  · rintro ⟨filled, _, before, after, rfl, left, right⟩
    have first : before.getLast? = none := by
      rw [Option.eq_none_iff_forall_ne_some]
      intro x last
      have inside := all x (by simp [List.mem_of_getLast? last])
      rw [left x last] at inside
      cases inside
    have last : after.head? = none := by
      rw [Option.eq_none_iff_forall_ne_some]
      intro x start
      have inside := all x (by simp [List.mem_of_head? start])
      rw [right x start] at inside
      cases inside
    rw [List.getLast?_eq_none_iff.mp first, List.head?_eq_none_iff.mp last]
    simpa using filled
  · rintro ⟨rfl, filled⟩
    exact ⟨filled, all, [], [], by simp, by simp, by simp⟩

/-- No run goes across another element: the runs of a list are those on its two sides. -/
theorem maximalRun_append {front back : List α} {x : α} (other : p x = false) :
    MaximalRun p (front ++ x :: back) run ↔ MaximalRun p front run ∨ MaximalRun p back run := by
  constructor
  · rintro ⟨filled, all, before, after, whole, left, right⟩
    have outside : x ∉ run := by
      intro inside
      rw [all x inside] at other
      cases other
    rw [List.append_assoc] at whole
    rcases List.append_eq_append_iff.mp whole with ⟨skipped, rfl, tail⟩ | ⟨start, rfl, tail⟩
    · -- the run starts behind `front`
      cases skipped with
      | nil =>
          obtain ⟨first, rest, rfl⟩ := List.exists_cons_of_ne_nil filled
          rw [List.nil_append, List.cons_append, List.cons.injEq] at tail
          exact absurd (tail.1 ▸ List.mem_cons_self ..) outside
      | cons y skipped =>
          rw [List.cons_append, List.cons.injEq] at tail
          refine .inr ⟨filled, all, skipped, after, by simp [tail.2], ?_, right⟩
          intro y last
          apply left
          rw [List.getLast?_append, List.getLast?_cons, last]
          rfl
    · -- the run starts in `front`, and ends there since it does not hold `x`
      rcases List.append_eq_append_iff.mp tail with ⟨more, rfl, rest⟩ | ⟨more, rfl, rest⟩
      · refine .inl ⟨filled, all, before, more, by simp, left, ?_⟩
        intro y first
        apply right
        rw [rest, List.head?_append, first]
        rfl
      · cases more with
        | nil =>
            rw [List.append_nil] at filled all ⊢
            exact .inl ⟨filled, all, before, [], by simp, left, by simp⟩
        | cons y more =>
            rw [List.cons_append, List.cons.injEq] at rest
            exact absurd (by simp [rest.1]) outside
  · rintro (inFront | inBack)
    · obtain ⟨filled, all, before, after, rfl, left, right⟩ := inFront
      refine ⟨filled, all, before, after ++ x :: back, by simp, left, ?_⟩
      intro y first
      cases after with
      | nil =>
          cases first
          exact other
      | cons z rest => exact right y first
    · obtain ⟨filled, all, before, after, rfl, left, right⟩ := inBack
      refine ⟨filled, all, front ++ x :: before, after, by simp, ?_, right⟩
      intro y last
      rw [List.getLast?_append, List.getLast?_cons] at last
      cases final : before.getLast? with
      | none =>
          rw [final] at last
          cases last
          exact other
      | some z =>
          rw [final] at last
          cases last
          exact left _ final

theorem mem_runsAfter_iff {held rest : List α} (all : ∀ x ∈ held, p x = true) :
    run ∈ runsAfter p held rest ↔ MaximalRun p (held ++ rest) run := by
  induction rest generalizing held with
  | nil =>
      rw [runsAfter, List.append_nil, maximalRun_of_all all]
      by_cases empty : held = [] <;> simp [empty]
  | cons x rest ih =>
      rw [runsAfter]
      cases here : p x with
      | true =>
          have longer : ∀ y ∈ held ++ [x], p y = true := by
            intro y member
            rcases List.mem_append.mp member with old | new
            · exact all y old
            · cases List.mem_singleton.mp new
              exact here
          rw [if_pos rfl, ih longer, List.append_assoc, List.singleton_append]
      | false =>
          have later := @ih [] (by simp)
          rw [List.nil_append] at later
          rw [if_neg Bool.false_ne_true, List.mem_append, later, maximalRun_append here,
            maximalRun_of_all all]
          by_cases empty : held = [] <;> simp [empty]

theorem mem_runs_iff {elements : List α} : run ∈ runs p elements ↔ MaximalRun p elements run :=
  mem_runsAfter_iff (by simp)

theorem runs_map {β : Type} (p : β → Bool) (f : α → β) (elements : List α) :
    runs p (elements.map f) = (runs (fun x => p (f x)) elements).map (List.map f) := by
  have after : ∀ held, runsAfter p (held.map f) (elements.map f) =
      (runsAfter (fun x => p (f x)) held elements).map (List.map f) := by
    induction elements with
    | nil =>
        intro held
        cases held <;> rfl
    | cons x rest ih =>
        intro held
        rw [List.map_cons, runsAfter, runsAfter]
        split
        · rw [← ih, List.map_append, List.map_singleton]
        · have later := ih []
          rw [List.map_nil] at later
          rw [later, List.map_append]
          cases held <;> rfl
  exact after []

theorem runs_skip {stretch : List α} (none : ∀ x ∈ stretch, p x = false) (rest : List α) :
    runs p (stretch ++ rest) = runs p rest := by
  induction stretch with
  | nil => rfl
  | cons x others ih =>
      have here := none x (List.mem_cons_self ..)
      have later := ih fun y member => none y (List.mem_cons_of_mem x member)
      rw [← later]
      simp [runs, runsAfter, here]

theorem runs_ended {rest : List α} (filled : run ≠ []) (all : ∀ x ∈ run, p x = true)
    (ended : ∀ x, rest.head? = some x → p x = false) :
    runs p (run ++ rest) = run :: runs p rest := by
  cases rest with
  | nil =>
      rw [List.append_nil]
      exact runs_of_all filled all
  | cons x others =>
      have other : p x = false := ended x rfl
      have gone : runs p (x :: others) = runs p others := by simp [runs, runsAfter, other]
      rw [gone]
      exact runs_append filled all other others

theorem Alternates.runs_eq {chain : Chain (List α) (List α)} (alternates : Alternates p chain) :
    runs p chain.flatten = chain.gaps := by
  induction chain with
  | one stretch =>
      have skipped := runs_skip alternates []
      rw [List.append_nil] at skipped
      exact skipped
  | cons stretch run rest ih =>
      obtain ⟨outside, filled, all, ended, later⟩ := alternates
      calc
        runs p (stretch ++ run ++ rest.flatten) = runs p (run ++ rest.flatten) := by
          rw [List.append_assoc, runs_skip outside]
        _ = run :: runs p rest.flatten := runs_ended filled all ended
        _ = run :: rest.gaps := by rw [ih later]

theorem exists_alternates (p : α → Bool) (elements : List α) :
    ∃ chain, Alternates p chain ∧ chain.flatten = elements := by
  induction elements with
  | nil => exact ⟨.one [], by simp [Alternates], rfl⟩
  | cons x rest ih =>
      obtain ⟨chain, alternates, rfl⟩ := ih
      cases here : p x with
      | false =>
          refine ⟨chain.mapHead (x :: ·), ?_, ?_⟩
          · cases chain <;> simpa [Chain.mapHead, Alternates, here] using alternates
          · cases chain <;> rfl
      | true =>
          -- `x` starts a run, or is put in front of the run that the rest starts with
          have single : ∀ y ∈ [x], p y = true := by simpa using here
          cases chain with
          | one stretch =>
              refine ⟨.cons [] [x] (.one stretch), ⟨by simp, by simp, single, ?_, alternates⟩, rfl⟩
              intro y first
              exact alternates y (List.mem_of_head? first)
          | cons stretch run following =>
              cases stretch with
              | nil =>
                  obtain ⟨_, _, all, ended, later⟩ := alternates
                  refine ⟨.cons [] (x :: run) following, ⟨by simp, by simp, ?_, ended, later⟩, rfl⟩
                  simpa [here] using all
              | cons y others =>
                  refine ⟨.cons [] [x] (.cons (y :: others) run following),
                    ⟨by simp, by simp, single, ?_, alternates⟩, rfl⟩
                  intro z first
                  cases first
                  exact alternates.1 y (List.mem_cons_self ..)

end

end CalcApp
