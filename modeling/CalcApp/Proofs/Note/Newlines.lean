import CalcApp.Proofs.Note.Reread
import Mathlib.Data.List.Infix

namespace CalcApp

def Chain.toList {α : Type} : Chain α α → List α
  | one piece => [piece]
  | cons piece gap rest => piece :: gap :: rest.toList

namespace Note

/-- The runs of a chain are the runs of two or more newlines of its text: none of them can be made
longer, and none is left inside a stretch. -/
def CutAtRuns : Chain Text Nat → Prop
  | .one stretch => ¬ ['\n', '\n'] <:+: stretch
  | .cons stretch run rest =>
    ¬ ['\n', '\n'] <:+: stretch ∧ 2 ≤ run ∧ stretch.getLast? ≠ some '\n' ∧
      (weave rest).head? ≠ some '\n' ∧ CutAtRuns rest

theorem not_infix_cons {c : Char} {stretch : Text} (other : c ≠ '\n')
    (single : ¬ ['\n', '\n'] <:+: stretch) : ¬ ['\n', '\n'] <:+: c :: stretch := by
  rw [List.infix_cons_iff, not_or]
  refine ⟨?_, single⟩
  intro start
  exact other (List.cons_prefix_cons.mp start).1.symm

theorem not_infix_newline {c : Char} {stretch : Text} (other : c ≠ '\n')
    (single : ¬ ['\n', '\n'] <:+: c :: stretch) : ¬ ['\n', '\n'] <:+: '\n' :: c :: stretch := by
  rw [List.infix_cons_iff, not_or]
  refine ⟨?_, single⟩
  intro start
  exact other (List.cons_prefix_cons.mp (List.cons_prefix_cons.mp start).2).1.symm

theorem getLast?_cons_ne {c : Char} {stretch : Text} (other : c ≠ '\n')
    (last : stretch.getLast? ≠ some '\n') : (c :: stretch).getLast? ≠ some '\n' := by
  cases stretch with
  | nil => simpa using other
  | cons next rest => rwa [List.getLast?_cons_cons]

theorem CutAtRuns.mapHead {f : Text → Text} {chain : Chain Text Nat} (cut : CutAtRuns chain)
    (single : ∀ stretch, ¬ ['\n', '\n'] <:+: stretch → ¬ ['\n', '\n'] <:+: f stretch)
    (last : ∀ stretch, stretch.getLast? ≠ some '\n' → (f stretch).getLast? ≠ some '\n') :
    CutAtRuns (chain.mapHead f) := by
  cases chain with
  | one stretch => exact single stretch cut
  | cons stretch run rest =>
      obtain ⟨inside, long, before, behind⟩ := cut
      exact ⟨single stretch inside, long, last stretch before, behind⟩

theorem cutAtRuns_stretchesAfter (pending : Nat) (text : Text) :
    CutAtRuns (stretchesAfter pending text) := by
  induction text generalizing pending with
  | nil =>
      match pending with
      | 0 => simp [stretchesAfter, CutAtRuns]
      | 1 =>
          intro inside
          have short := inside.length_le
          simp at short
      | more + 2 => simp [stretchesAfter, CutAtRuns, weave]
  | cons c rest ih =>
      rw [stretchesAfter]
      split
      · exact ih (pending + 1)
      · rename_i other
        have single : ∀ stretch, ¬ ['\n', '\n'] <:+: stretch → ¬ ['\n', '\n'] <:+: c :: stretch :=
          fun stretch => not_infix_cons other
        have last : ∀ stretch : Text, stretch.getLast? ≠ some '\n' →
            (c :: stretch).getLast? ≠ some '\n' := fun stretch => getLast?_cons_ne other
        have following := (ih 0).mapHead single last
        dsimp only
        match pending with
        | 0 =>
            rw [if_neg (by omega), Chain.mapHead_mapHead]
            exact following
        | 1 =>
            rw [if_neg (by omega), Chain.mapHead_mapHead]
            apply (ih 0).mapHead
            · intro stretch inside
              exact not_infix_newline other (single stretch inside)
            · intro stretch before
              rw [List.replicate_one, List.singleton_append, List.getLast?_cons_cons]
              exact last stretch before
        | more + 2 =>
            rw [if_pos (by omega)]
            refine ⟨by simp, by omega, by simp, ?_, following⟩
            rw [weave_mapHead_cons]
            simpa using other

/-- A stretch stays whole, unless a newline at its end is followed by another. -/
theorem stretchesAfter_stretch {stretch text : Text} (single : ¬ ['\n', '\n'] <:+: stretch)
    (last : stretch.getLast? ≠ some '\n' ∨ text = []) :
    stretchesAfter 0 (stretch ++ text) = (stretchesAfter 0 text).mapHead (stretch ++ ·) := by
  induction stretch with
  | nil =>
      rw [List.nil_append]
      cases stretchesAfter 0 text <;> rfl
  | cons c rest ih =>
      have below : ¬ ['\n', '\n'] <:+: rest := fun inside =>
        single (inside.trans (List.suffix_cons c rest).isInfix)
      cases rest with
      | nil =>
          by_cases newline : c = '\n'
          · subst newline
            rcases last with other | rfl
            · exact absurd rfl other
            · rfl
          · exact stretchesAfter_line (by simpa using Ne.symm newline) text
      | cons next others =>
          rw [List.getLast?_cons_cons] at last
          have later := ih below last
          have step : stretchesAfter 0 (c :: (next :: others ++ text)) =
              (stretchesAfter 0 (next :: others ++ text)).mapHead (c :: ·) := by
            by_cases newline : c = '\n'
            · subst newline
              apply stretchesAfter_newline
              · intro start
                have same : next = '\n' := by simpa using start
                subst same
                exact single (List.prefix_append ['\n', '\n'] others).isInfix
              · simp
            · have plain : '\n' ∉ [c] := by simpa using Ne.symm newline
              exact stretchesAfter_line plain _
          rw [List.cons_append, step, later, Chain.mapHead_mapHead]
          rfl

theorem CutAtRuns.stretches_weave {chain : Chain Text Nat} (cut : CutAtRuns chain) :
    stretches (weave chain) = chain := by
  induction chain with
  | one stretch =>
      have whole := stretchesAfter_stretch cut (.inr rfl)
      rw [List.append_nil] at whole
      rw [weave, stretches, whole]
      exact congrArg Chain.one (List.append_nil stretch)
  | cons stretch run rest ih =>
      obtain ⟨single, long, before, behind, later⟩ := cut
      calc
        stretches (weave (.cons stretch run rest)) =
            (stretchesAfter 0 (List.replicate run '\n' ++ weave rest)).mapHead (stretch ++ ·) := by
          rw [weave, List.append_assoc, stretches, stretchesAfter_stretch single (.inl before)]
        _ = (Chain.cons [] run (stretches (weave rest))).mapHead (stretch ++ ·) := by
          rw [stretchesAfter_newlines, Nat.zero_add, stretchesAfter_run long behind, stretches]
        _ = .cons stretch run rest := by rw [ih later, Chain.mapHead, List.append_nil]

def longRuns (text : Text) : List Nat :=
  ((runs (· = '\n') text).map List.length).filter (2 ≤ ·)

theorem longRuns_ended (pending : Nat) (later : List Text) :
    (((if (List.replicate pending '\n').isEmpty then [] else [List.replicate pending '\n']) ++
        later).map List.length).filter (2 ≤ ·) =
      (if 2 ≤ pending then [pending] else []) ++ (later.map List.length).filter (2 ≤ ·) := by
  cases pending with
  | zero => rfl
  | succ more => by_cases long : 2 ≤ more + 1 <;> simp [long]

theorem gaps_stretchesAfter (pending : Nat) (text : Text) :
    (stretchesAfter pending text).gaps =
      ((runsAfter (· = '\n') (List.replicate pending '\n') text).map List.length).filter
        (2 ≤ ·) := by
  induction text generalizing pending with
  | nil =>
      have ended := longRuns_ended pending []
      rw [List.append_nil] at ended
      rw [stretchesAfter, runsAfter, ended]
      split <;> rfl
  | cons c rest ih =>
      rw [stretchesAfter, runsAfter]
      by_cases newline : c = '\n'
      · rw [if_pos newline, if_pos (decide_eq_true newline), ih, newline, List.replicate_succ']
      · have other : ¬ decide (c = '\n') = true := by simpa using newline
        have later := ih 0
        rw [if_neg newline, if_neg other, longRuns_ended, ← List.replicate_zero, ← later]
        dsimp only
        split
        · rw [Chain.gaps, Chain.gaps_mapHead]
          rfl
        · rw [Chain.gaps_mapHead, Chain.gaps_mapHead]
          rfl

theorem Sheets.items_eq (sheets : Sheets) :
    sheets.items =
      (sheets.map Item.lines fun clears => if clears then .hardBreak else .pause).toList := by
  induction sheets with
  | one lines => rfl
  | cons lines clears rest ih => rw [items, Chain.map, Chain.toList, ih]

/-- A note follows the runs of newlines. Its text, with newlines unified by the laws of
`Text.unifiesNewlines_iff`, is cut in one way at the maximal runs of two or more of them; the note
shows the lines of the stretches, with a pause for each run of two newlines and a hard break for
each longer run between them. -/
theorem paginate_follows_runs (text : Text) (width : Nat) :
    ∃ cut : Chain Text Nat,
      weave cut = Text.unifyNewlines text ∧ CutAtRuns cut ∧
      (∀ other, weave other = Text.unifyNewlines text → CutAtRuns other → other = cut) ∧
      cut.gaps = longRuns (Text.unifyNewlines text) ∧
      paginate text width =
        (cut.map
          (fun stretch => Item.lines ((Text.split '\n' stretch).flatMap fun line =>
            if Text.blank line then [[]] else wrap line width))
          (fun run => if run = 2 then Item.pause else .hardBreak)).toList := by
  refine ⟨stretches (Text.unifyNewlines text), weave_stretches _, cutAtRuns_stretchesAfter 0 _,
    ?_, gaps_stretchesAfter 0 _, ?_⟩
  · intro other whole cut
    rw [← whole, cut.stretches_weave]
  · have breaks : ∀ run ∈ (stretches (Text.unifyNewlines text)).gaps,
        (if decide (3 ≤ run) then Item.hardBreak else .pause) =
          if run = 2 then .pause else .hardBreak := by
      intro run member
      have long : 2 ≤ run := two_le_of_mem_gaps member
      by_cases two : run = 2
      · simp [two]
      · rw [if_neg two, if_pos (by simp; omega)]
    rw [paginate_eq, sheets, Sheets.items_eq, Chain.map_map]
    exact congrArg Chain.toList (Chain.map_congr (fun _ _ => rfl) breaks)

example : paginate "\n\na b\n\n\r\n\rc\r".toList 2 =
    [.lines [[]], .pause, .lines [['a'], ['b']], .hardBreak, .lines [['c'], []]] := by decide

end Note

end CalcApp
