import CalcApp.Outline.Parse
import CalcApp.Proofs.Event

namespace CalcApp.Listing

@[simp] theorem result_reportReturn (menu target : Label) (block : Block) :
    (reportReturn menu target block).result = .ok () := by
  unfold reportReturn
  split
  · split <;> rfl
  · rfl

variable {listing : Listing} {above : List Label} {menu target : Label} {progress : Progress}
  {name : Text} {rest : List Choice}

theorem result_unfold_nil :
    (unfold listing above menu progress []).result = .ok ([], progress) := by
  rw [unfold]
  rfl

theorem result_unfold_unknown (missing : listing.lookup target = none) :
    (unfold listing above menu progress (⟨name, target⟩ :: rest)).result =
      .error (.unresolvedLabel target) := by
  rw [unfold]
  split
  case h_1 => rfl
  all_goals
    rename_i read
    cases missing.symm.trans read

theorem result_unfold_quit (found : listing.lookup target = some .quit) :
    (unfold listing above menu progress (⟨name, target⟩ :: rest)).result =
      (unfold listing above menu progress rest).result := by
  rw [unfold]
  split
  case h_2 => rfl
  all_goals
    rename_i read
    cases found.symm.trans read

theorem result_unfold_note {content : Text} {parent : Option Label}
    (found : listing.lookup target = some (.note content parent)) :
    (unfold listing above menu progress (⟨name, target⟩ :: rest)).result =
      (unfold listing above menu ⟨progress.next + 1, progress.built⟩ rest).result.map fun later =>
        (.note (Outline.itemId progress.next) name content :: later.1, later.2) := by
  rw [unfold]
  split
  case h_3 read =>
      cases found.symm.trans read
      rw [Traced.result_bind_ok (result_reportReturn _ _ _), Traced.result_bind]
      rfl
  all_goals
    rename_i read
    cases found.symm.trans read

theorem result_unfold_code {content : Text} {parent : Option Label}
    (found : listing.lookup target = some (.code content parent)) :
    (unfold listing above menu progress (⟨name, target⟩ :: rest)).result =
      (unfold listing above menu ⟨progress.next + 1, progress.built⟩ rest).result.map fun later =>
        (.code (Outline.itemId progress.next) name content :: later.1, later.2) := by
  rw [unfold]
  split
  case h_4 read =>
      cases found.symm.trans read
      rw [Traced.result_bind_ok (result_reportReturn _ _ _), Traced.result_bind]
      rfl
  all_goals
    rename_i read
    cases found.symm.trans read

theorem result_unfold_menu {title : Text} {entries : List Choice} {parent : Option Label}
    (found : listing.lookup target = some (.menu title entries parent)) :
    (unfold listing above menu progress (⟨name, target⟩ :: rest)).result =
      if target ∈ menu :: above then .error (.cyclicMenu target)
      else if target ∈ progress.built then .error (.sharedMenu target)
      else
        (unfold listing (menu :: above) target ⟨progress.next + 1, target :: progress.built⟩
          entries).result.bind fun inner =>
            (unfold listing above menu inner.2 rest).result.map fun later =>
              (.menu (Outline.itemId progress.next) title inner.1 :: later.1, later.2) := by
  rw [unfold]
  split
  case h_5 read =>
      cases found.symm.trans read
      rw [Traced.result_bind_ok (result_reportReturn _ _ _)]
      by_cases path : target ∈ menu :: above
      · rw [dif_neg (not_not_intro path), if_pos path]
        rfl
      · rw [dif_pos path, if_neg path]
        by_cases known : target ∈ progress.built
        · rw [if_pos known, if_pos known]
          rfl
        · rw [if_neg known, if_neg known, Traced.result_bind]
          congr 1
          funext inner
          rw [Traced.result_bind]
          rfl
  all_goals
    rename_i read
    cases found.symm.trans read

end CalcApp.Listing
