import CalcApp.Event

namespace CalcApp

namespace Outcome

variable {ε α β : Type} {first : Except ε α}

theorem map_eq_ok {f : α → β} {result : β} (mapped : first.map f = .ok result) :
    ∃ value, first = .ok value ∧ f value = result := by
  cases first with
  | error cause => cases mapped
  | ok value => exact ⟨value, rfl, Except.ok.inj mapped⟩

theorem map_eq_error {f : α → β} {cause : ε} (mapped : first.map f = .error cause) :
    first = .error cause := by
  cases first with
  | error earlier => exact congrArg Except.error (Except.error.inj mapped)
  | ok value => cases mapped

theorem bind_eq_ok {next : α → Except ε β} {result : β} (bound : first.bind next = .ok result) :
    ∃ value, first = .ok value ∧ next value = .ok result := by
  cases first with
  | error cause => cases bound
  | ok value => exact ⟨value, rfl, bound⟩

theorem bind_eq_error {next : α → Except ε β} {cause : ε} (bound : first.bind next = .error cause) :
    first = .error cause ∨ ∃ value, first = .ok value ∧ next value = .error cause := by
  cases first with
  | error earlier => exact .inl (congrArg Except.error (Except.error.inj bound))
  | ok value => exact .inr ⟨value, rfl, bound⟩

end Outcome

namespace Traced

variable {ε α β : Type}

@[simp] theorem result_pure (value : α) : (pure value : Traced ε α).result = .ok value := rfl

@[simp] theorem result_report (event : Event) : (report event : Traced ε Unit).result = .ok () := rfl

theorem result_bind (first : Traced ε α) (next : α → Traced ε β) :
    (first >>= next).result = first.result.bind fun value => (next value).result := by
  show (andThen first next).result = _
  unfold andThen
  cases first.result <;> rfl

theorem result_bind_ok {first : Traced ε α} {next : α → Traced ε β} {value : α}
    (success : first.result = .ok value) : (first >>= next).result = (next value).result := by
  rw [result_bind, success]
  rfl

@[simp] theorem log_pure (value : α) : (pure value : Traced ε α).log = [] := rfl

@[simp] theorem log_report (event : Event) : (report event : Traced ε Unit).log = [event] := rfl

theorem log_bind_ok {first : Traced ε α} {next : α → Traced ε β} {value : α}
    (success : first.result = .ok value) :
    (first >>= next).log = first.log ++ (next value).log := by
  show (andThen first next).log = _
  rw [andThen, success]

theorem bind_ok {log : List Event} {value : α} (next : α → Traced ε β) :
    ((⟨log, .ok value⟩ : Traced ε α) >>= next) =
      ⟨log ++ (next value).log, (next value).result⟩ := rfl

theorem bind_pure_ok {log : List Event} {value : α} (f : α → β) :
    ((⟨log, .ok value⟩ : Traced ε α) >>= fun value => pure (f value)) = ⟨log, .ok (f value)⟩ := by
  rw [bind_ok, log_pure, List.append_nil]
  rfl

theorem mem_log_bind {first : Traced ε α} {next : α → Traced ε β} {event : Event}
    (member : event ∈ (first >>= next).log) :
    event ∈ first.log ∨ ∃ value, first.result = .ok value ∧ event ∈ (next value).log := by
  cases outcome : first.result with
  | ok value =>
      rw [log_bind_ok outcome, List.mem_append] at member
      rcases member with before | later
      · exact .inl before
      · exact .inr ⟨value, rfl, later⟩
  | error cause =>
      have same : (first >>= next).log = first.log := by
        show (andThen first next).log = _
        rw [andThen, outcome]
      rw [same] at member
      exact .inl member

@[simp] theorem result_reportFailure (event : ε → Event) (computation : Traced ε α) :
    (computation.reportFailure event).result = computation.result := by
  unfold reportFailure
  split <;> simp_all

end Traced

end CalcApp
