import CalcApp.Error

namespace CalcApp

inductive Level where
  | warn
  | debug
  deriving DecidableEq

inductive Event where
  | entrySkipped (id title : Text) (cause : GenerateError)
  | compiled (pages labels : Nat)
  | generationFailed (cause : GenerateError)
  | unlabelledBlock (firstLine : Text)
  | labelRedefined (label : Label)
  | returnsElsewhere (target back menu : Label)
  | parseFailed (cause : ParseError)
  deriving DecidableEq

namespace Event

def level : Event → Level
  | compiled _ _ => .debug
  | unlabelledBlock _ => .debug
  | returnsElsewhere _ _ _ => .debug
  | entrySkipped _ _ _ => .warn
  | generationFailed _ => .warn
  | labelRedefined _ => .warn
  | parseFailed _ => .warn

def message : Event → Text
  | entrySkipped _ _ _ => "skipping menu entry".toList
  | compiled _ _ => "compiled app structure".toList
  | generationFailed _ => "code generation failed".toList
  | unlabelledBlock _ => "skipping unlabelled block".toList
  | labelRedefined _ => "label defined twice, keeping the last block".toList
  | returnsElsewhere _ _ _ => "page returns to a different menu".toList
  | parseFailed _ => "failed to parse program text".toList

inductive Field where
  | number (value : Nat)
  | text (value : Text)
  deriving DecidableEq

def fields : Event → List (Text × Field)
  | entrySkipped id title cause =>
    [("id".toList, .text id), ("title".toList, .text title), ("error".toList, .text cause.message)]
  | compiled pages labels => [("pages".toList, .number pages), ("labels".toList, .number labels)]
  | generationFailed cause => [("error".toList, .text cause.message)]
  | unlabelledBlock firstLine => [("first_line".toList, .text firstLine)]
  | labelRedefined label => [("label".toList, .text label.text)]
  | returnsElsewhere target back menu =>
    [("target".toList, .text target.text), ("back".toList, .text back.text),
      ("menu".toList, .text menu.text)]
  | parseFailed cause => [("error".toList, .text cause.message)]

end Event

structure Traced (ε α : Type) where
  log : List Event
  result : Except ε α

namespace Traced

variable {ε α β : Type}

def ok (value : α) : Traced ε α := ⟨[], .ok value⟩

def fail (cause : ε) : Traced ε α := ⟨[], .error cause⟩

def report (event : Event) : Traced ε Unit := ⟨[event], .ok ()⟩

/-- The events of a failed computation are kept, and nothing follows them. -/
def andThen (first : Traced ε α) (next : α → Traced ε β) : Traced ε β :=
  match first.result with
  | .ok value =>
    let rest := next value
    ⟨first.log ++ rest.log, rest.result⟩
  | .error cause => ⟨first.log, .error cause⟩

instance : Monad (Traced ε) where
  pure := ok
  bind := andThen

def reportFailure (event : ε → Event) (computation : Traced ε α) : Traced ε α :=
  match computation.result with
  | .ok _ => computation
  | .error cause => ⟨computation.log ++ [event cause], .error cause⟩

end Traced

end CalcApp
