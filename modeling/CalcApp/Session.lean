import CalcApp.Outline.Parse
import CalcApp.Program

namespace CalcApp

inductive Step where
  | add (parent : Text) (kind : Kind)
  | delete (id : Text)
  | update (id : Text) (revision : Node.Revision)
  | move (dragged target : Text) (position : Position)
  | settings (settings : Settings)
  | parse (text : Text)
  | regenerate
  | generate
  | undo

inductive StepError where
  | tree (cause : TreeError)
  | generate (cause : GenerateError)
  | parse (cause : ParseError)
  deriving DecidableEq

structure Reply where
  id : Option Text := none
  text : Option Text := none
  deriving DecidableEq

structure Session where
  current : Outline
  earlier : List Outline

namespace Session

def start (outline : Outline) : Session := ⟨outline, []⟩

def history (session : Session) : List Outline := session.current :: session.earlier

def push (session : Session) (outline : Outline) : Session := ⟨outline, session.history⟩

def undo (session : Session) : Session :=
  match session.earlier with
  | [] => session
  | previous :: rest => ⟨previous, rest⟩

def regenerate (outline : Outline) : Except StepError (Outline × Text) :=
  match outline.generate with
  | .error cause => .error (.generate cause)
  | .ok text =>
    match (Outline.parse text).result with
    | .error cause => .error (.parse cause)
    | .ok read => .ok (read.withSettings outline.settings, text)

def perform (session : Session) : Step → Except StepError (Session × Reply)
  | .add parent kind =>
    match session.current.addItem parent kind with
    | .ok (outline, id) => .ok (session.push outline, { id := some id })
    | .error cause => .error (.tree cause)
  | .delete id =>
    match session.current.deleteItem id with
    | .ok outline => .ok (session.push outline, {})
    | .error cause => .error (.tree cause)
  | .update id revision =>
    match session.current.updateItem id revision with
    | .ok outline => .ok (session.push outline, {})
    | .error cause => .error (.tree cause)
  | .move dragged target position =>
    match session.current.moveItem dragged target position with
    | .ok outline => .ok (session.push outline, {})
    | .error cause => .error (.tree cause)
  | .settings settings => .ok (session.push (session.current.withSettings settings), {})
  | .parse text =>
    match (Outline.parse text).result with
    | .ok outline => .ok (session.push outline, {})
    | .error cause => .error (.parse cause)
  | .regenerate =>
    match regenerate session.current with
    | .ok (outline, text) => .ok (session.push outline, { text := some text })
    | .error cause => .error cause
  | .generate =>
    match session.current.generate with
    | .ok text => .ok (session, { text := some text })
    | .error cause => .error (.generate cause)
  | .undo => .ok (session.undo, {})

def step (session : Session) (next : Step) : Session × Except StepError Reply :=
  match session.perform next with
  | .ok (after, reply) => (after, .ok reply)
  | .error cause => (session, .error cause)

def run (session : Session) (steps : List Step) : Session :=
  steps.foldl (fun session next => (session.step next).1) session

end Session

end CalcApp
