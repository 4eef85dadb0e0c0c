import YamlEdit.Selector
import YamlEdit.Mutation

/-!
# Editing stages

A stage holds a document, a selection over it and at most one mutation. Selection calls narrow
the selection, a second mutation is refused, and every render applies the mutation afresh to
the nodes the selection then picks; the marks it leaves stay on the stage's document. Moving on
renders the stage and scans the output again with the same indentation rule, so the next stage
sees a freshly parsed document.
-/

namespace YamlEdit

/-- Why a stage could not go on. -/
inductive Failure where
  /-- A text's indentation cannot be read as nesting. -/
  | indentation (e : IndentError)
  /-- A second mutation was asked of a stage that has one. -/
  | ambiguousMutation (existing requested : String)
deriving DecidableEq, Repr, Inhabited

namespace Failure

/-- The failure's message. -/
def message : Failure → String
  | .indentation e => e.message
  | .ambiguousMutation existing requested =>
    "Ambiguous mutation: cannot " ++ requested ++ " after " ++ existing ++ " in the same stage"

end Failure

/-- A document with a selection and at most one mutation. -/
structure Stage where
  /-- The document the stage works on. -/
  document : Document
  /-- The selection so far. -/
  selector : Selector := {}
  /-- The mutation of the stage, once set. -/
  mutation : Option Mutation := none
deriving Repr, Inhabited

/-- One step of a pipeline of stages. -/
inductive Step where
  /-- Adds a predicate to the selection. -/
  | narrow (c : Selector.Criterion)
  /-- Sets the stage's mutation. -/
  | mutate (m : Mutation)
  /-- Finishes the stage and starts a new one on its output. -/
  | proceed
  /-- Renders the stage to text. -/
  | render
  /-- Renders the stage to lines without terminators. -/
  | execute
  /-- Lists the nodes the selection picks. -/
  | selected
  /-- Shows the document's marked lines and nodes, the mutation and whether the selection is
  empty. -/
  | document
deriving DecidableEq, Repr, Inhabited

/-- What a step gives. -/
inductive Outcome where
  /-- The ids the selection picks after a selection step. -/
  | selection (ids : List Nat)
  /-- The mutation was set. -/
  | mutationSet (m : Mutation)
  /-- The new stage's line count and node count. -/
  | proceeded (lines nodes : Nat)
  /-- The rendered text. -/
  | rendered (text : String)
  /-- The rendered lines. -/
  | executed (lines : List String)
  /-- The selected nodes. -/
  | selectedNodes (nodes : List Node)
  /-- The marked lines, the nodes in id order, the mutation and whether the selection is empty. -/
  | snapshot (lines : List String) (nodes : List Entry) (mutation : Option Mutation)
      (selectorEmpty : Bool)
deriving Repr, Inhabited

namespace Stage

/-- Starts a stage on a text scanned with the rule. -/
def start (rule : IndentRule) (text : String) : Except Failure Stage :=
  match Document.parse rule text with
  | .ok document => .ok { document }
  | .error e => .error (.indentation e)

/-- Sets the mutation, unless the stage has one. -/
def setMutation (s : Stage) (m : Mutation) : Except Failure Stage :=
  match s.mutation with
  | some existing => .error (.ambiguousMutation existing.kind m.kind)
  | none => .ok { s with mutation := some m }

/-- The nodes the selection picks, in document order. -/
def selectedNodes (s : Stage) : List Node :=
  s.selector.select s.document.roots

/-- Applies the mutation to the selected nodes and renders: the stage with the marks applied, and
the output lines. -/
def apply (s : Stage) : Stage × List RenderedLine :=
  match s.mutation with
  | none => (s, s.document.render [])
  | some m =>
    let (document, script) := m.apply s.document (s.selectedNodes.map Node.id)
    ({ s with document }, document.render script)

/-- The stage's output text. -/
def render (s : Stage) : Stage × String :=
  let (s, out) := s.apply
  (s, joinLines out)

/-- The stage's output lines, without terminators. -/
def execute (s : Stage) : Stage × List String :=
  let (s, out) := s.apply
  (s, out.map RenderedLine.text)

/-- A new stage on the output, scanned with the same rule. -/
def proceed (s : Stage) : Except Failure Stage :=
  start s.document.rule s.render.2

/-- Performs one step. -/
def perform (s : Stage) : Step → Except Failure (Stage × Outcome)
  | .narrow c =>
    let s := { s with selector := s.selector.add c }
    .ok (s, .selection (s.selectedNodes.map Node.id))
  | .mutate m =>
    match s.setMutation m with
    | .ok s => .ok (s, .mutationSet m)
    | .error f => .error f
  | .proceed =>
    match s.proceed with
    | .ok s => .ok (s, .proceeded s.document.lines.length s.document.descendants.length)
    | .error f => .error f
  | .render =>
    let (s, text) := s.render
    .ok (s, .rendered text)
  | .execute =>
    let (s, lines) := s.execute
    .ok (s, .executed lines)
  | .selected => .ok (s, .selectedNodes s.selectedNodes)
  | .document =>
    .ok (s, .snapshot s.document.toLines (s.document.descendants.map Node.entry) s.mutation
      s.selector.isEmpty)

/-- Runs steps until one fails: the outcomes, the failure if there was one. -/
def run : Stage → List Step → List Outcome × Option Failure
  | _, [] => ([], none)
  | s, step :: steps =>
    match s.perform step with
    | .error f => ([], some f)
    | .ok (s, o) =>
      let (os, failure) := run s steps
      (o :: os, failure)

end Stage

end YamlEdit
