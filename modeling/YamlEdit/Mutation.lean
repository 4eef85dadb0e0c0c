import YamlEdit.Document.Marks

/-!
# Mutations

A mutation is the one structural change a stage applies to its selected nodes. Renames and
deletions mark the nodes, and the marks become edits whenever the document is rendered.
Duplicates and inserted siblings add new text, given by the edit script the mutation returns.

A copy or a new sibling goes right after its node. For a node that starts its line that means
new lines after the node's last line; for an inline mapping value, a flow sequence in place of
the value; for any other inline node, text at the end of its flow entry. Insertions after one
line come out in script order, so targets are taken by end line, and the deepest of those
ending on one line first, which keeps each copy next to the node it copies.
-/

namespace YamlEdit

/-- The structural change of a stage. -/
inductive Mutation where
  /-- Replaces each node's own token with the text. -/
  | rename (name : String)
  /-- Removes each node with its subtree. -/
  | delete
  /-- Adds a copy of each node, under a new name, right after it. -/
  | duplicate (name : String)
  /-- Adds an empty sibling with the given name right after each node. -/
  | insert (name : String)
deriving DecidableEq, Repr, Inhabited

namespace Mutation

/-- The short name of the mutation, as error messages give it. -/
def kind : Mutation → String
  | .rename _ => "rename"
  | .delete => "delete"
  | .duplicate _ => "duplicate"
  | .insert _ => "insert"

/-- The targets that exist, ordered by end line and, among those ending on one line, by start
line from the last. -/
def insertionOrder (d : Document) (targets : List Nat) : List Entry :=
  ((targets.filterMap d.find?).map Node.entry).mergeSort fun a b =>
    a.endLine < b.endLine || (a.endLine == b.endLine && b.startLine ≤ a.startLine)

/-- A line's text with one token swapped out. -/
def withTokenReplaced (line : Line) (index : Nat) (text : String) : String :=
  String.join (line.tokens.zipIdx.map fun (t, i) => if i == index then text else t.text)

/-- The texts of the tokens from `first` to `last`. -/
def tokenTexts (line : Line) (first last : Nat) : String :=
  Token.join ((line.tokens.drop first).take (last + 1 - first))

/-- The edits adding a copy of a node, under a new name, right after it. -/
def duplicateEdits (d : Document) (e : Entry) (name : String) : List Edit :=
  match d.line? e.startLine with
  | none => []
  | some line =>
    if !e.inline then
      let rest := (List.range' (e.startLine + 1) (e.endLine - e.startLine)).filterMap fun n =>
        (d.line? n).map Line.text
      [.insertLines e.endLine (withTokenReplaced line e.tokenIndex name :: rest)]
    else if e.role == .mappingValue then
      [.replaceToken line.number e.tokenIndex s!"[{e.name}, {name}]"]
    else
      let stop := Flow.entryEndPoint line e.tokenIndex
      let value := if e.isKey && e.flow == .mapping then
          tokenTexts line (e.tokenIndex + 1) stop.last ++ stop.closers
        else ""
      [.insertText line.number stop.token stop.offset (Flow.separator line ++ name ++ value)]

/-- The edits adding an empty sibling with the given name right after a node. -/
def insertEdits (d : Document) (e : Entry) (name : String) : List Edit :=
  match d.line? e.startLine with
  | none => []
  | some line =>
    if !e.inline then
      let lead := Token.join (line.tokens.take e.tokenIndex)
      let colon := if e.isKey && e.role != .sequenceItem then ":" else ""
      [.insertLines e.endLine [lead ++ name ++ colon]]
    else if e.role == .mappingValue then
      [.replaceToken line.number e.tokenIndex s!"[{e.name}, {name}]"]
    else
      let colon := if e.isKey && e.flow == .mapping then ":" else ""
      let stop := Flow.entryEndPoint line e.tokenIndex
      [.insertText line.number stop.token stop.offset (Flow.separator line ++ name ++ colon)]

/-- Marks the target nodes that exist. -/
def markAll (d : Document) (targets : List Nat) (mark : Mark) : Document :=
  targets.foldl (fun d i => d.update i fun e => { e with mark }) d

/-- Applies the mutation to the targets of a document: the document with its new marks, and
the script of the text it adds. -/
def apply (m : Mutation) (d : Document) (targets : List Nat) : Document × List Edit :=
  match m with
  | .rename name => (markAll d targets (.renamed name), [])
  | .delete => (markAll d targets .deleted, [])
  | .duplicate name => (d, (insertionOrder d targets).flatMap fun e => duplicateEdits d e name)
  | .insert name => (d, (insertionOrder d targets).flatMap fun e => insertEdits d e name)

end Mutation

end YamlEdit
