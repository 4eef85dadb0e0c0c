import YamlEdit.Document
import YamlEdit.Flow

/-!
# Rendering marks

Renames and deletions are recorded on nodes as marks and become edits whenever a document is
rendered. A renamed node replaces its own token. A deleted node that starts its line drops the
lines from its start line to its end line. Deleted inline nodes are removed from their line
token by token, each with its whole flow entry, the closers of the collections the entry opened,
and one adjacent separator: the one after it when there is one, else the one before it. A
deleted mapping value leaves its key and the key's `:` in place.
-/

namespace YamlEdit

open YamlEdit.Text

namespace Marks

/-- The token texts of a line while inline deletions are worked out, with the tokens removed so
far. -/
structure Removal where
  /-- The current text of every token. -/
  texts : List String
  /-- Whether each token is removed. -/
  removed : List Bool
deriving DecidableEq, Repr, Inhabited

namespace Removal

/-- Whether the token at `i` is removed; positions past the end count as removed. -/
def isRemoved (r : Removal) (i : Nat) : Bool :=
  r.removed[i]?.getD true

/-- Changes the text of the token at `i`. -/
def modifyText (r : Removal) (i : Nat) (f : List Char → List Char) : Removal :=
  { r with texts := r.texts.modify i fun t => String.ofList (f t.toList) }

/-- The text of the token at `i`. -/
def textAt (r : Removal) (i : Nat) : List Char :=
  (r.texts[i]?.getD "").toList

end Removal

/-- The token at `i` if it is punctuation. -/
def punctuationAt (tokens : List Token) (i : Nat) : Option Nat :=
  match tokens[i]? with
  | some t => if t.isScalar then none else some i
  | none => none

/-- Removes one inline node's entry from a line. -/
def removeEntry (tokens : List Token) (r : Removal) (e : Entry) : Removal :=
  let first := e.tokenIndex
  if r.isRemoved first then r
  else
    let last := Flow.entryEnd tokens first
    let r := { r with removed := r.removed.mapIdx fun i b => b || (first ≤ i && i ≤ last) }
    let next := ((List.range' (last + 1) (tokens.length - (last + 1))).find? fun i =>
      !r.isRemoved i).bind (punctuationAt tokens)
    let opened := Flow.openCollections tokens first last
    let r := match next with
      | some i => if 0 < opened then r.modifyText i (Flow.stripClosers opened) else r
      | none => r
    if e.role == .mappingValue then r
    else
      let (r, separated) := match next with
        | some i =>
          let t := r.textAt i
          let t := (Flow.stripLeading t ':').getD t
          match Flow.stripLeading t ',' with
          | some rest => (r.modifyText i fun _ => rest, true)
          | none => (r.modifyText i fun _ => t, false)
        | none => (r, false)
      if separated then r
      else
        let previous := ((List.range first).reverse.find? fun i => !r.isRemoved i).bind
          (punctuationAt tokens)
        match previous with
        | some i =>
          match Flow.stripTrailingComma (r.textAt i) with
          | some rest => r.modifyText i fun _ => rest
          | none => r
        | none => r

/-- The edits removing inline nodes, given in token order, from a line: the removed tokens
become empty and the changed ones take their new text. -/
def deleteInline (line : Line) (entries : List Entry) : List Edit :=
  let tokens := line.tokens
  let r := entries.foldl (removeEntry tokens)
    ⟨tokens.map Token.text, tokens.map fun _ => false⟩
  (tokens.zipIdx.filterMap fun (t, i) =>
    if r.isRemoved i then some (Edit.replaceToken line.number i "")
    else
      let text := r.texts[i]?.getD t.text
      if text != t.text then some (Edit.replaceToken line.number i text) else none)

/-- The distinct numbers of a list, ascending. -/
def ascendingDistinct (ns : List Nat) : List Nat :=
  (ns.mergeSort fun a b => a ≤ b).foldr (fun n acc => if acc.head? == some n then acc else n :: acc) []

end Marks

namespace Document

/-- The edits that render the marks of a document: renames in id order, then the dropped lines
of block deletions in id order, then the inline deletions line by line. -/
def pendingEdits (d : Document) : List Edit :=
  let entries := d.descendants.map Node.entry
  let renames := entries.filterMap fun e => match e.mark with
    | .renamed text => some (Edit.replaceToken e.startLine e.tokenIndex text)
    | _ => none
  let deleted := entries.filter fun e => e.mark == .deleted
  let drops := (deleted.filter fun e => !e.inline).map fun e => Edit.dropLines e.startLine e.endLine
  let inlines := deleted.filter Entry.inline
  let inlineEdits := (Marks.ascendingDistinct (inlines.map Entry.startLine)).flatMap fun n =>
    match d.line? n with
    | some line => Marks.deleteInline line
        ((inlines.filter fun e => e.startLine == n).mergeSort fun a b => a.tokenIndex ≤ b.tokenIndex)
    | none => []
  renames ++ drops ++ inlineEdits

/-- Renders the document's marks, then the script on top of them. -/
def render (d : Document) (script : List Edit) : List RenderedLine :=
  Edit.render (d.pendingEdits ++ script) d.lines

/-- The document's lines as currently marked, without terminators. -/
def toLines (d : Document) : List String :=
  (d.render []).map RenderedLine.text

/-- The document's text as currently marked. -/
def text (d : Document) : String :=
  joinLines (d.render [])

end Document

end YamlEdit
