import YamlEdit.Line.Scan
import YamlEdit.Forest

/-!
# Documents

A document is a text held as its scanned lines and the node forest built from them, with the
indentation rule it was scanned with, so that a text produced from it can be read back the same
way.
-/

namespace YamlEdit

/-- A text held as lines and nodes. -/
structure Document where
  /-- The scanned lines. -/
  lines : List Line
  /-- The roots of the node forest, in document order. -/
  roots : List Node
  /-- The rule the text was scanned with. -/
  rule : IndentRule
deriving Repr, Inhabited

namespace Document

/-- Scans and parses a text. -/
def parse (rule : IndentRule) (text : String) : Except IndentError Document :=
  match Line.scan rule text with
  | .error e => .error e
  | .ok lines => .ok { lines, roots := Forest.parse lines, rule }

/-- The line with the given 1-based number. -/
def line? (d : Document) (number : Nat) : Option Line :=
  if number = 0 then none else d.lines[number - 1]?

/-- Every node, sorted by id. A root opened inside a flow collection can lie between the nodes
of an earlier tree, so the trees are merged by id rather than chained. -/
def descendants (d : Document) : List Node :=
  (Node.preorderAll d.roots).mergeSort fun a b => a.id ≤ b.id

/-- Looks up a node by id, searching in pre-order the trees whose root id does not exceed it. -/
def find? (d : Document) (i : Nat) : Option Node :=
  (d.roots.takeWhile fun r => r.id ≤ i).findSome? fun r => r.find? i

/-- Looks up a node by id, descending in each tree whose root id does not exceed it into the
last child that can hold it. -/
def locate (d : Document) (i : Nat) : Option Node :=
  (d.roots.takeWhile fun r => r.id ≤ i).findSome? fun r => r.locate i

/-- Changes the entry of the node that `locate` finds. -/
def update (d : Document) (i : Nat) (f : Entry → Entry) : Document :=
  { d with roots := updateRoots d.roots }
where
  /-- Updates the first tree, among those whose root id does not exceed `i`, that holds the node
  `locate` finds. -/
  updateRoots : List Node → List Node
    | [] => []
    | r :: rs =>
      if r.id ≤ i then
        if (r.locate i).isSome then r.update i f :: rs else r :: updateRoots rs
      else r :: rs

end Document

end YamlEdit
