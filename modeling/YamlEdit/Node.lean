import YamlEdit.Line

/-!
# Nodes

A node is one named entity of a document: a mapping key, a scalar value or a sequence item. Each
node records where its token sits, how it is written, and the change pending on it; its children
follow it in document order. Node ids count the nodes of one parse in document order, so a
node's id is smaller than the ids of all its descendants, and the children of a node are sorted
by id.
-/

namespace YamlEdit

/-- The collection notation a node was written in. -/
inductive FlowStyle where
  /-- Introduced by indentation, or an inline block value. -/
  | block
  /-- Inside a single-line `{...}` mapping. -/
  | mapping
  /-- Inside a single-line `[...]` sequence. -/
  | sequence
deriving DecidableEq, Repr, Inhabited

/-- How a node is introduced on its line. -/
inductive Role where
  /-- Neither a sequence entry nor a mapping value. -/
  | plain
  /-- An entry of a block (`- `) or flow (`[`, `,`) sequence. -/
  | sequenceItem
  /-- The value after a mapping key's `:`. -/
  | mappingValue
deriving DecidableEq, Repr, Inhabited

/-- The change pending on a node. -/
inductive Mark where
  /-- The node renders as written. -/
  | unmodified
  /-- The node's own token renders as the given text. -/
  | renamed (text : String)
  /-- The node and its subtree are left out at render time. -/
  | deleted
deriving DecidableEq, Repr, Inhabited

/-- What a node records about itself, apart from its children. -/
structure Entry where
  /-- The position of the node in document order. -/
  id : Nat
  /-- The literal text of the node's token, quotes kept. -/
  name : String
  /-- The 1-based line the node is written on. -/
  startLine : Nat
  /-- The last line covered by the node or any descendant. -/
  endLine : Nat
  /-- The index of the node's token on its line. -/
  tokenIndex : Nat
  /-- The byte range of the node's token. -/
  range : Span
  /-- The collection notation the node was written in. -/
  flow : FlowStyle
  /-- How the node is introduced on its line. -/
  role : Role
  /-- Whether the node's token is followed by `:`. -/
  isKey : Bool
  /-- Whether an earlier scalar shares the node's line. -/
  inline : Bool
  /-- The change pending on the node. -/
  mark : Mark := .unmodified
deriving DecidableEq, Repr, Inhabited

/-- Strips one pair of the quote `q` around a name, if the name has it. -/
def stripQuotes (q : Char) : List Char → Option (List Char)
  | c :: rest => if c == q && rest.getLast? == some q then some rest.dropLast else none
  | [] => none

/-- The name inside one pair of surrounding quotes, double quotes tried first. -/
def unquote (name : String) : Option String :=
  match stripQuotes '"' name.toList with
  | some inner => some (String.ofList inner)
  | none => (stripQuotes '\'' name.toList).map String.ofList

namespace Entry

/-- Whether `name` is the entry's text, literally or with one pair of surrounding quotes
removed. -/
def matchesName (e : Entry) (name : String) : Bool :=
  e.name == name || unquote e.name == some name

end Entry

/-- A node with its children in document order. -/
structure Node where
  /-- What the node records about itself. -/
  entry : Entry
  /-- The children, in document order. -/
  children : List Node
deriving Repr, Inhabited

namespace Node

/-- The node's id. -/
def id (n : Node) : Nat :=
  n.entry.id

mutual

/-- The node and all its descendants in pre-order. -/
def preorder : Node → List Node
  | n@⟨_, cs⟩ => n :: preorderAll cs

/-- The nodes of a list of trees and all their descendants in pre-order. -/
def preorderAll : List Node → List Node
  | [] => []
  | n :: ns => preorder n ++ preorderAll ns

end

/-- Looks up the node with the given id among the node and its descendants, in pre-order. -/
def find? (n : Node) (i : Nat) : Option Node :=
  n.preorder.find? fun m => m.id == i

mutual

/-- Looks up the node with the given id by descending, at each node, into the last child whose
id does not exceed it. Since children are sorted by id and a node's id is smaller than its
descendants', that child is the only one that can hold the id. -/
def locate (i : Nat) : Node → Option Node
  | n@⟨e, cs⟩ => if e.id == i then some n else locateAmong i cs
termination_by n => sizeOf n
decreasing_by
  all_goals
    subst_vars
    simp only [namedPattern, Node.mk.sizeOf_spec]
    omega

/-- Descends into the last of the trees whose root id does not exceed `i`. -/
def locateAmong (i : Nat) : List Node → Option Node
  | [] => none
  | [c] => if c.id ≤ i then locate i c else none
  | c :: rest@(d :: _) =>
    if c.id ≤ i then (if d.id ≤ i then locateAmong i rest else locate i c) else none
termination_by ns => sizeOf ns
decreasing_by
  all_goals
    subst_vars
    simp only [namedPattern, List.cons.sizeOf_spec]
    omega

end

mutual

/-- Changes the entry of the node with the given id, found as `locate` finds it; the tree is
unchanged when there is no such node. -/
def update (i : Nat) (f : Entry → Entry) : Node → Node
  | ⟨e, cs⟩ => if e.id == i then ⟨f e, cs⟩ else ⟨e, updateAmong i f cs⟩
termination_by n => sizeOf n
decreasing_by
  all_goals
    simp only [Node.mk.sizeOf_spec]
    omega

/-- Changes the entry with the given id in the last of the trees whose root id does not
exceed `i`. -/
def updateAmong (i : Nat) (f : Entry → Entry) : List Node → List Node
  | [] => []
  | [c] => if c.id ≤ i then [update i f c] else [c]
  | c :: rest@(d :: _) =>
    if c.id ≤ i then (if d.id ≤ i then c :: updateAmong i f rest else update i f c :: rest)
    else c :: rest
termination_by ns => sizeOf ns
decreasing_by
  all_goals
    subst_vars
    simp only [namedPattern, List.cons.sizeOf_spec]
    omega

end

end Node

end YamlEdit
