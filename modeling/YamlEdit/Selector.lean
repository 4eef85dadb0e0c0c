import YamlEdit.Node

/-!
# Selecting nodes

A selector gathers five kinds of predicates and evaluates them in a fixed order, whatever the
order they were added in: parents by literal name, parents at a depth, names at a depth, names,
and name fragments. Each stage narrows the working set the one before produced: the parent
stages replace it by the children of the matching nodes of its subtrees, the name stages by the
matching nodes of its subtrees. Depths are absolute, roots at depth 0, and a stage that asks for
depths does not walk below the deepest one it asks for. After each stage the working set holds
every node once, in document order.

A selector without predicates selects every node, tree after tree in pre-order.
-/

namespace YamlEdit

/-- Whether `needle` occurs in `hay` as a contiguous piece. -/
def hasInfix (needle : List Char) : List Char → Bool
  | [] => needle.isEmpty
  | c :: cs => needle.isPrefixOf (c :: cs) || hasInfix needle cs

/-- The predicates of a selection. -/
structure Selector where
  /-- Children of nodes with any of these literal names. -/
  parents : List String := []
  /-- Children of nodes with the literal name at the depth. -/
  parentsAtLevel : List (String × Nat) := []
  /-- Nodes matching the name at the depth. -/
  namesAtLevel : List (String × Nat) := []
  /-- Nodes matching any of these names. -/
  names : List String := []
  /-- Nodes whose name contains any of these fragments. -/
  fragments : List String := []
deriving DecidableEq, Repr, Inhabited

namespace Selector

/-- Restricts to nodes matching any of the names. -/
def named (s : Selector) (names : List String) : Selector :=
  { s with names := s.names ++ names }

/-- Restricts to nodes whose name contains any of the fragments. -/
def nameContains (s : Selector) (fragments : List String) : Selector :=
  { s with fragments := s.fragments ++ fragments }

/-- Restricts to nodes matching the name at the depth. -/
def namedAtLevel (s : Selector) (name : String) (level : Nat) : Selector :=
  { s with namesAtLevel := s.namesAtLevel ++ [(name, level)] }

/-- Restricts to children of nodes with any of the names. -/
def withParents (s : Selector) (names : List String) : Selector :=
  { s with parents := s.parents ++ names }

/-- Restricts to children of nodes with the name at the depth. -/
def withParentAtLevel (s : Selector) (name : String) (level : Nat) : Selector :=
  { s with parentsAtLevel := s.parentsAtLevel ++ [(name, level)] }

/-- One predicate, as a selection call adds it. -/
inductive Criterion where
  /-- Nodes matching any of the names. -/
  | named (names : List String)
  /-- Nodes whose name contains any of the fragments. -/
  | nameContains (fragments : List String)
  /-- Children of nodes with any of the names. -/
  | withParents (names : List String)
  /-- Nodes matching the name at the depth. -/
  | namedAtLevel (name : String) (level : Nat)
  /-- Children of nodes with the name at the depth. -/
  | withParentAtLevel (name : String) (level : Nat)
deriving DecidableEq, Repr, Inhabited

/-- Adds one predicate. -/
def add (s : Selector) : Criterion → Selector
  | .named names => s.named names
  | .nameContains fragments => s.nameContains fragments
  | .withParents names => s.withParents names
  | .namedAtLevel name level => s.namedAtLevel name level
  | .withParentAtLevel name level => s.withParentAtLevel name level

/-- The selector with the given predicates, added in order. -/
def ofCriteria (cs : List Criterion) : Selector :=
  cs.foldl add {}

/-- Whether no predicate has been added. -/
def isEmpty (s : Selector) : Bool :=
  s.parents.isEmpty && s.parentsAtLevel.isEmpty && s.namesAtLevel.isEmpty && s.names.isEmpty &&
    s.fragments.isEmpty

end Selector

namespace Selection

/-- A node of the working set, with its absolute depth. -/
structure Visit where
  /-- The node. -/
  node : Node
  /-- Its depth, roots at 0. -/
  depth : Nat
deriving Repr, Inhabited

/-- Whether a depth lies below the limit. -/
def isBelow (limit : Option Nat) (depth : Nat) : Bool :=
  match limit with
  | some l => l < depth
  | none => false

mutual

/-- The nodes of a tree whose root is at `depth`, in pre-order, down to the limit. -/
def walkNode (limit : Option Nat) (depth : Nat) : Node → List Visit
  | n@⟨_, cs⟩ => if isBelow limit depth then [] else ⟨n, depth⟩ :: walkAll limit (depth + 1) cs

/-- The nodes of trees whose roots are at `depth`, in pre-order, down to the limit. -/
def walkAll (limit : Option Nat) (depth : Nat) : List Node → List Visit
  | [] => []
  | n :: ns => walkNode limit depth n ++ walkAll limit depth ns

end

/-- The nodes of the working set's subtrees, down to the limit. -/
def walk (limit : Option Nat) (working : List Visit) : List Visit :=
  working.flatMap fun v => walkNode limit v.depth v.node

/-- Keeps the first visit of every node id not in `seen`. -/
def keepFirst (seen : List Nat) : List Visit → List Visit
  | [] => []
  | v :: vs =>
    if seen.contains v.node.id then keepFirst seen vs else v :: keepFirst (v.node.id :: seen) vs

/-- Holds each node once, in document order. -/
def normalize (visits : List Visit) : List Visit :=
  (keepFirst [] visits).mergeSort fun a b => a.node.id ≤ b.node.id

/-- The nodes of the working subtrees satisfying `p`. -/
def matching (p : Visit → Bool) (limit : Option Nat) (working : List Visit) : List Visit :=
  normalize ((walk limit working).filter p)

/-- The children of the nodes of the working subtrees satisfying `p`. -/
def childrenOf (p : Visit → Bool) (limit : Option Nat) (working : List Visit) : List Visit :=
  normalize (((walk limit working).filter p).flatMap fun v =>
    v.node.children.map fun c => ⟨c, v.depth + 1⟩)

/-- Runs a stage only when it has predicates. -/
def stage {α : Type} (ps : List α) (run : List Visit → List Visit) (working : List Visit) :
    List Visit :=
  if ps.isEmpty then working else run working

/-- The deepest of the depths asked for. -/
def limitOf (ps : List (String × Nat)) : Option Nat :=
  (ps.map Prod.snd).max?

/-- The working set after all five stages. -/
def narrow (s : Selector) (roots : List Node) : List Visit :=
  let working := roots.map fun r => ⟨r, 0⟩
  let working := stage s.parents (childrenOf (fun v => s.parents.contains v.node.entry.name)
    none) working
  let working := stage s.parentsAtLevel (childrenOf (fun v => s.parentsAtLevel.any fun p =>
    v.depth == p.2 && v.node.entry.name == p.1) (limitOf s.parentsAtLevel)) working
  let working := stage s.namesAtLevel (matching (fun v => s.namesAtLevel.any fun p =>
    v.depth == p.2 && v.node.entry.matchesName p.1) (limitOf s.namesAtLevel)) working
  let working := stage s.names (matching (fun v => s.names.any fun n =>
    v.node.entry.matchesName n) none) working
  stage s.fragments (matching (fun v => s.fragments.any fun f =>
    hasInfix f.toList v.node.entry.name.toList) none) working

end Selection

namespace Selector

/-- The nodes a selector picks from a forest. -/
def select (s : Selector) (roots : List Node) : List Node :=
  if s.isEmpty then Node.preorderAll roots else (Selection.narrow s roots).map Selection.Visit.node

end Selector

end YamlEdit
