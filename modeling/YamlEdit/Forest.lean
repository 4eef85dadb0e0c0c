import YamlEdit.Node
import YamlEdit.Text.WhiteSpace

/-!
# Building the node forest

Every scalar token of a line, up to the line's first comment, becomes a node. A node's
*effective level* is the line's level, raised by one for every `:` or `{` after the line's first
mapping punctuation and for every `-` or `[` after it. A table keeps the most recent node of each
effective level. A node hangs off the table's node one level up; without one it starts a new
root. A second scalar at the line's own level is the inline value of the table's node on that
level, and becomes its child without entering the table.

The forest is assembled from the flat list of placed entries: children follow their parent in
id order, so a right-to-left pass that gathers, for every entry, the finished trees naming it as
parent builds each tree in one step.
-/

namespace YamlEdit

namespace Forest

/-- Where the scan of one line stands. -/
structure Cursor where
  /-- The effective level of the next scalar. -/
  level : Nat
  /-- Whether mapping punctuation has been seen on the line. -/
  seenMapping : Bool := false
  /-- Whether a scalar has been seen on the line. -/
  seenScalar : Bool := false
  /-- The collection notation of the next scalar. -/
  flow : FlowStyle := .block
deriving DecidableEq, Repr, Inhabited

/-- The entries placed so far, with their parents, and the level table. -/
structure Builder where
  /-- The entries in id order, each with the id of its parent. -/
  placed : List (Entry × Option Nat) := []
  /-- The most recent node of each effective level. -/
  table : List (Option Nat) := []
deriving DecidableEq, Repr, Inhabited

/-- The role of a scalar, from the punctuation token in front of it. -/
def roleOf (previous : Option Token) (flow : FlowStyle) : Role :=
  match previous with
  | some t =>
    if t.isScalar then .plain
    else match (Text.trimEnd t.text.toList).getLast? with
      | some '-' => .sequenceItem
      | some '[' => .sequenceItem
      | some ':' => .mappingValue
      | some ',' => if flow == .sequence then .sequenceItem else .plain
      | _ => .plain
  | none => .plain

/-- Whether the token after a scalar makes it a mapping key: it is punctuation starting with
`:` after white space. -/
def isKeyBefore (next : Option Token) : Bool :=
  match next with
  | some t => !t.isScalar && (Text.trimStart t.text.toList).head? == some ':'
  | none => false

/-- The entry for the scalar token at `index` of a line. -/
def entryAt (line : Line) (index id : Nat) (c : Cursor) : Entry :=
  { id
    name := (line.tokens[index]?.map Token.text).getD ""
    startLine := line.number
    endLine := line.number
    tokenIndex := index
    range := (line.tokenRange? index).getD ⟨line.range.start, line.range.start⟩
    flow := c.flow
    role := roleOf (if index = 0 then none else line.tokens[index - 1]?) c.flow
    isKey := isKeyBefore line.tokens[index + 1]?
    inline := c.seenScalar }

/-- The level table after a node `id` enters it at `level`: deeper entries are dropped and
missing ones are empty. -/
def settle (table : List (Option Nat)) (level id : Nat) : List (Option Nat) :=
  table.take level ++ List.replicate (level - table.length) none ++ [some id]

/-- The table's node at `level`, if there is one. -/
def nodeAt (table : List (Option Nat)) (level : Nat) : Option Nat :=
  (table[level]?).getD none

namespace Builder

/-- The id the next entry gets. -/
def nextId (b : Builder) : Nat :=
  b.placed.length

/-- Places the scalar token at `index` of a line. -/
def addScalar (b : Builder) (line : Line) (index : Nat) (c : Cursor) : Builder :=
  let e := entryAt line index b.nextId c
  let nested := c.seenScalar && c.level == line.level
  match (if nested then nodeAt b.table c.level else none) with
  | some owner => { b with placed := b.placed ++ [(e, some owner)] }
  | none =>
    let table := settle b.table c.level e.id
    let parent := if c.level = 0 then none else nodeAt table (c.level - 1)
    { placed := b.placed ++ [(e, parent)], table }

end Builder

/-- Processes the tags of the token at `index`; `none` as cursor means a comment ended the
line. -/
def placeTags (line : Line) (index : Nat) :
    Cursor → Builder → List Tag → Option Cursor × Builder
  | c, b, [] => (some c, b)
  | _, b, .comment :: _ => (none, b)
  | c, b, .scalar :: ts =>
    placeTags line index { c with seenScalar := true } (b.addScalar line index c) ts
  | c, b, .mapping :: ts =>
    let c := if c.seenMapping then { c with level := c.level + 1, flow := .mapping }
      else { c with seenMapping := true }
    placeTags line index c b ts
  | c, b, .sequence :: ts =>
    let c := if c.seenMapping then { c with level := c.level + 1, flow := .sequence } else c
    placeTags line index c b ts

/-- Processes the tokens of a line from `index` on. -/
def placeTokens (line : Line) : Nat → Cursor → Builder → List Token → Builder
  | _, _, b, [] => b
  | index, c, b, t :: ts =>
    match placeTags line index c b t.tags with
    | (some c, b) => placeTokens line (index + 1) c b ts
    | (none, b) => b

/-- Places the scalars of one line. -/
def placeLine (b : Builder) (line : Line) : Builder :=
  placeTokens line 0 { level := line.level } b line.tokens

/-- The entries of a document's scalars in id order, each with the id of its parent. -/
def placements (lines : List Line) : List (Entry × Option Nat) :=
  (lines.foldl placeLine {}).placed

/-- Adds the entry with its children, taken from the finished trees that name it as parent, to
the finished trees. The trees stay in id order when entries come in decreasing id order. -/
def gather (p : Entry × Option Nat) (done : List (Option Nat × Node)) : List (Option Nat × Node) :=
  let kids := (done.filter fun d => d.1 == some p.1.id).map Prod.snd
  let rest := done.filter fun d => d.1 != some p.1.id
  let endLine := kids.foldl (fun m k => max m k.entry.endLine) p.1.startLine
  (p.2, ⟨{ p.1 with endLine }, kids⟩) :: rest

/-- The forest of placed entries: the trees of the entries without a parent. -/
def assemble (placed : List (Entry × Option Nat)) : List Node :=
  ((placed.foldr gather []).filter fun d => d.1.isNone).map Prod.snd

/-- The node forest of a document's lines. -/
def parse (lines : List Line) : List Node :=
  assemble (placements lines)

end Forest

end YamlEdit
