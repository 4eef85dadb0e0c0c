import YamlEdit.Line
import YamlEdit.Edit
import YamlEdit.Text.WhiteSpace

/-!
# Entries of flow collections

Inside a single-line `[...]` or `{...}` collection an *entry* starts at a scalar token and runs
up to the first `,` or unmatched closing bracket at its own depth, or up to a comment; a key's
entry so covers its whole value, nested collections included. Removing or extending an entry
works on the punctuation tokens around it: the brackets it opens are closed after it, and one
separator goes with it.
-/

namespace YamlEdit

namespace Flow

open YamlEdit.Text

/-- Follows the brackets of a punctuation text from depth `d`; `none` when the entry ends in it,
at a `,` on depth zero or at a closer of an enclosing collection. -/
def followBrackets : Nat → List Char → Option Nat
  | d, [] => some d
  | d, c :: cs =>
    if c == '[' || c == '{' then followBrackets (d + 1) cs
    else if c == ']' || c == '}' then
      match d with
      | 0 => none
      | d + 1 => followBrackets d cs
    else if c == ',' && d == 0 then none
    else followBrackets d cs

/-- Scans the tokens from index `i` on, at bracket depth `depth`, with `last` the index of the
last scalar seen. -/
def entryEndFrom (depth last i : Nat) : List Token → Nat
  | [] => last
  | t :: ts =>
    if t.isComment then last
    else if t.isScalar then entryEndFrom depth i (i + 1) ts
    else match followBrackets depth t.text.toList with
      | none => last
      | some d => entryEndFrom d last (i + 1) ts

/-- The index of the last scalar of the flow entry that starts at `index`. -/
def entryEnd (tokens : List Token) (index : Nat) : Nat :=
  entryEndFrom 0 index (index + 1) (tokens.drop (index + 1))

/-- Opening minus closing brackets in a punctuation text. -/
def bracketBalance (text : String) : Int :=
  (text.toList.map fun c =>
    if c == '[' || c == '{' then (1 : Int) else if c == ']' || c == '}' then -1 else 0).foldr
      (· + ·) 0

/-- The collections opened by the punctuation from token `first` to token `last` and not closed
among them. -/
def openCollections (tokens : List Token) (first last : Nat) : Nat :=
  if tokens.length ≤ last then 0
  else
    ((((tokens.drop first).take (last + 1 - first)).filter fun t => !t.isScalar).map
      fun t => bracketBalance t.text).foldr (fun a b : Int => a + b) 0 |>.toNat

/-- Drops up to `n` leading closing brackets, and the white space before each. -/
def stripClosers : Nat → List Char → List Char
  | 0, rest => rest
  | n + 1, rest =>
    match trimStart rest with
    | c :: after => if c == ']' || c == '}' then stripClosers n after else rest
    | [] => rest

/-- Removes a leading `ch` and the white space on both sides of it. -/
def stripLeading (text : List Char) (ch : Char) : Option (List Char) :=
  match trimStart text with
  | c :: rest => if c == ch then some (trimStart rest) else none
  | [] => none

/-- Removes a trailing `,` after dropping trailing white space. -/
def stripTrailingComma (text : List Char) : Option (List Char) :=
  let t := trimEnd text
  if t.getLast? == some ',' then some t.dropLast else none

/-- The point right after a flow entry, past the closers of the collections the entry opened. -/
structure EntryEnd where
  /-- The last scalar of the entry. -/
  last : Nat
  /-- The token the point lies in. -/
  token : Nat
  /-- The byte offset of the point inside that token. -/
  offset : Nat
  /-- The closers between the last scalar and the point. -/
  closers : String
deriving DecidableEq, Repr, Inhabited

/-- The point right after the flow entry that starts at `index` of a line. -/
def entryEndPoint (line : Line) (index : Nat) : EntryEnd :=
  let tokens := line.tokens
  let last := entryEnd tokens index
  let opened := openCollections tokens (index + 1) last
  let atScalar : EntryEnd :=
    { last, token := last, offset := (tokens[last]?.map Token.byteSize).getD 0, closers := "" }
  match tokens[last + 1]? with
  | some next =>
    if 0 < opened && !next.isScalar then
      let text := next.text.toList
      let rest := stripClosers opened text
      { last, token := last + 1, offset := byteLength text - byteLength rest
        closers := String.ofList (text.take (text.length - rest.length)) }
    else atScalar
  | none => atScalar

/-- The entry separator used on a line: its first token that is a `,` with white space around,
or `", "` when it has none. -/
def separator (line : Line) : String :=
  ((line.tokens.map Token.text).find? fun t => trim t.toList == [',']).getD ", "

end Flow

end YamlEdit
