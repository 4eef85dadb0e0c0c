import YamlEdit.Token
import YamlEdit.Text.Alphanumeric

/-!
# The span lexer

`lex` splits one line, without its terminator, into tokens by a single left-to-right pass of a
small machine with four modes:

* between spans it gathers punctuation, tagging `-` and `[` as sequence and `:` and `{` as
  mapping punctuation; an alphanumeric character opens a word, a quote opens a quoted scalar and
  `#` opens a comment;
* inside a word it continues on alphanumeric characters; a terminator (`:` `]` `}` `,` `#`)
  ends the word, and any other character is held back, since it may still belong to the word;
* while characters are held back, an alphanumeric character returns them to the word, a
  terminator ends the word and starts punctuation with them, and a quote ends the word and emits
  them as punctuation of their own;
* a quoted scalar runs to its closing quote, a comment to the end of the line.

Every character lands in exactly one token, so the token texts concatenate to the line.
-/

namespace YamlEdit.Lexer

open YamlEdit.Text

/-- Where the lexer stands. -/
inductive Mode where
  /-- Between spans, gathering punctuation. -/
  | outside
  /-- Inside an unquoted scalar. -/
  | word
  /-- After a word, holding back characters that may still belong to it. -/
  | held
  /-- Inside a scalar quoted by the given character. -/
  | quoted (close : Char)
  /-- Inside a comment, which runs to the end of the line. -/
  | comment
deriving DecidableEq, Repr

/-- The state of the lexer between two characters. -/
structure State where
  /-- The current mode. -/
  mode : Mode := .outside
  /-- The text of the span being built. -/
  current : List Char := []
  /-- Characters held back after a word. -/
  held : List Char := []
  /-- The tags of the span being built. -/
  tags : List Tag := []
  /-- The tokens finished so far, in order. -/
  done : List Token := []

/-- Characters that end an unquoted scalar. -/
def isTerminator (c : Char) : Bool :=
  c == ':' || c == ']' || c == '}' || c == ',' || c == '#'

/-- The two quote characters. -/
def isQuote (c : Char) : Bool :=
  c == '\'' || c == '"'

/-- The tag that a punctuation character adds outside of any span. -/
def punctuationTag? (c : Char) : Option Tag :=
  if c == '-' || c == '[' then some .sequence
  else if c == ':' || c == '{' then some .mapping
  else none

namespace State

/-- Finishes the span being built, if it holds any text. -/
def emit (s : State) : State :=
  if s.current.isEmpty then s
  else { s with current := [], tags := [], done := s.done ++ [⟨String.ofList s.current, s.tags⟩] }

/-- Adds a tag to the span being built. -/
def tag (s : State) (t : Tag) : State :=
  { s with tags := s.tags ++ [t] }

/-- Appends characters to the span being built. -/
def push (s : State) (cs : List Char) : State :=
  { s with current := s.current ++ cs }

/-- Leaves a word on a terminator: `:` starts mapping punctuation and `#` a comment. -/
def afterWord (s : State) (c : Char) : State :=
  if c == ':' then { s.tag .mapping with mode := .outside }
  else if c == '#' then { s.tag .comment with mode := .comment }
  else { s with mode := .outside }

/-- Feeds one character to the lexer. -/
def step (s : State) (c : Char) : State :=
  match s.mode with
  | .outside =>
    if isAlphanumeric c then
      ({ s.emit.tag .scalar with mode := .word }).push [c]
    else if isQuote c then
      ({ s.emit.tag .scalar with mode := .quoted c }).push [c]
    else if c == '#' then
      ({ s.emit.tag .comment with mode := .comment }).push [c]
    else
      match punctuationTag? c with
      | some t => (s.tag t).push [c]
      | none => s.push [c]
  | .word =>
    if isTerminator c then (s.emit.afterWord c).push [c]
    else if isAlphanumeric c then s.push [c]
    else { s with mode := .held, held := s.held ++ [c] }
  | .held =>
    if isTerminator c then
      ({ s.emit.afterWord c with held := [] }).push (s.held ++ [c])
    else if isAlphanumeric c then
      ({ s with mode := .word, held := [] }).push (s.held ++ [c])
    else if isQuote c then
      let heldToken := ({ s.emit with held := [] }).push s.held
      ({ heldToken.emit.tag .scalar with mode := .quoted c }).push [c]
    else
      { s with held := s.held ++ [c] }
  | .quoted close =>
    if close == c then ({ s.push [c] with mode := .outside }).emit
    else s.push [c]
  | .comment => s.push [c]

/-- Finishes the last span, then whatever was still held back, as punctuation. -/
def finish (s : State) : List Token :=
  let s := s.emit
  if s.held.isEmpty then s.done
  else ({ s with held := [] }.push s.held).emit.done

end State

/-- Splits a line (without its terminator) into tokens. The empty line is one empty, untagged
token. -/
def lex (line : String) : List Token :=
  if line.isEmpty then [⟨"", []⟩]
  else (line.toList.foldl State.step {}).finish

example : lex "a-" = [⟨"a", [.scalar]⟩, ⟨"-", []⟩] := by decide

example : lex "kind: Pod # note" =
    [⟨"kind", [.scalar]⟩, ⟨": ", [.mapping]⟩, ⟨"Pod", [.scalar]⟩, ⟨" # note", [.comment]⟩] := by
  decide

end YamlEdit.Lexer
