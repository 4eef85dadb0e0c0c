import YamlEdit.Token
import YamlEdit.Text.WhiteSpace

/-!
# Lines

A text is held as its physical lines. Each line keeps its tokens, its 1-based number, the
nesting level derived from its indentation, the byte range of its content in the whole text,
and the terminator that ended it, so that an untouched document is written back byte for byte.
-/

namespace YamlEdit

/-- A half-open range of UTF-8 byte offsets into a text. -/
structure Span where
  /-- The offset of the first byte. -/
  start : Nat
  /-- The offset just past the last byte. -/
  stop : Nat
deriving DecidableEq, Repr, Inhabited

/-- The terminator that ended a line. -/
inductive LineEnding where
  /-- No terminator: the last line of a text that does not end in a line feed. -/
  | unterminated
  /-- A line feed. -/
  | lf
  /-- A carriage return followed by a line feed. -/
  | crlf
deriving DecidableEq, Repr, Inhabited

namespace LineEnding

/-- The terminator's text. -/
def text : LineEnding → String
  | .unterminated => ""
  | .lf => "\n"
  | .crlf => "\r\n"

/-- The number of bytes of the terminator. -/
def byteSize (e : LineEnding) : Nat :=
  e.text.utf8ByteSize

end LineEnding

/-- One physical line of a text. -/
structure Line where
  /-- The tokens of the line's content. -/
  tokens : List Token
  /-- The 1-based line number. -/
  number : Nat
  /-- The nesting level derived from the line's indentation. -/
  level : Nat
  /-- The byte range of the content, without its terminator. -/
  range : Span
  /-- The terminator that followed the content. -/
  ending : LineEnding
deriving DecidableEq, Repr, Inhabited

namespace Line

/-- The line's content, put back together from its tokens. -/
def text (l : Line) : String :=
  Token.join l.tokens

/-- Whether the line holds nothing but white space. -/
def isBlank (l : Line) : Bool :=
  l.tokens.all fun t => Text.isBlank t.text.toList

/-- The byte range of the token at `i`, or `none` past the last token. -/
def tokenRange? (l : Line) (i : Nat) : Option Span :=
  match l.tokens[i]? with
  | none => none
  | some t =>
    let start := l.range.start + ((l.tokens.take i).map Token.byteSize).foldr (· + ·) 0
    some ⟨start, start + t.byteSize⟩

end Line

end YamlEdit
