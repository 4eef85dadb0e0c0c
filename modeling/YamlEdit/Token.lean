/-!
# Tokens

A token is a contiguous fragment of one line together with the structural roles it plays, in
the order they were met. Tags may repeat: the fragment `": {"` is mapping punctuation twice,
which the forest builder reads as a key followed by a nested flow mapping. A token without tags
is punctuation or white space.
-/

namespace YamlEdit

/-- The structural role a token plays on its line. -/
inductive Tag where
  /-- A plain or quoted scalar. -/
  | scalar
  /-- Mapping punctuation: `:` or `{`. -/
  | mapping
  /-- Sequence punctuation: `-` or `[`. -/
  | sequence
  /-- A comment running to the end of the line. -/
  | comment
deriving DecidableEq, Repr, Inhabited

/-- A fragment of a line and its tags. -/
structure Token where
  /-- The literal text of the fragment. -/
  text : String
  /-- The tags, in the order they were met. -/
  tags : List Tag
deriving DecidableEq, Repr, Inhabited

namespace Token

/-- Whether the token is a scalar. -/
def isScalar (t : Token) : Bool :=
  t.tags.contains .scalar

/-- Whether the token is a comment. -/
def isComment (t : Token) : Bool :=
  t.tags.contains .comment

/-- Whether the token is untagged punctuation or white space. -/
def isPunctuation (t : Token) : Bool :=
  t.tags.isEmpty

/-- The number of UTF-8 bytes of the token's text. -/
def byteSize (t : Token) : Nat :=
  t.text.utf8ByteSize

end Token

/-- The text of a run of tokens, concatenated. -/
def Token.join (ts : List Token) : String :=
  String.join (ts.map Token.text)

end YamlEdit
