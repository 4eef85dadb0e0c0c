import YamlEdit.Line
import YamlEdit.Indent
import YamlEdit.Token.Lexer

/-!
# Scanning a text into lines

A text is cut after every line feed; a carriage return right before the line feed belongs to
the terminator, any other carriage return is content. The empty text has no lines, and a text
that ends in a line feed has no empty line after it. Each line is lexed, and its level is taken
from the indentation stack; the first line whose indentation has no place there stops the scan
with an `IndentError` that names the line, its content range and its indentation.
-/

namespace YamlEdit

open YamlEdit.Text

/-- A positioned indentation error. -/
structure IndentError where
  /-- What is wrong with the indentation. -/
  fault : IndentFault
  /-- The 1-based number of the offending line. -/
  line : Nat
  /-- The byte range of the offending line's content. -/
  range : Span
  /-- The offending line's indentation, in characters. -/
  indent : Nat
deriving DecidableEq, Repr, Inhabited

namespace IndentError

/-- The description of the fault, with the line's indentation. -/
def detail (e : IndentError) : String :=
  match e.fault with
  | .underflow => s!"indentation of {e.indent} is to the left of the document start"
  | .misaligned => s!"dedent to column {e.indent} does not match an enclosing level"

/-- The full message: `Indentation error: line N: ...`. -/
def message (e : IndentError) : String :=
  s!"Indentation error: line {e.line}: {e.detail}"

end IndentError

/-- Cuts a text into line contents and terminators; `acc` holds the content read so far of the
current line. -/
def cutLines (acc : List Char) : List Char → List (List Char × LineEnding)
  | [] => if acc.isEmpty then [] else [(acc, .unterminated)]
  | '\n' :: rest =>
    let line := if acc.getLast? == some '\r' then (acc.dropLast, LineEnding.crlf)
      else (acc, LineEnding.lf)
    line :: cutLines [] rest
  | c :: rest => cutLines (acc ++ [c]) rest

/-- The contents and terminators of a text's lines. -/
def splitLines (text : String) : List (List Char × LineEnding) :=
  cutLines [] text.toList

namespace Line

/-- Scans line contents starting at line `number` and byte `offset`. -/
def scanFrom (rule : IndentRule) :
    IndentStack → Nat → Nat → List (List Char × LineEnding) → Except IndentError (List Line)
  | _, _, _, [] => .ok []
  | stack, number, offset, (content, ending) :: rest =>
    let text := String.ofList content
    let range : Span := ⟨offset, offset + text.utf8ByteSize⟩
    let indent := indentation content
    match stack.place rule indent (Text.isBlank content) with
    | .error fault => .error ⟨fault, number, range, indent⟩
    | .ok stack' =>
      let line : Line :=
        { tokens := Lexer.lex text, number, level := stack'.level, range, ending }
      match scanFrom rule stack' (number + 1) (range.stop + ending.byteSize) rest with
      | .error e => .error e
      | .ok lines => .ok (line :: lines)

/-- Scans a text into lines with their levels. -/
def scan (rule : IndentRule) (text : String) : Except IndentError (List Line) :=
  scanFrom rule {} 1 0 (splitLines text)

end Line

end YamlEdit
