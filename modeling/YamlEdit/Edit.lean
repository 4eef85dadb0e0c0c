import YamlEdit.Line

/-!
# Edit scripts

An edit script lists changes to a scanned text, each positioned in the coordinates of the text
as it was scanned (1-based line numbers and token indices on those lines), so that edits never
shift each other. Rendering resolves the whole list against the lines in one pass: the last
replacement of a token wins, text inserted into a token is spliced into its (replaced) text at
byte offsets, dropped lines are left out, and inserted lines follow their anchor line.

Terminators are kept: a line without one takes the text's first terminator (a line feed when
there is none), inserted lines take their anchor's, and the last line written takes the last
source line's, so a text rendered without edits comes back byte for byte.
-/

namespace YamlEdit

/-- A single change to a rendered text. -/
inductive Edit where
  /-- Renders a token with different text; the empty text removes it. -/
  | replaceToken (line token : Nat) (text : String)
  /-- Inserts text at a byte offset inside a token; an offset at or past its end appends. -/
  | insertText (line token offset : Nat) (text : String)
  /-- Leaves out the lines from `start` to `stop`, both included. -/
  | dropLines (start stop : Nat)
  /-- Writes new lines, given without terminators, after a line. -/
  | insertLines (after : Nat) (lines : List String)
deriving DecidableEq, Repr, Inhabited

/-- One line of rendered output. -/
structure RenderedLine where
  /-- The line's content. -/
  text : String
  /-- The terminator after the content. -/
  ending : LineEnding
deriving DecidableEq, Repr, Inhabited

namespace Edit

/-- The text of the last replacement of a token, if any. -/
def replacement? (edits : List Edit) (line token : Nat) : Option String :=
  edits.foldl (fun r e => match e with
    | .replaceToken l t text => if l == line && t == token then some text else r
    | _ => r) none

/-- The insertions into a token, in script order. -/
def insertions (edits : List Edit) (line token : Nat) : List (Nat × String) :=
  edits.flatMap fun e => match e with
    | .insertText l t offset text => if l == line && t == token then [(offset, text)] else []
    | _ => []

/-- Whether a line is dropped by some edit. -/
def isDropped (edits : List Edit) (line : Nat) : Bool :=
  edits.any fun e => match e with
    | .dropLines start stop => start ≤ line && line ≤ stop
    | _ => false

/-- The lines inserted after a line, in script order. -/
def insertedAfter (edits : List Edit) (line : Nat) : List String :=
  edits.flatMap fun e => match e with
    | .insertLines after ls => if after == line then ls else []
    | _ => []

end Edit

/-- The number of UTF-8 bytes of a list of characters. -/
def byteLength : List Char → Nat
  | [] => 0
  | c :: cs => c.utf8Size + byteLength cs

/-- Whether `n` bytes from the start of `cs` fall between two characters. -/
def isBoundary : Nat → List Char → Bool
  | 0, _ => true
  | _ + 1, [] => false
  | n + 1, c :: cs => c.utf8Size ≤ n + 1 && isBoundary (n + 1 - c.utf8Size) cs

/-- Splits `cs` after its first `n` bytes, at a character boundary at or before them. -/
def cutBytes (n : Nat) : List Char → List Char × List Char
  | [] => ([], [])
  | c :: cs =>
    if c.utf8Size ≤ n then
      let (front, back) := cutBytes (n - c.utf8Size) cs
      (c :: front, back)
    else ([], c :: cs)

/-- How many bytes of the characters `rest`, which start at byte `position` of a token, come
before an insertion at byte `offset`. An offset before `position` is taken as `position`, one
past the end as the end, and one inside a character as the end. -/
def insertStep (position offset : Nat) (rest : List Char) : Nat :=
  let step := min (offset - position) (byteLength rest)
  if isBoundary step rest then step else byteLength rest

/-- Writes the characters `rest`, which start at byte `position` of a token, with insertions
placed at their offsets. -/
def spliceFrom (position : Nat) (rest : List Char) : List (Nat × String) → List Char
  | [] => rest
  | (offset, text) :: more =>
    let step := insertStep position offset rest
    let (front, back) := cutBytes step rest
    front ++ text.toList ++ spliceFrom (position + step) back more

/-- A token's text with insertions placed at their offsets, taken in offset order (insertions at
one offset keep their order). -/
def splice (base : String) (inserts : List (Nat × String)) : String :=
  String.ofList (spliceFrom 0 base.toList (inserts.mergeSort fun a b => a.1 ≤ b.1))

/-- The terminator for lines that had none: the text's first terminator, or a line feed. -/
def separatorOf (lines : List Line) : LineEnding :=
  ((lines.map Line.ending).find? fun e => e != .unterminated).getD .lf

namespace Edit

/-- A line's content with its tokens replaced and spliced. -/
def lineText (edits : List Edit) (line : Line) : String :=
  String.join (line.tokens.zipIdx.map fun (t, i) =>
    splice ((replacement? edits line.number i).getD t.text) (insertions edits line.number i))

/-- The output lines a source line gives: itself unless dropped, then the lines inserted after
it, all with its terminator. -/
def renderLine (edits : List Edit) (separator : LineEnding) (line : Line) : List RenderedLine :=
  let ending := if line.ending == .unterminated then separator else line.ending
  let own := if isDropped edits line.number then [] else [⟨lineText edits line, ending⟩]
  own ++ (insertedAfter edits line.number).map fun text => ⟨text, ending⟩

/-- Gives the last output line the given terminator. -/
def endWith (ending : LineEnding) : List RenderedLine → List RenderedLine
  | [] => []
  | [l] => [{ l with ending }]
  | l :: ls => l :: endWith ending ls

/-- Renders a script against the lines it is positioned in. -/
def render (edits : List Edit) (lines : List Line) : List RenderedLine :=
  let out := lines.flatMap (renderLine edits (separatorOf lines))
  match lines.getLast? with
  | some source => endWith source.ending out
  | none => out

end Edit

/-- Joins rendered lines into a text, terminators included. -/
def joinLines (lines : List RenderedLine) : String :=
  String.join (lines.map fun l => l.text ++ l.ending.text)

end YamlEdit
