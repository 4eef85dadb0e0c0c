/-!
# White space

The white space of this library is Unicode's `White_Space` property: 25 code points, among them
tab, the line breaks, the no-break space U+00A0 and the ideographic space U+3000. It decides how
far a line is indented, which lines are blank, and what trimming removes.

Text functions here work on `List Char`, which is what the lexer and the renderer take apart.
-/

namespace YamlEdit.Text

/-- The code points with the `White_Space` property, as closed ranges, ascending and apart. -/
def whiteSpaceRanges : List (Nat × Nat) :=
  [(0x09, 0x0D), (0x20, 0x20), (0x85, 0x85), (0xA0, 0xA0), (0x1680, 0x1680), (0x2000, 0x200A),
   (0x2028, 0x2029), (0x202F, 0x202F), (0x205F, 0x205F), (0x3000, 0x3000)]

/-- Whether the character is white space in the sense of Unicode's `White_Space` property. -/
def isWhiteSpace (c : Char) : Bool :=
  whiteSpaceRanges.any fun r => r.1 ≤ c.toNat && c.toNat ≤ r.2

/-- The number of white-space characters at the start of a text: its indentation. -/
def indentation (cs : List Char) : Nat :=
  (cs.takeWhile isWhiteSpace).length

/-- A text is blank when it holds nothing but white space. -/
def isBlank (cs : List Char) : Bool :=
  cs.all isWhiteSpace

/-- The text without its leading white space. -/
def trimStart (cs : List Char) : List Char :=
  cs.dropWhile isWhiteSpace

/-- The text without its trailing white space. -/
def trimEnd (cs : List Char) : List Char :=
  (trimStart cs.reverse).reverse

/-- The text without white space at either end. -/
def trim (cs : List Char) : List Char :=
  trimEnd (trimStart cs)

example : isWhiteSpace '　' = true ∧ isWhiteSpace '​' = false := by decide

example : indentation "   x y".toList = 3 := by decide

end YamlEdit.Text
