/-!
# Indentation levels

A line's nesting level comes from a stack of indentation increments. The first line's
indentation is the reference. A line indented further than the line measured before it pushes
the difference; a line indented less pops increments until the decrease is covered. Popping an
empty stack means the line lies left of the document start (an *underflow*); an increment larger
than what remains of the decrease means the dedent lands between two levels (a *misaligned*
dedent), which the strict rule refuses and the permissive rule accepts after popping that
increment too.
-/

namespace YamlEdit

/-- How indentation is turned into levels. -/
structure IndentRule where
  /-- Refuse dedents that do not land on an enclosing level. -/
  strictDedent : Bool := true
  /-- Give white-space-only lines the current level without measuring them. -/
  blankLinesInherit : Bool := true
deriving DecidableEq, Repr, Inhabited

namespace IndentRule

/-- Measure every line and accept dedents that overshoot a level. -/
def permissive : IndentRule :=
  { strictDedent := false, blankLinesInherit := false }

end IndentRule

/-- Why a line's indentation has no place on the stack. -/
inductive IndentFault where
  /-- The line is indented left of the document's first line. -/
  | underflow
  /-- The dedent does not land on an enclosing level. -/
  | misaligned
deriving DecidableEq, Repr, Inhabited

/-- The stack of indentation increments, and the indentation of the last measured line. -/
structure IndentStack where
  /-- The increments, innermost first. -/
  increments : List Nat := []
  /-- The indentation of the last measured line, once a line has been seen. -/
  previous? : Option Nat := none
deriving DecidableEq, Repr, Inhabited

namespace IndentStack

/-- The nesting level: the number of open increments. -/
def level (s : IndentStack) : Nat :=
  s.increments.length

/-- Pops increments until a decrease of `r` columns is covered. -/
def popIncrements (strict : Bool) : Nat → List Nat → Except IndentFault (List Nat)
  | 0, incs => .ok incs
  | _ + 1, [] => .error .underflow
  | r + 1, d :: incs =>
    if r + 1 < d then (if strict then .error .misaligned else .ok incs)
    else popIncrements strict (r + 1 - d) incs

/-- Places a line of the given indentation on the stack. The first line seen, blank or not,
sets the reference indentation. -/
def place (rule : IndentRule) (s : IndentStack) (indent : Nat) (blank : Bool) :
    Except IndentFault IndentStack :=
  let previous := s.previous?.getD indent
  if blank && rule.blankLinesInherit then .ok { s with previous? := some previous }
  else if previous < indent then .ok ⟨(indent - previous) :: s.increments, some indent⟩
  else if indent < previous then
    match popIncrements rule.strictDedent (previous - indent) s.increments with
    | .ok incs => .ok ⟨incs, some indent⟩
    | .error f => .error f
  else .ok ⟨s.increments, some indent⟩

end IndentStack

end YamlEdit
