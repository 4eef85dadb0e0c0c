import Mathlib
import YamlEdit.Proofs.Scan

/-!
# Strict scanning as a stack of open columns

A scan keeps only the increments between the indentations of successive measured lines. The
columns they stand for are easier to think about: the reference column of the first line and,
above it, the indentation of every level still open. Under the strict rule the scan follows the
column discipline exactly: a line indented past the innermost open column opens a new one, a
line on an open column closes the columns above it, and any other line fails, as an underflow
when it lies left of the reference column and as a misaligned dedent otherwise.

The main statement, `scan_levels_eq_columns`, says that a strict scan and the column discipline
agree on every text: both fail at the same line with the same fault, range and indentation, or
both succeed with the same levels. It rests on one step lemma, `place_columns`, which says that
placing a line on the increments and placing it on the columns they stand for commute.
-/

namespace YamlEdit

open YamlEdit.Text

namespace Columns

/-- Places a measured line indented `x` on the open columns `cols`, innermost first, whose last
entry is the reference column `ref`. -/
def place (ref x : Nat) : List Nat → Except IndentFault (List Nat)
  | [] => .ok [x]
  | cols@(top :: _) =>
    if top < x then .ok (x :: cols)
    else if x ∈ cols then .ok (cols.dropWhile (x < ·))
    else .error (if x < ref then .underflow else .misaligned)

/-- The levels of the lines `ps`, numbered from `number` and starting at byte `offset`, by the
column discipline from the open columns `cols`: a measured line's level is the number of columns
above the reference once it is placed, and a white-space-only line is left unmeasured, at the
level of the line before it, when `inherit` holds. -/
def levelsFrom (inherit : Bool) (ref : Nat) :
    List Nat → Nat → Nat → List (List Char × LineEnding) → Except IndentError (List Nat)
  | _, _, _, [] => .ok []
  | cols, number, offset, (content, ending) :: rest =>
    let x := indentation content
    let stop := offset + (String.ofList content).utf8ByteSize
    let placed := if inherit && isBlank content then .ok cols else place ref x cols
    match placed with
    | .error f => .error ⟨f, number, ⟨offset, stop⟩, x⟩
    | .ok cols' =>
      (levelsFrom inherit ref cols' (number + 1) (stop + ending.byteSize) rest).map
        ((cols'.length - 1) :: ·)

/-- The levels of a text's lines by the column discipline, from the single column of the first
line's indentation. -/
def levels (inherit : Bool) (text : String) : Except IndentError (List Nat) :=
  match splitLines text with
  | [] => .ok []
  | ps@((first, _) :: _) => levelsFrom inherit (indentation first) [indentation first] 1 0 ps

end Columns

namespace IndentStack

/-- The columns that increments stand for, from the innermost column `p` down. -/
def columnsOf : Nat → List Nat → List Nat
  | p, [] => [p]
  | p, d :: ds => p :: columnsOf (p - d) ds

/-- The open columns of a stack: its last measured indentation and those below it. -/
def columns (s : IndentStack) : List Nat :=
  columnsOf (s.previous?.getD 0) s.increments

@[simp] theorem length_columnsOf (p : Nat) (ds : List Nat) :
    (columnsOf p ds).length = ds.length + 1 := by
  induction ds generalizing p with
  | nil => rfl
  | cons d ds ih => simp [columnsOf, ih]

/-- A stack measured from the reference column `ref`: some line has been measured, every
increment is positive, and the increments add up from `ref` to the last measured indentation. -/
structure Anchored (ref : Nat) (s : IndentStack) : Prop where
  /-- A line has been measured. -/
  previous_isSome : s.previous?.isSome
  /-- Every increment opens at least one column. -/
  pos : ∀ d ∈ s.increments, 0 < d
  /-- The increments lead from the reference column to the last measured indentation. -/
  sum_eq : s.increments.sum + ref = s.previous?.getD 0

/-- Every column of anchored increments lies between the reference column and the innermost
one. -/
theorem mem_columnsOf_bounds {ref p : Nat} {ds : List Nat} (hpos : ∀ d ∈ ds, 0 < d)
    (hsum : ds.sum + ref = p) {x : Nat} (hx : x ∈ columnsOf p ds) : ref ≤ x ∧ x ≤ p := by
  induction ds generalizing p with
  | nil =>
    simp only [columnsOf, List.mem_singleton] at hx
    simp at hsum
    omega
  | cons d ds ih =>
    simp only [columnsOf, List.mem_cons] at hx
    simp only [List.sum_cons] at hsum
    rcases hx with rfl | hx
    · omega
    · have := ih (fun e he => hpos e (List.mem_cons_of_mem d he)) (p := p - d) (by omega) hx
      omega

/-- A dedent to an open column pops the increments above it, and the columns left are those
at or left of it. -/
theorem popIncrements_of_mem {ref p x : Nat} {ds : List Nat} (hpos : ∀ d ∈ ds, 0 < d)
    (hsum : ds.sum + ref = p) (hx : x ≤ p) (hmem : x ∈ columnsOf p ds) :
    ∃ ds', popIncrements true (p - x) ds = .ok ds' ∧ (∀ d ∈ ds', 0 < d) ∧ ds'.sum + ref = x ∧
      columnsOf x ds' = (columnsOf p ds).dropWhile (x < ·) := by
  induction ds generalizing p with
  | nil =>
    simp only [columnsOf, List.mem_singleton] at hmem
    subst hmem
    exact ⟨[], by simp [popIncrements], by simp, by simpa using hsum, by simp [columnsOf]⟩
  | cons d ds ih =>
    simp only [List.sum_cons] at hsum
    have hpos' : ∀ e ∈ ds, 0 < e := fun e he => hpos e (List.mem_cons_of_mem d he)
    by_cases hxp : x = p
    · subst hxp
      refine ⟨d :: ds, by simp [popIncrements], hpos, by simpa using hsum, ?_⟩
      simp [columnsOf]
    have hmem' : x ∈ columnsOf (p - d) ds := by
      simp only [columnsOf, List.mem_cons] at hmem
      exact hmem.resolve_left hxp
    have hbound := (mem_columnsOf_bounds hpos' (show ds.sum + ref = p - d by omega) hmem').2
    obtain ⟨ds', hpop, hpos'', hsum', hcols⟩ := ih hpos' (p := p - d) (by omega) hbound hmem'
    refine ⟨ds', ?_, hpos'', hsum', ?_⟩
    · obtain ⟨r, hr⟩ : ∃ r, p - x = r + 1 := ⟨p - x - 1, by omega⟩
      rw [hr, popIncrements, if_neg (by omega), show r + 1 - d = p - d - x by omega]
      exact hpop
    · rw [hcols, columnsOf, List.dropWhile_cons_of_pos (by simp; omega)]

/-- A dedent to a column that is not open fails: left of the reference column by an underflow,
else as misaligned. -/
theorem popIncrements_of_not_mem {ref p x : Nat} {ds : List Nat} (hpos : ∀ d ∈ ds, 0 < d)
    (hsum : ds.sum + ref = p) (hx : x ≤ p) (hmem : x ∉ columnsOf p ds) :
    popIncrements true (p - x) ds = .error (if x < ref then .underflow else .misaligned) := by
  induction ds generalizing p with
  | nil =>
    simp only [columnsOf, List.mem_singleton] at hmem
    simp only [List.sum_nil, Nat.zero_add] at hsum
    obtain ⟨r, hr⟩ : ∃ r, p - x = r + 1 := ⟨p - x - 1, by omega⟩
    rw [hr, popIncrements, if_pos (by omega)]
  | cons d ds ih =>
    simp only [List.sum_cons] at hsum
    simp only [columnsOf, List.mem_cons, not_or] at hmem
    have hpos' : ∀ e ∈ ds, 0 < e := fun e he => hpos e (List.mem_cons_of_mem d he)
    obtain ⟨r, hr⟩ : ∃ r, p - x = r + 1 := ⟨p - x - 1, by omega⟩
    rw [hr, popIncrements]
    by_cases hover : r + 1 < d
    · rw [if_pos hover, if_pos rfl, if_neg (by omega)]
    · rw [if_neg hover, show r + 1 - d = p - d - x by omega]
      exact ih hpos' (p := p - d) (by omega) (by omega) hmem.2

/-- Placing a measured line on anchored increments: a strict placement and the column discipline
agree on the columns they leave and on the fault they report. -/
theorem place_columns {rule : IndentRule} (hstrict : rule.strictDedent = true) {ref : Nat}
    {s : IndentStack} (hs : s.Anchored ref) (x : Nat) (blank : Bool) :
    (s.place rule x blank).map columns =
      (if rule.blankLinesInherit && blank then .ok s.columns else Columns.place ref x s.columns) ∧
    ∀ s', s.place rule x blank = .ok s' → s'.Anchored ref := by
  obtain ⟨p, hp⟩ := Option.isSome_iff_exists.1 hs.previous_isSome
  have hsum : s.increments.sum + ref = p := by simpa [hp] using hs.sum_eq
  have hcols : s.columns = columnsOf p s.increments := by simp [columns, hp]
  obtain ⟨incs, prev⟩ := s
  simp only at hp hsum hcols
  subst hp
  by_cases hinherit : blank && rule.blankLinesInherit
  · have hplace : IndentStack.place rule ⟨incs, some p⟩ x blank = .ok ⟨incs, some p⟩ := by
      simp [place, hinherit]
    rw [hplace, if_pos (by simpa [Bool.and_comm] using hinherit)]
    exact ⟨rfl, fun s' h => by cases h; exact hs⟩
  rw [if_neg (by simpa [Bool.and_comm] using hinherit)]
  have hcolp : columnsOf p incs = p :: (columnsOf p incs).tail := by
    cases incs <;> rfl
  rcases Nat.lt_trichotomy p x with hlt | heq | hgt
  · have hplace : IndentStack.place rule ⟨incs, some p⟩ x blank = .ok ⟨(x - p) :: incs, some x⟩ := by
      simp [place, hinherit, hlt]
    rw [hplace, hcols, hcolp, Columns.place, if_pos hlt, ← hcolp]
    refine ⟨?_, fun s' h => ?_⟩
    · simp [Except.map, columns, columnsOf, show x - (x - p) = p by omega]
    · cases h
      exact ⟨rfl, by simp; exact ⟨by omega, hs.pos⟩, by simp; omega⟩
  · subst heq
    have hplace : IndentStack.place rule ⟨incs, some p⟩ p blank = .ok ⟨incs, some p⟩ := by
      simp [place, hinherit]
    rw [hplace, hcols, hcolp, Columns.place, if_neg (Nat.lt_irrefl p), if_pos (by simp),
      List.dropWhile_cons_of_neg (by simp), ← hcolp]
    exact ⟨by simp [Except.map, columns], fun s' h => by cases h; exact hs⟩
  · have hpop : IndentStack.place rule ⟨incs, some p⟩ x blank =
        (popIncrements true (p - x) incs).map fun incs' => ⟨incs', some x⟩ := by
      simp only [place, Option.getD_some, hinherit, hgt, Nat.not_lt.2 (Nat.le_of_lt hgt), hstrict,
        if_false, if_true, Bool.false_eq_true]
      cases popIncrements true (p - x) incs <;> rfl
    rw [hpop, hcols, hcolp, Columns.place, if_neg (by omega), ← hcolp]
    by_cases hmem : x ∈ columnsOf p incs
    · obtain ⟨ds', hds, hpos', hsum', hdrop⟩ :=
        popIncrements_of_mem hs.pos hsum (Nat.le_of_lt hgt) hmem
      rw [hds, if_pos hmem]
      refine ⟨by simp [Except.map, columns, hdrop], fun s' h => ?_⟩
      cases h
      exact ⟨rfl, hpos', by simpa using hsum'⟩
    · rw [popIncrements_of_not_mem hs.pos hsum (Nat.le_of_lt hgt) hmem, if_neg hmem]
      exact ⟨rfl, fun s' h => by cases h⟩

end IndentStack

namespace Line

open IndentStack in
/-- From anchored increments, a strict scan and the column discipline give the same levels, or
the same error. -/
theorem scanFrom_levels {rule : IndentRule} (hstrict : rule.strictDedent = true) {ref : Nat}
    (ps : List (List Char × LineEnding)) {s : IndentStack} (hs : s.Anchored ref)
    (number offset : Nat) :
    (scanFrom rule s number offset ps).map (List.map level) =
      Columns.levelsFrom rule.blankLinesInherit ref s.columns number offset ps := by
  induction ps generalizing s number offset with
  | nil => rfl
  | cons p ps ih =>
    obtain ⟨content, ending⟩ := p
    obtain ⟨hcomm, hkeep⟩ := place_columns hstrict hs (indentation content) (Text.isBlank content)
    rw [Columns.levelsFrom, ← hcomm]
    cases hplace : s.place rule (indentation content) (Text.isBlank content) with
    | error f => rw [scanFrom_cons_error hplace]; rfl
    | ok s' =>
      rw [scanFrom_cons_ok hplace]
      show _ = Except.map _ (Columns.levelsFrom _ _ s'.columns _ _ ps)
      rw [← ih (hkeep s' hplace)]
      cases scanFrom rule s' (number + 1)
          (offset + (String.ofList content).utf8ByteSize + ending.byteSize) ps <;>
        simp [Except.map, IndentStack.level, columns]

/-- A strict scan agrees with the column discipline on every text: both stop at the same line
with the same fault, content range and indentation, or both give every line the same level. -/
theorem scan_levels_eq_columns {rule : IndentRule} (hstrict : rule.strictDedent = true)
    (text : String) :
    (scan rule text).map (List.map level) = Columns.levels rule.blankLinesInherit text := by
  rw [scan, Columns.levels]
  cases splitLines text with
  | nil => rfl
  | cons p ps =>
    obtain ⟨first, ending⟩ := p
    let x := indentation first
    have hempty : ({} : IndentStack).place rule x (Text.isBlank first) = .ok ⟨[], some x⟩ := by
      simp [IndentStack.place]
    have hagain : (⟨[], some x⟩ : IndentStack).place rule x (Text.isBlank first) =
        .ok ⟨[], some x⟩ := by
      simp [IndentStack.place]
    have hanchored : (⟨[], some x⟩ : IndentStack).Anchored x := ⟨rfl, by simp, by simp⟩
    rw [scanFrom_cons_ok hempty, ← scanFrom_cons_ok hagain, scanFrom_levels hstrict _ hanchored]
    rfl

theorem scan_levels_eq_columns_misaligned :
    ({} : IndentRule).strictDedent = true ∧
      (scan {} "a:\n    b:\n        c: 1\n  d: 2").map (List.map level) =
        Columns.levels true "a:\n    b:\n        c: 1\n  d: 2" :=
  ⟨rfl, scan_levels_eq_columns rfl _⟩

/- The fourth line dedents to column 2, which is not open: the columns are 0, 4 and 8. -/
example : Columns.levels true "a:\n    b:\n        c: 1\n  d: 2" =
    .error ⟨.misaligned, 4, ⟨23, 29⟩, 2⟩ := by
  rfl

example : Columns.levels true "a:\n  b:\n    c: 1\n\n    d: 2" = .ok [0, 1, 2, 2, 2] := by
  rfl

end Line

end YamlEdit
