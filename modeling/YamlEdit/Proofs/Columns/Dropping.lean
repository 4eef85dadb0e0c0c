import Mathlib.Data.Finset.Basic
import Mathlib.Data.List.TakeWhile
import YamlEdit.Proofs.Columns

/-!
# Dropping lines from a strictly scanned text

Under the strict rule the scan is the column discipline of `Columns.place`, applied to the lines
the rule measures: every line, or every line that holds more than white space when blank lines
inherit their level (`scanFrom_measuredLevels`). This module says when lines can be taken out of
a text without disturbing the others: when they form *closed blocks*. A block is closed when
every measured line after its first is indented deeper than its first, and the lines after it,
up to and including the first measured one, are indented no deeper than its first and no
shallower than the text's first line.

Dropping closed blocks keeps every other measured line at its level
(`measuredLevels_filter_kept`). The proof runs the two scans side by side (`Tracks`): in step
while a kept line is read, and, while dropped lines are read, with the full scan's columns
differing from the other's only by columns opened inside the current block, deeper than its
first line. The first measured line after the block closes those columns, and the two scans
are in step again.
-/

namespace YamlEdit

open YamlEdit.Text

namespace Line

/-- The indentation of a line's content. -/
def indent (l : Line) : Nat :=
  indentation l.text.toList

theorem isBlank_eq (l : Line) : l.isBlank = Text.isBlank l.text.toList := by
  simp [Line.isBlank, Line.text, Token.join, Text.isBlank, String.toList_join, List.all_flatMap,
    Function.comp_def]

end Line

namespace Columns

/-- How the column discipline sees a line's content: its indentation, and whether it is
measured. Every line is, but one that holds nothing but white space when blank lines inherit
their level. -/
def rowOf (inherit : Bool) (content : List Char) : Nat × Bool :=
  (indentation content, !(inherit && isBlank content))

/-- Places a row on the open columns. Before the first line there are none (`none`), and the
first line, blank or not, opens the reference column. `none` comes out when the line has no
place. -/
def placeRow : Option (List Nat) → Nat × Bool → Option (List Nat)
  | none, (x, _) => some [x]
  | some cols, (x, measured) => if measured then (place 0 x cols).toOption else some cols

/-- The levels of the measured rows, in order, or `none` when a row has no place. -/
def measuredLevels : Option (List Nat) → List (Nat × Bool) → Option (List Nat)
  | _, [] => some []
  | cols, r :: rows =>
    match placeRow cols r with
    | none => none
    | some cols' =>
      (measuredLevels (some cols') rows).map fun ls => if r.2 then (cols'.length - 1) :: ls else ls

@[simp] theorem measuredLevels_nil (cols : Option (List Nat)) : measuredLevels cols [] = some [] :=
  rfl

theorem measuredLevels_cons_of_placeRow {cols : Option (List Nat)} {r : Nat × Bool}
    {cols' : List Nat} (h : placeRow cols r = some cols') (rows : List (Nat × Bool)) :
    measuredLevels cols (r :: rows) = (measuredLevels (some cols') rows).map fun ls =>
      if r.2 then (cols'.length - 1) :: ls else ls := by
  rw [measuredLevels, h]

theorem measuredLevels_cons_of_placeRow_none {cols : Option (List Nat)} {r : Nat × Bool}
    (h : placeRow cols r = none) (rows : List (Nat × Bool)) :
    measuredLevels cols (r :: rows) = none := by
  rw [measuredLevels, h]

/-- A line at or left of the innermost open column closes the columns right of it, if it lies on
an open column. -/
theorem place_cons_of_le {ref x top : Nat} {rest : List Nat} (h : x ≤ top) :
    place ref x (top :: rest) =
      if x ∈ top :: rest then .ok ((top :: rest).dropWhile (x < ·))
      else .error (if x < ref then .underflow else .misaligned) := by
  rw [place, if_neg (Nat.not_lt.2 h)]

/-- On columns in decreasing order, dropping those right of an open column leaves it innermost. -/
theorem dropWhile_lt_of_mem {x : Nat} :
    ∀ {cols : List Nat}, cols.Pairwise (· > ·) → x ∈ cols → ∃ R, cols.dropWhile (x < ·) = x :: R
  | a :: rest, hs, hx => by
    rw [List.pairwise_cons] at hs
    by_cases hax : a = x
    · subst hax
      exact ⟨rest, by simp⟩
    · have hrest : x ∈ rest := (List.mem_cons.1 hx).resolve_left (Ne.symm hax)
      rw [List.dropWhile_cons_of_pos (by simpa using hs.1 x hrest)]
      exact dropWhile_lt_of_mem hs.2 hrest

theorem dropWhile_dropWhile_lt {x c : Nat} (h : x ≤ c) :
    ∀ cols : List Nat, (cols.dropWhile (c < ·)).dropWhile (x < ·) = cols.dropWhile (x < ·)
  | [] => rfl
  | a :: rest => by
    by_cases hca : c < a
    · rw [List.dropWhile_cons_of_pos (by simpa using hca),
        List.dropWhile_cons_of_pos (p := (x < ·)) (by simpa using Nat.lt_of_le_of_lt h hca)]
      exact dropWhile_dropWhile_lt h rest
    · rw [List.dropWhile_cons_of_neg (by simpa using hca)]

/-- A placed line is the innermost open column, and the columns stay in decreasing order. -/
theorem place_pairwise {ref x : Nat} {cols cols' : List Nat} (hs : cols.Pairwise (· > ·))
    (h : place ref x cols = .ok cols') : cols'.Pairwise (· > ·) ∧ ∃ R, cols' = x :: R := by
  cases cols with
  | nil =>
    cases h
    exact ⟨by simp, [], rfl⟩
  | cons top rest =>
    by_cases hlt : top < x
    · rw [place, if_pos hlt] at h
      cases h
      refine ⟨List.pairwise_cons.2 ⟨fun a ha => ?_, hs⟩, _, rfl⟩
      rcases List.mem_cons.1 ha with rfl | ha
      · exact hlt
      · exact Nat.lt_trans ((List.pairwise_cons.1 hs).1 a ha) hlt
    · rw [place_cons_of_le (Nat.le_of_not_lt hlt)] at h
      split at h
      · rename_i hmem
        cases h
        exact ⟨hs.sublist (List.dropWhile_sublist _), dropWhile_lt_of_mem hs hmem⟩
      · cases h

/-- A line right of an open column `c` closes only columns right of `c`. -/
theorem place_right_of {ref x c : Nat} {A R cols' : List Nat} (hA : ∀ a ∈ A, c < a) (hx : c < x)
    (h : place ref x (A ++ c :: R) = .ok cols') :
    ∃ A', cols' = A' ++ c :: R ∧ ∀ a ∈ A', c < a := by
  obtain ⟨top, rest, htop⟩ : ∃ top rest, A ++ c :: R = top :: rest := by
    cases A <;> exact ⟨_, _, rfl⟩
  rw [htop] at h
  by_cases hlt : top < x
  · rw [place, if_pos hlt, ← htop] at h
    cases h
    refine ⟨x :: A, rfl, fun a ha => ?_⟩
    rcases List.mem_cons.1 ha with rfl | ha
    · exact hx
    · exact hA a ha
  · rw [place_cons_of_le (Nat.le_of_not_lt hlt), ← htop] at h
    split at h
    · cases h
      rw [List.dropWhile_append]
      split
      · rw [List.dropWhile_cons_of_neg (by simpa using Nat.le_of_lt hx)]
        exact ⟨[], rfl, by simp⟩
      · exact ⟨_, rfl, fun a ha => hA a ((List.dropWhile_sublist _).subset ha)⟩
    · cases h

/-- A line at or left of an open column `c` closes every column right of `c`, and lands on `c`
or on a column left of it. -/
theorem place_left_of {ref x c : Nat} {A R cols' : List Nat} (hA : ∀ a ∈ A, c < a) (hx : x ≤ c)
    (h : place ref x (A ++ c :: R) = .ok cols') :
    x ∈ c :: R ∧ cols' = (c :: R).dropWhile (x < ·) := by
  obtain ⟨top, rest, htop, hle⟩ : ∃ top rest, A ++ c :: R = top :: rest ∧ c ≤ top := by
    cases A with
    | nil => exact ⟨_, _, rfl, Nat.le_refl c⟩
    | cons a A => exact ⟨_, _, rfl, Nat.le_of_lt (hA a List.mem_cons_self)⟩
  rw [htop, place_cons_of_le (Nat.le_trans hx hle), ← htop] at h
  split at h
  · rename_i hmem
    cases h
    have hAx : ∀ a ∈ A, x < a := fun a ha => Nat.lt_of_le_of_lt hx (hA a ha)
    refine ⟨?_, ?_⟩
    · rcases List.mem_append.1 hmem with hmem | hmem
      · exact absurd (hAx x hmem) (Nat.lt_irrefl x)
      · exact hmem
    · rw [List.dropWhile_append, if_pos (by simpa [List.dropWhile_eq_nil_iff] using hAx)]
  · cases h

/-- A line at or left of the column `c` that a scan would open on `K` is placed on `K` as on any
columns that differ from `c`'s only right of `c`. -/
theorem place_of_opens {ref ref' x c : Nat} {K R : List Nat} (hK : K.Pairwise (· > ·))
    (hopen : place ref c K = .ok (c :: R)) (hx : x ∈ c :: R) (hxc : x ≤ c) :
    place ref' x K = .ok ((c :: R).dropWhile (x < ·)) := by
  cases K with
  | nil =>
    cases hopen
    obtain rfl : x = c := List.mem_singleton.1 hx
    simp [place]
  | cons top rest =>
    by_cases htop : top < c
    · rw [place, if_pos htop] at hopen
      cases hopen
      rcases List.mem_cons.1 hx with rfl | hmem
      · rw [place, if_pos htop, List.dropWhile_cons_of_neg (by simp)]
      · have hxtop : x ≤ top := by
          rcases List.mem_cons.1 hmem with rfl | hmem
          · exact Nat.le_refl x
          · exact Nat.le_of_lt ((List.pairwise_cons.1 hK).1 x hmem)
        rw [place_cons_of_le hxtop, if_pos hmem,
          List.dropWhile_cons_of_pos (a := c) (by simpa using Nat.lt_of_le_of_lt hxtop htop)]
    · rw [place_cons_of_le (Nat.le_of_not_lt htop)] at hopen
      split at hopen
      · have hdrop := Except.ok.inj hopen
        have hmem : x ∈ top :: rest := (List.dropWhile_sublist _).subset (hdrop ▸ hx)
        rw [place_cons_of_le (Nat.le_trans hxc (Nat.le_of_not_lt htop)), if_pos hmem, ← hdrop,
          dropWhile_dropWhile_lt hxc]
      · cases hopen

/-- A last row that is not measured adds no level. -/
theorem measuredLevels_append_unmeasured (x : Nat) :
    ∀ (cols : Option (List Nat)) (rows : List (Nat × Bool)),
      measuredLevels cols (rows ++ [(x, false)]) = measuredLevels cols rows
  | cols, [] => by
    obtain ⟨cols', h⟩ : ∃ cols', placeRow cols (x, false) = some cols' := by
      cases cols <;> exact ⟨_, rfl⟩
    rw [List.nil_append, measuredLevels_cons_of_placeRow h]
    rfl
  | cols, r :: rows => by
    rw [List.cons_append, measuredLevels, measuredLevels]
    split
    · rfl
    · rw [measuredLevels_append_unmeasured x _ rows]

/-- A row placed at the end adds its level, if it is measured, to those of the rows before it. -/
theorem measuredLevels_append_singleton (r : Nat × Bool) :
    ∀ (cols : Option (List Nat)) (rows : List (Nat × Bool)) {M : List Nat},
      measuredLevels cols (rows ++ [r]) = some M →
        ∃ M', measuredLevels cols rows = some M' ∧
          ∃ tail, M = M' ++ tail ∧ tail.length = if r.2 then 1 else 0
  | cols, [], M, h => by
    cases hr : placeRow cols r with
    | none => rw [List.nil_append, measuredLevels_cons_of_placeRow_none hr] at h; cases h
    | some cols' =>
      rw [List.nil_append, measuredLevels_cons_of_placeRow hr] at h
      refine ⟨[], rfl, M, rfl, ?_⟩
      cases hm : r.2 <;> simp only [measuredLevels_nil, hm, Option.map_some, Option.some.injEq,
        if_true, if_false, Bool.false_eq_true] at h ⊢ <;> rw [← h] <;> rfl
  | cols, r₀ :: rows, M, h => by
    cases hr : placeRow cols r₀ with
    | none => rw [List.cons_append, measuredLevels_cons_of_placeRow_none hr] at h; cases h
    | some cols' =>
      rw [List.cons_append, measuredLevels_cons_of_placeRow hr] at h
      obtain ⟨M₀, hM₀, rfl⟩ := Option.map_eq_some_iff.1 h
      obtain ⟨M', hM', tail, rfl, hlen⟩ := measuredLevels_append_singleton r (some cols') rows hM₀
      refine ⟨_, by rw [measuredLevels_cons_of_placeRow hr, hM']; rfl, tail, ?_, hlen⟩
      split <;> simp

/-- A last row counts only through whether it is measured and, if it is, its indentation. -/
theorem measuredLevels_append_congr {r r' : Nat × Bool} (h2 : r.2 = r'.2)
    (h1 : r.2 = true → r.1 = r'.1) :
    ∀ (cols : Option (List Nat)) (rows : List (Nat × Bool)),
      measuredLevels cols (rows ++ [r]) = measuredLevels cols (rows ++ [r'])
  | cols, [] => by
    obtain ⟨x, m⟩ := r
    obtain ⟨x', m'⟩ := r'
    simp only at h1 h2
    subst h2
    cases m
    · rw [measuredLevels_append_unmeasured x cols [], measuredLevels_append_unmeasured x' cols []]
    · rw [h1 rfl]
  | cols, r₀ :: rows => by
    rw [List.cons_append, List.cons_append, measuredLevels, measuredLevels]
    split
    · rfl
    · rw [measuredLevels_append_congr h2 h1 _ rows]

/-- The reference column only names the fault of a line that has no place. -/
theorem toOption_place (ref ref' x : Nat) (cols : List Nat) :
    (place ref x cols).toOption = (place ref' x cols).toOption := by
  unfold place
  split
  · rfl
  · split
    · rfl
    · split <;> rfl

end Columns

namespace IndentStack

/-- Under the strict rule, placing a line on anchored increments is placing its row on their
columns. -/
theorem placeRow_columns {rule : IndentRule} (hstrict : rule.strictDedent = true) {ref : Nat}
    {s : IndentStack} (hs : s.Anchored ref) (content : List Char) :
    Columns.placeRow (some s.columns) (Columns.rowOf rule.blankLinesInherit content) =
      (s.place rule (indentation content) (Text.isBlank content)).toOption.map columns := by
  have hcomm := (place_columns hstrict hs (indentation content) (Text.isBlank content)).1
  by_cases hb : (rule.blankLinesInherit && Text.isBlank content) = true
  · rw [if_pos hb] at hcomm
    cases hplace : s.place rule (indentation content) (Text.isBlank content) with
    | error f => rw [hplace] at hcomm; cases hcomm
    | ok s' =>
      rw [hplace] at hcomm
      simp only [Except.map, Except.ok.injEq] at hcomm
      simp [Columns.placeRow, Columns.rowOf, hb, hcomm, Except.toOption]
  · rw [if_neg hb] at hcomm
    rw [Bool.not_eq_true] at hb
    simp only [Columns.placeRow, Columns.rowOf, hb, Bool.not_false, if_true,
      Columns.toOption_place 0 ref, ← hcomm]
    cases s.place rule (indentation content) (Text.isBlank content) <;> rfl

end IndentStack

namespace Line

/-- Whether the scan measures a line: every line is measured, but a blank one when blank lines
inherit their level. -/
def measured (inherit : Bool) (l : Line) : Bool :=
  !(inherit && l.isBlank)

theorem measured_of_not_blank {l : Line} (h : l.isBlank = false) (inherit : Bool) :
    l.measured inherit = true := by
  simp [measured, h]

theorem measured_eq_true_iff {l : Line} {inherit : Bool} :
    l.measured inherit = true ↔ (l.isBlank && inherit) = false := by
  unfold measured
  cases l.isBlank <;> cases inherit <;> decide

theorem measured_eq_false_iff {l : Line} {inherit : Bool} :
    l.measured inherit = false ↔ (l.isBlank && inherit) = true := by
  unfold measured
  cases l.isBlank <;> cases inherit <;> decide

/-- The row of a line for the column discipline. -/
def row (inherit : Bool) (l : Line) : Nat × Bool :=
  Columns.rowOf inherit l.text.toList

@[simp] theorem row_fst (inherit : Bool) (l : Line) : (l.row inherit).1 = l.indent := rfl

@[simp] theorem row_snd (inherit : Bool) (l : Line) : (l.row inherit).2 = l.measured inherit := by
  simp [row, measured, Columns.rowOf, isBlank_eq]

theorem row_eq (inherit : Bool) (l : Line) : l.row inherit = (l.indent, l.measured inherit) :=
  Prod.ext rfl (row_snd inherit l)

section Rows

variable {inherit : Bool}

/-- A line the scan does not measure leaves the columns as they are. -/
theorem placeRow_row_of_unmeasured {l : Line} (hm : l.measured inherit = false)
    (cols : List Nat) : Columns.placeRow (some cols) (l.row inherit) = some cols := by
  simp [row_eq, hm, Columns.placeRow]

/-- A measured line is placed by the column discipline. -/
theorem place_of_placeRow_row {l : Line} (hm : l.measured inherit = true) {cols cols' : List Nat}
    (h : Columns.placeRow (some cols) (l.row inherit) = some cols') :
    Columns.place 0 l.indent cols = .ok cols' := by
  simp only [row_eq, hm, Columns.placeRow, if_true] at h
  cases hp : Columns.place 0 l.indent cols <;> simp_all [Except.toOption]

/-- Placing rows keeps the columns in decreasing order. -/
theorem pairwise_of_placeRow {l : Line} {cols cols' : List Nat} (hs : cols.Pairwise (· > ·))
    (h : Columns.placeRow (some cols) (l.row inherit) = some cols') : cols'.Pairwise (· > ·) := by
  cases hm : l.measured inherit
  · rw [placeRow_row_of_unmeasured hm] at h
    cases h
    exact hs
  · exact (Columns.place_pairwise hs (place_of_placeRow_row hm h)).1

/-- Two line lists with the same blank lines in the same places, whose measured lines have the
same levels, give their non-blank lines the same levels. -/
theorem levels_not_blank_eq :
    ∀ {ls ks : List Line}, ls.map Line.isBlank = ks.map Line.isBlank →
      (ls.filter (measured inherit)).map level = (ks.filter (measured inherit)).map level →
      (ls.filter fun l => !l.isBlank).map level = (ks.filter fun l => !l.isBlank).map level
  | [], [], _, _ => rfl
  | [], _ :: _, hb, _ => by simp at hb
  | _ :: _, [], hb, _ => by simp at hb
  | l :: ls, k :: ks, hb, hlev => by
    simp only [List.map_cons, List.cons.injEq] at hb
    obtain ⟨hlk, hb⟩ := hb
    have hm : l.measured inherit = k.measured inherit := by simp [measured, hlk]
    cases hblank : l.isBlank
    · have hml := measured_of_not_blank hblank inherit
      have hmk : k.measured inherit = true := hm ▸ hml
      rw [List.filter_cons_of_pos hml, List.filter_cons_of_pos hmk, List.map_cons,
        List.map_cons, List.cons.injEq] at hlev
      rw [List.filter_cons_of_pos (by simp [hblank]), List.filter_cons_of_pos (by simp [← hlk, hblank]),
        List.map_cons, List.map_cons, hlev.1, levels_not_blank_eq hb hlev.2]
    · rw [List.filter_cons_of_neg (by simp [hblank]), List.filter_cons_of_neg (by simp [← hlk, hblank])]
      cases hml : l.measured inherit
      · have hmk : k.measured inherit = false := hm ▸ hml
        rw [List.filter_cons_of_neg (by simp [hml]), List.filter_cons_of_neg (by simp [hmk])] at hlev
        exact levels_not_blank_eq hb hlev
      · have hmk : k.measured inherit = true := hm ▸ hml
        rw [List.filter_cons_of_pos hml, List.filter_cons_of_pos hmk, List.map_cons,
          List.map_cons, List.cons.injEq] at hlev
        exact levels_not_blank_eq hb hlev.2

end Rows

/-- A scanned line is blank exactly when its content is. -/
theorem isBlank_lex (content : List Char) (number level : Nat) (range : Span) (ending : LineEnding) :
    Line.isBlank ⟨Lexer.lex (String.ofList content), number, level, range, ending⟩ =
      Text.isBlank content := by
  rw [isBlank_eq, Line.text, Lexer.join_lex, String.toList_ofList]

open IndentStack in
/-- From anchored increments, a strict scan gives the measured lines the levels of the column
discipline, or fails where it fails. -/
theorem scanFrom_measuredLevels {rule : IndentRule} (hstrict : rule.strictDedent = true)
    {ref : Nat} (ps : List (List Char × LineEnding)) {s : IndentStack} (hs : s.Anchored ref)
    (number offset : Nat) :
    (scanFrom rule s number offset ps).toOption.map
        (fun ls => (ls.filter (measured rule.blankLinesInherit)).map level) =
      Columns.measuredLevels (some s.columns)
        (ps.map fun p => Columns.rowOf rule.blankLinesInherit p.1) := by
  induction ps generalizing s number offset with
  | nil => rfl
  | cons p ps ih =>
    obtain ⟨content, ending⟩ := p
    have hrow := placeRow_columns hstrict hs content
    rw [List.map_cons]
    cases hplace : s.place rule (indentation content) (Text.isBlank content) with
    | error f =>
      rw [hplace] at hrow
      rw [scanFrom_cons_error hplace, Columns.measuredLevels_cons_of_placeRow_none hrow]
      rfl
    | ok s' =>
      rw [hplace] at hrow
      rw [scanFrom_cons_ok hplace, Columns.measuredLevels_cons_of_placeRow hrow,
        ← ih ((place_columns hstrict hs _ _).2 s' hplace)]
      cases scanFrom rule s' (number + 1)
          (offset + (String.ofList content).utf8ByteSize + ending.byteSize) ps <;>
        by_cases hb : Text.isBlank content <;> cases rule.blankLinesInherit <;>
        simp [Except.map, Except.toOption, isBlank_lex, hb, measured, Columns.rowOf,
          IndentStack.level, columns]

/-- A strict scan gives the measured lines of a text the levels of the column discipline, or
fails where it fails. -/
theorem scan_measuredLevels {rule : IndentRule} (hstrict : rule.strictDedent = true)
    (text : String) :
    (scan rule text).toOption.map
        (fun ls => (ls.filter (measured rule.blankLinesInherit)).map level) =
      Columns.measuredLevels none
        ((splitLines text).map fun p => Columns.rowOf rule.blankLinesInherit p.1) := by
  rw [scan]
  cases splitLines text with
  | nil => rfl
  | cons p ps =>
    obtain ⟨first, ending⟩ := p
    -- the first line, blank or not, leaves its own indentation as the only column
    let x := indentation first
    have hempty : ({} : IndentStack).place rule x (Text.isBlank first) = .ok ⟨[], some x⟩ := by
      simp [IndentStack.place]
    have hanchored : (⟨[], some x⟩ : IndentStack).Anchored x := ⟨rfl, by simp, by simp⟩
    have hfirst : Columns.placeRow none (Columns.rowOf rule.blankLinesInherit first) =
        some (⟨[], some x⟩ : IndentStack).columns := rfl
    rw [scanFrom_cons_ok hempty, List.map_cons, Columns.measuredLevels_cons_of_placeRow hfirst,
      ← scanFrom_measuredLevels hstrict ps hanchored]
    cases scanFrom rule ⟨[], some x⟩ 2 (0 + (String.ofList first).utf8ByteSize + ending.byteSize)
        ps <;>
      by_cases hb : Text.isBlank first <;> cases rule.blankLinesInherit <;>
      simp [Except.map, Except.toOption, isBlank_lex, hb, measured, Columns.rowOf,
        IndentStack.level, IndentStack.columns, IndentStack.columnsOf]

/-- The lines numbered `s` to `e` form a closed block: every line after the first that the scan
measures is indented deeper than the first, and the lines after the block, up to and including
the first measured one, are indented no deeper than the first and no shallower than the text's
first line. -/
def ClosedBlock (inherit : Bool) (lines : List Line) (s e : Nat) : Prop :=
  ∀ first ∈ lines, first.number = s →
    (∀ l ∈ lines, s < l.number → l.number ≤ e → l.measured inherit = true →
      first.indent < l.indent) ∧
    ∀ l ∈ lines, e < l.number →
      (∀ l' ∈ lines, e < l'.number → l'.number < l.number → l'.measured inherit = false) →
      ∀ top ∈ lines.head?, top.indent ≤ l.indent ∧ l.indent ≤ first.indent

instance (inherit : Bool) (lines : List Line) (s e : Nat) :
    Decidable (ClosedBlock inherit lines s e) :=
  inferInstanceAs (Decidable (∀ first ∈ lines, first.number = s →
    (∀ l ∈ lines, s < l.number → l.number ≤ e → l.measured inherit = true →
      first.indent < l.indent) ∧
    ∀ l ∈ lines, e < l.number →
      (∀ l' ∈ lines, e < l'.number → l'.number < l.number → l'.measured inherit = false) →
      ∀ top ∈ lines.head?, top.indent ≤ l.indent ∧ l.indent ≤ first.indent))

/-- Lines numbered in `D` are dropped, and `D` is the union of closed blocks, each opening on a
measured line. -/
structure BlockDrop (inherit : Bool) (lines : List Line) (blocks : List (Nat × Nat))
    (D : Finset Nat) : Prop where
  mem_iff : ∀ k, k ∈ D ↔ ∃ b ∈ blocks, b.1 ≤ k ∧ k ≤ b.2
  start : ∀ b ∈ blocks, ∃ first ∈ lines, first.number = b.1 ∧ first.measured inherit = true
  closed : ∀ b ∈ blocks, ClosedBlock inherit lines b.1 b.2

/-- The measured levels of a line list, split at its first line. -/
theorem measuredLevels_cons_row {inherit : Bool} {cols : Option (List Nat)} {cols' : List Nat}
    {l : Line} (h : Columns.placeRow cols (l.row inherit) = some cols') (ls : List Line)
    (hout : Columns.measuredLevels cols ((l :: ls).map (row inherit)) =
      some (((l :: ls).filter (measured inherit)).map level)) :
    Columns.measuredLevels (some cols') (ls.map (row inherit)) =
        some ((ls.filter (measured inherit)).map level) ∧
      (l.measured inherit = true → cols'.length - 1 = l.level) := by
  rw [List.map_cons, Columns.measuredLevels_cons_of_placeRow h] at hout
  cases hm : l.measured inherit <;>
    simp_all [Option.map_eq_some_iff]

/-- The columns a scan of the kept lines would leave on opening the column `c`, when the
columns left of `c` are `R`: before any kept line, `c` is the reference column. -/
def Opens (ref : Nat) : Option (List Nat) → Nat → List Nat → Prop
  | none, c, R => c = ref ∧ R = []
  | some K, c, R => K.Pairwise (· > ·) ∧ Columns.place 0 c K = .ok (c :: R)

section Dropping

variable {inherit : Bool} {L : List Line} {blocks : List (Nat × Nat)} {D : Finset Nat} {ref : Nat}

/-- How the full scan, with columns `O` before line `j`, and the scan of the kept lines, with
columns `K`, relate. Either they are in step, and no block opened before `j` reaches it; or a
block `b` is being dropped, opened on the line `first`, and the full scan's columns are those
the other would leave on opening `first`'s column, with some columns right of it. No block
opened before `b` reaches it, and no line after `b` and before `j` is measured. -/
inductive Tracks (inherit : Bool) (L : List Line) (blocks : List (Nat × Nat)) (ref j : Nat) :
    List Nat → Option (List Nat) → Prop
  | inStep {O : List Nat} (hopen : ∀ b ∈ blocks, b.1 < j → b.2 < j) :
      Tracks inherit L blocks ref j O (some O)
  | dropping {O : List Nat} {K : Option (List Nat)} {b : Nat × Nat} {first : Line} (A R : List Nat)
      (hb : b ∈ blocks) (hfirst : first ∈ L) (hnum : first.number = b.1) (hlt : b.1 < j)
      (hbefore : ∀ b' ∈ blocks, b'.1 < b.1 → b'.2 < b.1)
      (hquiet : ∀ l ∈ L, b.2 < l.number → l.number < j → l.measured inherit = false)
      (hO : O = A ++ first.indent :: R) (hA : ∀ a ∈ A, first.indent < a)
      (hK : Opens ref K first.indent R) : Tracks inherit L blocks ref j O K

/-- A line the scan does not measure extends a run of such lines. -/
theorem quiet_succ (hnodup : (L.map Line.number).Nodup) {e j : Nat}
    (hquiet : ∀ l ∈ L, e < l.number → l.number < j → l.measured inherit = false) {l : Line}
    (hl : l ∈ L) (hnum : l.number = j) (hm : l.measured inherit = false) :
    ∀ l' ∈ L, e < l'.number → l'.number < j + 1 → l'.measured inherit = false := by
  intro l' hl' h1 h2
  rcases Nat.lt_or_ge l'.number j with h | h
  · exact hquiet l' hl' h1 h
  · rw [List.inj_on_of_nodup_map hnodup hl' hl (by omega)]
    exact hm

variable (hd : BlockDrop inherit L blocks D)
include hd

/-- No block that opened before a kept line reaches it. -/
theorem BlockDrop.before_of_kept {j : Nat} (hj : j ∉ D) : ∀ b ∈ blocks, b.1 < j + 1 → b.2 < j + 1 := by
  intro b hb hlt
  by_contra hge
  exact hj ((hd.mem_iff j).2 ⟨b, hb, by omega, by omega⟩)

/-- A dropped line that no earlier block reaches opens a block. -/
theorem BlockDrop.opens_of_before {j : Nat} (hopen : ∀ b ∈ blocks, b.1 < j → b.2 < j)
    (hj : j ∈ D) : ∃ b ∈ blocks, b.1 = j ∧ j ≤ b.2 := by
  obtain ⟨b, hb, h1, h2⟩ := (hd.mem_iff j).1 hj
  refine ⟨b, hb, ?_, h2⟩
  by_contra hne
  have := hopen b hb (by omega)
  omega

/-- A line that opens a block is measured. -/
theorem BlockDrop.measured_start (hnodup : (L.map Line.number).Nodup) {b : Nat × Nat}
    (hb : b ∈ blocks) {l : Line} (hl : l ∈ L) (hnum : l.number = b.1) :
    l.measured inherit = true := by
  obtain ⟨first, hfirst, hfnum, hm⟩ := hd.start b hb
  rw [List.inj_on_of_nodup_map hnodup hl hfirst (hnum.trans hfnum.symm)]
  exact hm

/-- Over lines numbered from one, no block opens before the first line. -/
theorem BlockDrop.one_le_start (hnums : L.map Line.number = List.range' 1 L.length)
    {b : Nat × Nat} (hb : b ∈ blocks) : 1 ≤ b.1 := by
  obtain ⟨l, hl, hlnum, -⟩ := hd.start b hb
  have := List.mem_range'_1.1 (hnums ▸ List.mem_map_of_mem (f := Line.number) hl)
  omega

/-- Entering a dropped block: the full scan opens the column of its first line. -/
theorem Tracks.enter {j : Nat} {K : Option (List Nat)} {l : Line} {R : List Nat}
    (hopen : ∀ b ∈ blocks, b.1 < j → b.2 < j) (hj : j ∈ D) (hl : l ∈ L) (hnum : l.number = j)
    (hK : Opens ref K l.indent R) : Tracks inherit L blocks ref (j + 1) (l.indent :: R) K := by
  obtain ⟨b, hb, hstart, hend⟩ := hd.opens_of_before hopen hj
  refine .dropping [] R hb hl (hnum.trans hstart.symm) (by omega) (fun b' hb' hlt => ?_)
    (fun l' _ h1 h2 => by omega) rfl (by simp) hK
  rw [hstart] at hlt ⊢
  exact hopen b' hb' hlt

omit hd in
/-- After a block, the first measured line lands on its first line's column or left of it, and
the scan of the kept lines places it just as the full scan does. -/
theorem Opens.land {K : Option (List Nat)} {c x : Nat} {A R O' : List Nat}
    (hK : Opens ref K c R) (hA : ∀ a ∈ A, c < a) (hxref : ref ≤ x) (hxc : x ≤ c)
    (hplace : Columns.place 0 x (A ++ c :: R) = .ok O') :
    Columns.placeRow K (x, true) = some O' ∧ ∃ R', O' = x :: R' ∧ Opens ref K x R' := by
  obtain ⟨hmem, rfl⟩ := Columns.place_left_of hA hxc hplace
  cases K with
  | none =>
    obtain ⟨rfl, rfl⟩ := hK
    obtain rfl : x = c := Nat.le_antisymm hxc hxref
    exact ⟨by simp [Columns.placeRow], [], by simp, rfl, rfl⟩
  | some K =>
    obtain ⟨hpair, hopen⟩ := hK
    have hx : Columns.place 0 x K = .ok ((c :: R).dropWhile (x < ·)) :=
      Columns.place_of_opens hpair hopen hmem hxc
    obtain ⟨R', hR'⟩ := (Columns.place_pairwise hpair hx).2
    exact ⟨by simp [Columns.placeRow, hx, Except.toOption], R', hR', hpair, hR' ▸ hx⟩

omit hd in
/-- An unmeasured line after a block that the kept lines start with lies on the reference
column. -/
theorem Opens.blank {K : Option (List Nat)} {c x : Nat} {R : List Nat} (hK : Opens ref K c R)
    (hxref : ref ≤ x) (hxc : x ≤ c) :
    ∃ K', Columns.placeRow K (x, false) = some K' ∧ Opens ref (some K') c R := by
  cases K with
  | none =>
    obtain ⟨rfl, rfl⟩ := hK
    obtain rfl : x = c := Nat.le_antisymm hxc hxref
    exact ⟨[x], rfl, by simp, by simp [Columns.place]⟩
  | some K => exact ⟨K, rfl, hK⟩

/-- The first line after a dropped block that the scan measures, or that the kept lines start
with, lies between the reference column and the column of the block's first line. -/
theorem BlockDrop.landing_bounds (href : ∀ top ∈ L.head?, top.indent = ref) {j : Nat}
    {b : Nat × Nat} {first : Line} (hb : b ∈ blocks) (hfirst : first ∈ L)
    (hnum : first.number = b.1)
    (hquiet : ∀ l ∈ L, b.2 < l.number → l.number < j → l.measured inherit = false) {l : Line}
    (hl : l ∈ L) (hlnum : l.number = j) (hpast : b.2 < j) :
    ref ≤ l.indent ∧ l.indent ≤ first.indent := by
  cases hL : L with
  | nil => simp [hL] at hl
  | cons top rest =>
    rw [hL] at hfirst hl hquiet href
    have hclosed := hd.closed b hb
    rw [hL] at hclosed
    have := (hclosed first hfirst hnum).2 l hl (by omega)
      (fun l' hl' h1 h2 => hquiet l' hl' h1 (by omega)) top (by simp)
    rw [href top (by simp)] at this
    exact this

/-- The first line after a dropped block that the scan measures, if it lands on the column of the
block's first line or left of it and is dropped too, lies in no block opened before it: the
blocks opened inside the dropped one end with unmeasured lines at most. -/
theorem BlockDrop.before_of_landing {j : Nat}
    {b : Nat × Nat} {first : Line} (hb : b ∈ blocks) (hfirst : first ∈ L)
    (hnum : first.number = b.1) (hlt : b.1 < j) (hbefore : ∀ b' ∈ blocks, b'.1 < b.1 → b'.2 < b.1)
    (hquiet : ∀ l ∈ L, b.2 < l.number → l.number < j → l.measured inherit = false) {l : Line}
    (hl : l ∈ L) (hlnum : l.number = j) (hm : l.measured inherit = true)
    (hle : l.indent ≤ first.indent) :
    ∀ b' ∈ blocks, b'.1 < j → b'.2 < j := by
  intro b' hb' hlt'
  by_contra hge
  obtain ⟨first', hfirst', hnum', hm'⟩ := hd.start b' hb'
  have hdeep' : first'.indent < l.indent :=
    (hd.closed b' hb' first' hfirst' hnum').1 l hl (by omega) (by omega) hm
  rcases Nat.lt_trichotomy b'.1 b.1 with h | h | h
  · have := hbefore b' hb' h
    omega
  · have := (hd.closed b' hb' first hfirst (hnum.trans h.symm)).1 l hl (by omega) (by omega) hm
    omega
  · by_cases hin : b'.1 ≤ b.2
    · have := (hd.closed b hb first hfirst hnum).1 first' hfirst' (by omega) (by omega) hm'
      omega
    · have := hquiet first' hfirst' (by omega) (by omega)
      rw [hm'] at this
      cases this

/-- One dropped line: the full scan moves on, the other stays. -/
theorem Tracks.step_dropped (hnodup : (L.map Line.number).Nodup)
    (href : ∀ top ∈ L.head?, top.indent = ref) {j : Nat} {O O' : List Nat}
    {K : Option (List Nat)} {l : Line} (ht : Tracks inherit L blocks ref j O K) (hl : l ∈ L)
    (hnum : l.number = j) (hj : j ∈ D) (hO : O.Pairwise (· > ·))
    (hstep : Columns.placeRow (some O) (l.row inherit) = some O') :
    Tracks inherit L blocks ref (j + 1) O' K := by
  cases ht with
  | inStep hopen =>
    obtain ⟨b, hb, hstart, -⟩ := hd.opens_of_before hopen hj
    have hm := hd.measured_start hnodup hb hl (hnum.trans hstart.symm)
    have hplace := place_of_placeRow_row hm hstep
    obtain ⟨-, R, rfl⟩ := Columns.place_pairwise hO hplace
    exact Tracks.enter hd hopen hj hl hnum ⟨hO, hplace⟩
  | @dropping _ b first A R hb hfirst hfnum hlt hbefore hquiet hOeq hA hK =>
    subst hOeq
    by_cases hin : j ≤ b.2
    · -- inside the block, a line is unmeasured or opens columns right of its first line
      cases hm : l.measured inherit
      · rw [placeRow_row_of_unmeasured hm] at hstep
        cases hstep
        exact .dropping A R hb hfirst hfnum (by omega) hbefore (fun l' _ h1 h2 => by omega) rfl
          hA hK
      · have hdeep := (hd.closed b hb first hfirst hfnum).1 l hl (by omega) (by omega) hm
        obtain ⟨A', rfl, hA'⟩ := Columns.place_right_of hA hdeep (place_of_placeRow_row hm hstep)
        exact .dropping A' R hb hfirst hfnum (by omega) hbefore (fun l' _ h1 h2 => by omega) rfl
          hA' hK
    · -- after the block, an unmeasured line waits and a measured one opens the next block
      cases hm : l.measured inherit
      · rw [placeRow_row_of_unmeasured hm] at hstep
        cases hstep
        exact .dropping A R hb hfirst hfnum (by omega) hbefore
          (quiet_succ hnodup hquiet hl hnum hm) rfl hA hK
      · obtain ⟨hxref, hxc⟩ :=
          hd.landing_bounds href hb hfirst hfnum hquiet hl hnum (by omega)
        obtain ⟨-, R', rfl, hK'⟩ := hK.land hA hxref hxc (place_of_placeRow_row hm hstep)
        exact Tracks.enter hd (hd.before_of_landing hb hfirst hfnum hlt hbefore hquiet hl hnum
          hm hxc) hj hl hnum hK'

/-- One kept line: both scans move on, and if the line is measured they are in step again and
give it the same level. -/
theorem Tracks.step_kept (hnodup : (L.map Line.number).Nodup)
    (href : ∀ top ∈ L.head?, top.indent = ref) {j : Nat} {O O' : List Nat}
    {K : Option (List Nat)} {l : Line} (ht : Tracks inherit L blocks ref j O K) (hl : l ∈ L)
    (hnum : l.number = j) (hj : j ∉ D)
    (hstep : Columns.placeRow (some O) (l.row inherit) = some O') :
    ∃ K', Columns.placeRow K (l.row inherit) = some K' ∧
      Tracks inherit L blocks ref (j + 1) O' (some K') ∧ (l.measured inherit = true → K' = O') := by
  cases ht with
  | inStep hopen => exact ⟨O', hstep, .inStep (hd.before_of_kept hj), fun _ => rfl⟩
  | @dropping _ b first A R hb hfirst hfnum hlt hbefore hquiet hOeq hA hK =>
    subst hOeq
    have hpast : b.2 < j := by
      by_contra hin
      exact hj ((hd.mem_iff j).2 ⟨b, hb, by omega, by omega⟩)
    obtain ⟨hxref, hxc⟩ := hd.landing_bounds href hb hfirst hfnum hquiet hl hnum hpast
    cases hm : l.measured inherit
    · rw [placeRow_row_of_unmeasured hm] at hstep
      cases hstep
      obtain ⟨K', hK', hopens⟩ := hK.blank hxref hxc
      exact ⟨K', by rw [row_eq, hm]; exact hK', .dropping A R hb hfirst hfnum (by omega)
        hbefore (quiet_succ hnodup hquiet hl hnum hm) rfl hA hopens, fun h => by cases h⟩
    · obtain ⟨hrow, -⟩ := hK.land hA hxref hxc (place_of_placeRow_row hm hstep)
      exact ⟨O', by rw [row_eq, hm]; exact hrow, .inStep (hd.before_of_kept hj), fun _ => rfl⟩

/-- Along the lines from `j` on, a full scan in relation with a scan of the kept lines gives every
measured kept line the level the full scan gives it. -/
theorem Tracks.run (hnodup : (L.map Line.number).Nodup) (href : ∀ top ∈ L.head?, top.indent = ref) :
    ∀ (ls : List Line) {j : Nat} {O : List Nat} {K : Option (List Nat)},
      ls.map Line.number = List.range' j ls.length → (∀ l ∈ ls, l ∈ L) →
      Tracks inherit L blocks ref j O K → O.Pairwise (· > ·) →
      Columns.measuredLevels (some O) (ls.map (row inherit)) =
        some ((ls.filter (measured inherit)).map level) →
      Columns.measuredLevels K ((ls.filter fun l => l.number ∉ D).map (row inherit)) =
        some (((ls.filter fun l => l.number ∉ D).filter (measured inherit)).map level)
  | [], _, _, _, _, _, _, _, _ => rfl
  | l :: ls, j, O, K, hnums, hmem, ht, hO, horig => by
    simp only [List.map_cons, List.length_cons, List.range'_succ, List.cons.injEq] at hnums
    obtain ⟨hnum, hnums⟩ := hnums
    have hl := hmem l List.mem_cons_self
    have hmem' : ∀ l' ∈ ls, l' ∈ L := fun l' hl' => hmem l' (List.mem_cons_of_mem l hl')
    cases hstep : Columns.placeRow (some O) (l.row inherit) with
    | none =>
      rw [List.map_cons, Columns.measuredLevels_cons_of_placeRow_none hstep] at horig
      cases horig
    | some O' =>
      obtain ⟨hrest, hlevel⟩ := measuredLevels_cons_row hstep ls horig
      have hO' := pairwise_of_placeRow hO hstep
      by_cases hj : l.number ∈ D
      · have ht' := Tracks.step_dropped hd hnodup href ht hl hnum (hnum ▸ hj) hO hstep
        rw [List.filter_cons_of_neg (by simpa using hj)]
        exact Tracks.run hnodup href ls hnums hmem' ht' hO' hrest
      · obtain ⟨K', hK', ht', hsame⟩ := Tracks.step_kept hd hnodup href ht hl hnum (hnum ▸ hj) hstep
        rw [List.filter_cons_of_pos (by simpa using hj), List.map_cons,
          Columns.measuredLevels_cons_of_placeRow hK', Tracks.run hnodup href ls hnums hmem' ht' hO' hrest]
        cases hm : l.measured inherit
        · simp [hm]
        · simp [hm, hsame hm, hlevel hm]

/-- Dropping closed blocks from a scanned text keeps every other measured line at its level: the
column discipline gives the kept lines, in order, the levels the whole text gives them. -/
theorem measuredLevels_filter_kept (hnums : L.map Line.number = List.range' 1 L.length)
    (horig : Columns.measuredLevels none (L.map (row inherit)) =
      some ((L.filter (measured inherit)).map level)) :
    Columns.measuredLevels none ((L.filter fun l => l.number ∉ D).map (row inherit)) =
      some (((L.filter fun l => l.number ∉ D).filter (measured inherit)).map level) := by
  cases hL : L with
  | nil => rfl
  | cons first rest =>
    subst hL
    have hnodup : ((first :: rest).map Line.number).Nodup := by
      rw [hnums]
      exact List.nodup_range' 1
    have hstart : ∀ b ∈ blocks, 1 ≤ b.1 := fun b hb => hd.one_le_start hnums hb
    simp only [List.map_cons, List.length_cons, List.range'_succ, List.cons.injEq] at hnums
    obtain ⟨hnum, hnums⟩ := hnums
    have href : ∀ top ∈ (first :: rest).head?, top.indent = first.indent := by simp
    have hmem : ∀ l ∈ rest, l ∈ first :: rest := fun l hl => List.mem_cons_of_mem first hl
    have hfirst : Columns.placeRow none (first.row inherit) = some [first.indent] := rfl
    obtain ⟨hrest, hlevel⟩ := measuredLevels_cons_row hfirst rest horig
    by_cases h1 : 1 ∈ D
    · obtain ⟨b, hb, hb1, hb2⟩ :=
        hd.opens_of_before (fun b hb hlt => absurd (hstart b hb) (by omega)) h1
      have ht : Tracks inherit (first :: rest) blocks first.indent 2 [first.indent] none :=
        .dropping [] [] hb List.mem_cons_self (hnum.trans hb1.symm) (by omega)
          (fun b' hb' hlt => absurd (hstart b' hb') (by omega)) (fun l _ h1 h2 => by omega) rfl
          (by simp) ⟨rfl, rfl⟩
      rw [List.filter_cons_of_neg (by simpa [hnum] using h1)]
      exact Tracks.run hd hnodup href rest hnums hmem ht (by simp) hrest
    · rw [List.filter_cons_of_pos (by simpa [hnum] using h1), List.map_cons,
        Columns.measuredLevels_cons_of_placeRow hfirst,
        Tracks.run hd hnodup href rest hnums hmem (.inStep (hd.before_of_kept h1)) (by simp) hrest]
      cases hm : first.measured inherit
      · simp [hm]
      · simp [hm, ← hlevel hm]

end Dropping

end Line

end YamlEdit
