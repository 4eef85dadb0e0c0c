import YamlEdit.Proofs.Delete
import YamlEdit.Proofs.Relabel
import YamlEdit.Proofs.Lexer.Words
import YamlEdit.Proofs.Columns.Tolerance

/-!
# Deleting closed blocks, then parsing again

A deletion drops, for each target that starts its line, the lines from its start line to its end
line. The end line counts only lines that hold nodes, so a comment or a blank line at the end of a
block stays, and if it is indented deeper than the line after the block, it opens a column that the
next dedent does not match: the rendered text need not scan again.

It does when every dropped block is closed (`Line.ClosedBlock`), under every rule: the text a
deletion of block targets renders parses again, and under the strict rule every non-blank line
keeps its level (`parse_render_delete`). The strict rule is the column discipline of
`Columns.Dropping`; the permissive rule is followed by domination of stacks (`Columns.Tolerance`).

The rendered lines are the kept lines, but the last one ends as the source did (`Recut`): an empty
one may vanish, and a carriage return that ends it goes into its terminator. Neither changes what
the scan measures, but for a blank line where the rule measures blank lines: its indentation
shrinks by the carriage return, and the scan may fail on it.
-/

namespace YamlEdit

open Node Text

/-- White space at the end of a text that is not blank does not move its indentation. -/
theorem indentation_append_of_not_blank {xs : List Char} (h : isBlank xs = false)
    (ys : List Char) : indentation (xs ++ ys) = indentation xs := by
  induction xs with
  | nil => simp [isBlank] at h
  | cons c xs ih =>
    by_cases hc : isWhiteSpace c
    · simp only [isBlank, List.all_cons, hc, Bool.true_and] at h
      have := ih h
      simp only [indentation, List.cons_append, List.takeWhile_cons_of_pos hc,
        List.length_cons] at this ⊢
      rw [this]
    · simp [indentation, List.takeWhile_cons_of_neg hc]

/-- A member of a filtered list that is not its last is no last member of the list. -/
theorem mem_dropLast_of_mem_dropLast_filter {α : Type} {p : α → Bool} {L : List α} {a : α}
    (h : a ∈ (L.filter p).dropLast) : a ∈ L.dropLast := by
  rcases List.eq_nil_or_concat L with rfl | ⟨L', z, rfl⟩
  · simp at h
  · rw [List.concat_eq_append, List.dropLast_concat]
    rw [List.concat_eq_append, List.filter_append] at h
    by_cases hz : p z
    · rw [List.filter_singleton, hz, cond_true, List.dropLast_concat] at h
      exact List.mem_of_mem_filter h
    · rw [List.filter_singleton, show p z = false by simpa using hz, cond_false,
        List.append_nil] at h
      exact List.mem_of_mem_filter ((List.dropLast_sublist _).subset h)

/-- Terminated cut pieces, and one cut piece after them, are cut again into themselves. -/
theorem cutLines_spell_append_singleton {pre : List (List Char × LineEnding)}
    (hpre : ∀ p ∈ pre, CutPiece p) (hterm : ∀ p ∈ pre, p.2 ≠ .unterminated)
    {q : List Char × LineEnding} (hq : CutPiece q) : cutLines [] (spell (pre ++ [q])) = pre ++ [q] := by
  refine cutLines_spell (fun p hp => ?_) (fun p hp => ?_)
  · rcases List.mem_append.1 hp with hp | hp
    · exact hpre p hp
    · rw [List.mem_singleton.1 hp]
      exact hq
  · rw [List.dropLast_concat] at hp
    exact hterm p hp

/-- How the contents of a rendered text, cut into lines again, stand to the lines it was rendered
from: they are the lines' own contents; or the last line, empty and left without a terminator, is
no line at all; or the carriage return that ended the last line has gone into its terminator. -/
inductive Recut : List (List Char) → List Line → Prop
  | same (ls : List Line) : Recut (ls.map fun l => l.text.toList) ls
  | emptyLast (pre : List Line) {z : Line} (hz : z.text.toList = []) :
      Recut (pre.map fun l => l.text.toList) (pre ++ [z])
  | carriageReturn (pre : List Line) {z : Line} {z₀ : List Char} (hz : z.text.toList = z₀ ++ ['\r']) :
      Recut (pre.map (fun l => l.text.toList) ++ [z₀]) (pre ++ [z])

/-- Lines rendered with their own terminators, but the last, which ends as `ending` says, are cut
again into their own contents, but for the last one. -/
theorem recut_splitLines_endWith (ls : List Line) (hcut : ∀ l ∈ ls, CutPiece l.piece)
    (hterm : ∀ l ∈ ls.dropLast, l.ending ≠ .unterminated) (ending : LineEnding) :
    Recut ((splitLines (joinLines (Edit.endWith ending
      (ls.map fun l => ⟨l.text, l.ending⟩)))).map Prod.fst) ls := by
  rcases List.eq_nil_or_concat ls with rfl | ⟨pre, z, rfl⟩
  · exact .same []
  rw [List.concat_eq_append] at hcut hterm ⊢
  rw [List.dropLast_concat] at hterm
  have hpre : ∀ p ∈ pre.map Line.piece, CutPiece p := fun p hp => by
    obtain ⟨l, hl, rfl⟩ := List.mem_map.1 hp
    exact hcut l (List.mem_append_left _ hl)
  have hpreterm : ∀ p ∈ pre.map Line.piece, p.2 ≠ .unterminated := fun p hp => by
    obtain ⟨l, hl, rfl⟩ := List.mem_map.1 hp
    exact hterm l hl
  have hchars : (joinLines (Edit.endWith ending ((pre ++ [z]).map fun l => ⟨l.text, l.ending⟩))).toList =
      spell (pre.map Line.piece) ++ (z.text.toList ++ ending.text.toList) := by
    rw [List.map_append, List.map_singleton, Edit.endWith_append_singleton, toList_joinLines]
    simp [spell, Line.piece, List.flatMap_map]
  have hpreContents : (pre.map Line.piece).map Prod.fst = pre.map fun l => l.text.toList := by
    simp [Line.piece, Function.comp_def]
  rw [splitLines, hchars]
  have hn : '\n' ∉ z.text.toList := (hcut z (by simp)).1
  by_cases hcr : ending = .lf ∧ z.text.toList.getLast? = some '\r'
  · obtain ⟨rfl, hlastcr⟩ := hcr
    obtain ⟨z₀, hz₀⟩ : ∃ z₀, z.text.toList = z₀ ++ ['\r'] :=
      ⟨z.text.toList.dropLast, (List.dropLast_append_getLast? _ hlastcr).symm⟩
    have hspell : spell (pre.map Line.piece) ++ (z.text.toList ++ LineEnding.lf.text.toList) =
        spell (pre.map Line.piece ++ [(z₀, .crlf)]) := by
      simp [spell, hz₀, LineEnding.text]
    have hz₀n : '\n' ∉ z₀ := fun h => hn (by rw [hz₀]; exact List.mem_append_left _ h)
    rw [hspell, cutLines_spell_append_singleton hpre hpreterm ⟨hz₀n, by simp, by simp⟩,
      List.map_append, hpreContents]
    exact .carriageReturn pre hz₀
  by_cases hempty : ending = .unterminated ∧ z.text.toList = []
  · obtain ⟨rfl, hz⟩ := hempty
    have hspell : spell (pre.map Line.piece) ++ (z.text.toList ++ LineEnding.unterminated.text.toList) =
        spell (pre.map Line.piece) := by
      simp [hz, LineEnding.text]
    rw [hspell, cutLines_spell hpre (fun p hp => hpreterm p ((List.dropLast_sublist _).subset hp)),
      hpreContents]
    exact .emptyLast pre hz
  · have hcutz : CutPiece (z.text.toList, ending) :=
      ⟨hn, fun hlf hlastcr => hcr ⟨hlf, hlastcr⟩, fun hun hz => hempty ⟨hun, hz⟩⟩
    have hspell : spell (pre.map Line.piece) ++ (z.text.toList ++ ending.text.toList) =
        spell (pre.map Line.piece ++ [(z.text.toList, ending)]) := by
      simp [spell]
    rw [hspell, cutLines_spell_append_singleton hpre hpreterm hcutz, List.map_append,
      hpreContents]
    have hsame : pre.map (fun l => l.text.toList) ++ [(z.text.toList, ending)].map Prod.fst =
        (pre ++ [z]).map fun l => l.text.toList := by
      simp
    rw [hsame]
    exact .same _

/-- A carriage return at the end of a line that holds more than white space does not move its
indentation, and a line is blank with it exactly when it is blank without it. -/
theorem rowOf_append_carriageReturn (inherit : Bool) {z₀ : List Char}
    (h : isBlank (z₀ ++ ['\r']) = false) :
    Columns.rowOf inherit z₀ = Columns.rowOf inherit (z₀ ++ ['\r']) := by
  have hblank : isBlank z₀ = false := by
    simpa [isBlank, List.all_append, show isWhiteSpace '\r' = true by decide] using h
  simp [Columns.rowOf, hblank, h, indentation_append_of_not_blank hblank]

theorem isBlank_append_carriageReturn (z₀ : List Char) :
    isBlank (z₀ ++ ['\r']) = isBlank z₀ := by
  simp [isBlank, List.all_append, show isWhiteSpace '\r' = true by decide]

/-- When the rule measures blank lines, no blank line ends in a carriage return of its own. -/
def NoBlankCarriageReturn (inherit : Bool) (ls : List Line) : Prop :=
  inherit = false → ∀ l ∈ ls, l.isBlank = true → l.text.toList.getLast? ≠ some '\r'

theorem stackRow_eq_text : Line.stackRow = fun l => (indentation l.text.toList, isBlank l.text.toList) :=
  funext fun l => by simp [Line.stackRow, Line.indent, Line.isBlank_eq]

theorem isBlank_eq_text : Line.isBlank = fun l => isBlank l.text.toList :=
  funext Line.isBlank_eq

/-- Lines cut again as they were rendered give the column discipline the levels the rendered lines
had, but for an empty last line that is no longer there. -/
theorem measuredLevels_recut {inherit : Bool} {cs : List (List Char)} {ks : List Line}
    (hrc : Recut cs ks) (hcr : NoBlankCarriageReturn inherit ks)
    (hks : Columns.measuredLevels none (ks.map (Line.row inherit)) =
      some ((ks.filter (Line.measured inherit)).map Line.level)) :
    ∃ ks' : List Line, cs.map isBlank = ks'.map Line.isBlank ∧
      Columns.measuredLevels none (cs.map (Columns.rowOf inherit)) =
        some ((ks'.filter (Line.measured inherit)).map Line.level) ∧
      ks'.filter (fun l => !l.isBlank) = ks.filter fun l => !l.isBlank := by
  cases hrc with
  | same =>
    refine ⟨ks, by rw [List.map_map, isBlank_eq_text]; rfl, ?_, rfl⟩
    rw [List.map_map]
    exact hks
  | @emptyLast pre z hz =>
    have hzblank : z.isBlank = true := by simp [Line.isBlank_eq, hz, isBlank]
    rw [List.map_append, List.map_singleton] at hks
    obtain ⟨M', hM', tail, htail, hlen⟩ :=
      Columns.measuredLevels_append_singleton _ none _ hks
    have hM'eq : M' = (pre.filter (Line.measured inherit)).map Line.level := by
      rw [List.filter_append, List.map_append] at htail
      refine (List.append_inj' htail.symm ?_).1
      rw [hlen, Line.row_snd]
      cases hm : z.measured inherit <;> simp [hm]
    refine ⟨pre, by rw [List.map_map, isBlank_eq_text]; rfl, ?_, ?_⟩
    · rw [List.map_map, ← hM'eq, ← hM']
      rfl
    · simp [List.filter_append, hzblank]
  | @carriageReturn pre z z₀ hz =>
    refine ⟨pre ++ [z], by simp [Line.isBlank_eq, Function.comp_def, hz,
      isBlank_append_carriageReturn], ?_, rfl⟩
    rw [← hks, List.map_append, List.map_append, List.map_singleton, List.map_singleton]
    have hpre : (pre.map fun l => l.text.toList).map (Columns.rowOf inherit) =
        pre.map (Line.row inherit) := by
      rw [List.map_map]
      rfl
    rw [hpre, Line.row, hz]
    cases hblank : isBlank (z₀ ++ ['\r'])
    · rw [rowOf_append_carriageReturn inherit hblank]
    · cases inherit
      · refine absurd (hcr rfl z (by simp) (by rw [Line.isBlank_eq, hz]; exact hblank)) ?_
        simp [hz]
      · have hblank₀ : isBlank z₀ = true := by rwa [← isBlank_append_carriageReturn]
        refine Columns.measuredLevels_append_congr (by simp [Columns.rowOf, hblank, hblank₀])
          (fun h => ?_) none _
        simp [Columns.rowOf, hblank₀] at h

/-- Lines cut again as they were rendered place one after another under any rule, once the
rendered lines do. -/
theorem placeAll_recut {rule : IndentRule} {cs : List (List Char)} {ks : List Line}
    (hrc : Recut cs ks) (hcr : NoBlankCarriageReturn rule.blankLinesInherit ks)
    (hks : (IndentStack.placeAll rule {} (ks.map Line.stackRow)).toOption.isSome) :
    (IndentStack.placeAll rule {} (cs.map fun c => (indentation c, isBlank c))).toOption.isSome := by
  rw [stackRow_eq_text] at hks
  cases hrc with
  | same =>
    rw [List.map_map]
    exact hks
  | @emptyLast pre z hz =>
    rw [List.map_append, List.map_singleton] at hks
    rw [List.map_map]
    exact IndentStack.placeAll_append_singleton hks
  | @carriageReturn pre z z₀ hz =>
    rw [List.map_append, List.map_singleton, hz, isBlank_append_carriageReturn] at hks
    rw [List.map_append, List.map_singleton, List.map_map]
    simp only [Function.comp_def]
    cases hblank : isBlank z₀
    · rwa [hblank, indentation_append_of_not_blank hblank] at hks
    · rw [hblank] at hks
      cases hinherit : rule.blankLinesInherit
      · refine absurd (hcr hinherit z (by simp) ?_) (by simp [hz])
        rw [Line.isBlank_eq, hz, isBlank_append_carriageReturn, hblank]
      · rwa [IndentStack.placeAll_append_unmeasured hinherit]

namespace Document

section Rescan

variable {rule : IndentRule} {t : String} {d : Document} (h : Document.parse rule t = .ok d)
include h

/-- A node stands on a line that is not blank: its token is a scalar, which opens on an
alphanumeric character or a quote. -/
theorem not_blank_of_node {n : Node} (hn : n ∈ preorderAll d.roots) :
    ∃ l ∈ d.lines, l.number = n.entry.startLine ∧ l.isBlank = false := by
  obtain ⟨hscan, hroots, -⟩ := scan_of_parse h
  obtain ⟨l, hl, hnum, tk, htk, hsc⟩ := Forest.parse_scalar n (hroots ▸ hn)
  refine ⟨l, hl, hnum, ?_⟩
  have hmem : tk ∈ Lexer.lex l.text := by
    rw [← Line.tokens_of_scanFrom hscan l hl]
    exact List.mem_of_getElem? htk
  rw [Line.isBlank, List.all_eq_false]
  exact ⟨tk, List.mem_of_getElem? htk, by
    simp [Lexer.isBlank_of_opensScalar (Lexer.lex_scalar_opens hmem hsc)]⟩

/-- The lines a deletion of block targets drops are the union of their blocks, each opening on a
line that is not blank. -/
theorem blockDrop_delete (inherit : Bool) (targets : List Nat)
    (hclosed : ∀ n ∈ preorderAll d.roots, n.id ∈ targets → n.entry.inline = false →
      Line.ClosedBlock inherit d.lines n.entry.startLine n.entry.endLine) :
    Line.BlockDrop inherit d.lines (((preorderAll d.roots).filter fun n =>
      decide (n.id ∈ targets) && !n.entry.inline).map fun n => (n.entry.startLine, n.entry.endLine))
      (droppedLines d targets) where
  mem_iff k := by
    simp only [droppedLines, Finset.mem_biUnion, List.mem_toFinset, Finset.mem_Icc]
  start b hb := by
    obtain ⟨n, hn, rfl⟩ := List.mem_map.1 hb
    obtain ⟨l, hl, hnum, hblank⟩ := not_blank_of_node h (List.mem_of_mem_filter hn)
    exact ⟨l, hl, hnum, Line.measured_of_not_blank hblank inherit⟩
  closed b hb := by
    obtain ⟨n, hn, rfl⟩ := List.mem_map.1 hb
    simp only [List.mem_filter, Bool.and_eq_true, decide_eq_true_eq, Bool.not_eq_true'] at hn
    exact hclosed n hn.1 hn.2.1 hn.2.2

/-- A deletion of targets that start their lines renders the kept lines as they were read, each
with its own terminator but the last, which ends as the source does. -/
theorem render_delete_of_blocks (targets : List Nat)
    (hblock : ∀ n ∈ preorderAll d.roots, n.id ∈ targets → n.entry.inline = false) :
    (Mutation.delete.apply d targets).1.render (Mutation.delete.apply d targets).2 =
      Edit.endWith (Edit.lastEnding d.lines)
        ((d.lines.filter fun l => l.number ∉ droppedLines d targets).map fun l => ⟨l.text, l.ending⟩) := by
  have hp := parse_parsed h
  show (Mutation.markAll d targets .deleted).render [] = _
  rw [render_markAll_deleted hp targets]
  congr 1
  refine List.map_congr_left fun l _ => ?_
  rw [lineText_delete hp targets fun n hn hT hi => absurd hi (by simp [hblock n hn hT])]

omit h in
/-- A scan that goes through gives a document. -/
theorem parse_ok_of_scan {rule : IndentRule} {text : String} {ls : List Line}
    (hs : Line.scan rule text = .ok ls) : Document.parse rule text = .ok ⟨ls, Forest.parse ls, rule⟩ := by
  rw [Document.parse, hs]

/-- Under the permissive rule, the text a deletion of closed blocks renders parses again. -/
theorem parse_render_delete_permissive (hperm : rule.strictDedent = false) (targets : List Nat)
    {blocks : List (Nat × Nat)}
    (hblock : ∀ n ∈ preorderAll d.roots, n.id ∈ targets → n.entry.inline = false)
    (hdrop : Line.BlockDrop rule.blankLinesInherit d.lines blocks (droppedLines d targets))
    (hrc : Recut ((splitLines (joinLines (Edit.endWith (Edit.lastEnding d.lines)
      ((d.lines.filter fun l => l.number ∉ droppedLines d targets).map
        fun l => ⟨l.text, l.ending⟩)))).map Prod.fst)
      (d.lines.filter fun l => l.number ∉ droppedLines d targets))
    (hcr : NoBlankCarriageReturn rule.blankLinesInherit d.lines) :
    ∃ d', Document.parse rule (joinLines ((Mutation.delete.apply d targets).1.render
      (Mutation.delete.apply d targets).2)) = .ok d' := by
  have hp := parse_parsed h
  obtain ⟨hscan, -, -⟩ := scan_of_parse h
  have hpieces : d.lines.map Line.piece = splitLines t := (Line.scanFrom_ok hscan).1
  have hfull : (IndentStack.placeAll rule {} (d.lines.map Line.stackRow)).toOption.isSome := by
    have := Line.scanFrom_isSome rule (splitLines t) {} 1 0
    rw [← Line.scan, hscan, ← hpieces, List.map_map] at this
    rw [stackRow_eq_text]
    exact this.symm
  have hkept := Line.placeAll_filter_kept hperm hdrop hp.scanned.numbers hfull
  have hrendered := placeAll_recut hrc (fun hi l hl => hcr hi l (List.mem_of_mem_filter hl)) hkept
  rw [render_delete_of_blocks h targets hblock]
  generalize joinLines _ = text at hrendered ⊢
  have hsome := Line.scanFrom_isSome rule (splitLines text) {} 1 0
  have hrows : (splitLines text).map (fun p => (indentation p.1, isBlank p.1)) =
      ((splitLines text).map Prod.fst).map fun c => (indentation c, isBlank c) := by
    rw [List.map_map]
    rfl
  rw [← Line.scan, hrows, hrendered] at hsome
  cases hs : Line.scan rule text with
  | error e => rw [hs] at hsome; cases hsome
  | ok ls => exact ⟨_, parse_ok_of_scan hs⟩

/-- Under the strict rule, the text a deletion of closed blocks renders parses again, and its
non-blank lines have, in order, the levels the kept non-blank lines had. -/
theorem parse_render_delete_strict (hstrict : rule.strictDedent = true) (targets : List Nat)
    {blocks : List (Nat × Nat)}
    (hblock : ∀ n ∈ preorderAll d.roots, n.id ∈ targets → n.entry.inline = false)
    (hdrop : Line.BlockDrop rule.blankLinesInherit d.lines blocks (droppedLines d targets))
    (hrc : Recut ((splitLines (joinLines (Edit.endWith (Edit.lastEnding d.lines)
      ((d.lines.filter fun l => l.number ∉ droppedLines d targets).map
        fun l => ⟨l.text, l.ending⟩)))).map Prod.fst)
      (d.lines.filter fun l => l.number ∉ droppedLines d targets))
    (hcr : NoBlankCarriageReturn rule.blankLinesInherit d.lines) :
    ∃ d', Document.parse rule (joinLines ((Mutation.delete.apply d targets).1.render
        (Mutation.delete.apply d targets).2)) = .ok d' ∧
      (d'.lines.filter fun l => !l.isBlank).map Line.level =
        ((d.lines.filter fun l => l.number ∉ droppedLines d targets).filter
          fun l => !l.isBlank).map Line.level := by
  have hp := parse_parsed h
  obtain ⟨hscan, -, -⟩ := scan_of_parse h
  have hpieces : d.lines.map Line.piece = splitLines t := (Line.scanFrom_ok hscan).1
  have horig : Columns.measuredLevels none (d.lines.map (Line.row rule.blankLinesInherit)) =
      some ((d.lines.filter (Line.measured rule.blankLinesInherit)).map Line.level) := by
    have hmeasured := Line.scan_measuredLevels hstrict t
    rw [hscan, ← hpieces, List.map_map] at hmeasured
    exact hmeasured.symm
  have hkept := Line.measuredLevels_filter_kept hdrop hp.scanned.numbers horig
  obtain ⟨ks', hblank, hlevels, hfilter⟩ :=
    measuredLevels_recut hrc (fun hi l hl => hcr hi l (List.mem_of_mem_filter hl)) hkept
  rw [render_delete_of_blocks h targets hblock]
  generalize joinLines _ = text at hblank hlevels ⊢
  have hmeasured := Line.scan_measuredLevels hstrict text
  have hrows : (splitLines text).map (fun p => Columns.rowOf rule.blankLinesInherit p.1) =
      ((splitLines text).map Prod.fst).map (Columns.rowOf rule.blankLinesInherit) := by
    rw [List.map_map]
    rfl
  rw [hrows, hlevels] at hmeasured
  cases hs : Line.scan rule text with
  | error e => rw [hs] at hmeasured; cases hmeasured
  | ok ls =>
    rw [hs] at hmeasured
    have hls : ls.map Line.isBlank = ks'.map Line.isBlank := by
      rw [← hblank, ← (Line.scanFrom_ok hs).1]
      simp [Line.isBlank_eq, Line.piece, Function.comp_def]
    refine ⟨_, parse_ok_of_scan hs, ?_⟩
    rw [← hfilter]
    exact Line.levels_not_blank_eq hls (Option.some.inj hmeasured)

end Rescan

/-- Deleting closed blocks can be chained: under every rule, when every listed node starts its
line and the lines of its subtree form a closed block for the lines the rule measures, the text
the deletion renders parses again under the same rule. Under the strict rule its non-blank lines
have, in order, the levels the kept non-blank lines had. Where the rule measures blank lines, no
blank line may end in a carriage return of its own: rendered last, it would give that return to
its terminator and move its indentation. -/
theorem parse_render_delete {rule : IndentRule} {t : String} {d : Document}
    (h : Document.parse rule t = .ok d) (targets : List Nat)
    (hblocks : ∀ n ∈ preorderAll d.roots, n.id ∈ targets →
      n.entry.inline = false ∧
        Line.ClosedBlock rule.blankLinesInherit d.lines n.entry.startLine n.entry.endLine)
    (hcr : rule.blankLinesInherit = false →
      ∀ l ∈ d.lines, l.isBlank = true → l.text.toList.getLast? ≠ some '\r') :
    ∃ d', Document.parse rule (joinLines ((Mutation.delete.apply d targets).1.render
        (Mutation.delete.apply d targets).2)) = .ok d' ∧
      (rule.strictDedent = true →
        (d'.lines.filter fun l => !l.isBlank).map Line.level =
          ((d.lines.filter fun l => l.number ∉ droppedLines d targets).filter
            fun l => !l.isBlank).map Line.level) := by
  have hp := parse_parsed h
  obtain ⟨hscan, -, -⟩ := scan_of_parse h
  have hpieces : d.lines.map Line.piece = splitLines t := (Line.scanFrom_ok hscan).1
  have hblock : ∀ n ∈ preorderAll d.roots, n.id ∈ targets → n.entry.inline = false :=
    fun n hn hT => (hblocks n hn hT).1
  have hdrop := blockDrop_delete h rule.blankLinesInherit targets fun n hn hT _ => (hblocks n hn hT).2
  have hrc := recut_splitLines_endWith (d.lines.filter fun l => l.number ∉ droppedLines d targets)
    (fun l hl => cutPiece_cutLines [] t.toList (by simp) _ (by
      rw [← splitLines, ← hpieces]
      exact List.mem_map_of_mem (List.mem_of_mem_filter hl)))
    (fun l hl => hp.scanned.terminated l.piece (by
      rw [← List.map_dropLast]
      exact List.mem_map_of_mem (mem_dropLast_of_mem_dropLast_filter hl)))
    (Edit.lastEnding d.lines)
  cases hstrict : rule.strictDedent
  · obtain ⟨d', hd'⟩ := parse_render_delete_permissive h hstrict targets hblock hdrop hrc hcr
    exact ⟨d', hd', fun h => by cases h⟩
  · obtain ⟨d', hd', hlevels⟩ := parse_render_delete_strict h hstrict targets hblock hdrop hrc hcr
    exact ⟨d', hd', fun _ => hlevels⟩

theorem parse_render_delete_comment_on_column : ∃ d,
    Document.parse {} "a:\n  n:\n    x: 1\n  # note\n  m: 2\n" = .ok d ∧
    ∃ d', Document.parse {} (joinLines ((Mutation.delete.apply d [1]).1.render
        (Mutation.delete.apply d [1]).2)) = .ok d' ∧
      (d'.lines.filter fun l => !l.isBlank).map Line.level =
        ((d.lines.filter fun l => l.number ∉ droppedLines d [1]).filter
          fun l => !l.isBlank).map Line.level := by
  obtain ⟨d, hd⟩ := parse_ok_of_isSome
    (by decide : (Document.parse {} "a:\n  n:\n    x: 1\n  # note\n  m: 2\n").toOption.isSome = true)
  have hcheck : (Document.parse {} "a:\n  n:\n    x: 1\n  # note\n  m: 2\n").toOption.map
      (fun d => (preorderAll d.roots).all fun n => !decide (n.id ∈ [1]) ||
        (!n.entry.inline &&
          decide (Line.ClosedBlock true d.lines n.entry.startLine n.entry.endLine))) =
      some true := by
    decide +kernel
  rw [hd] at hcheck
  simp only [Except.toOption, Option.map_some, Option.some.injEq, List.all_eq_true] at hcheck
  obtain ⟨d', hd', hlevels⟩ := parse_render_delete hd [1] (fun n hn hT => by
    simpa [hT] using hcheck n hn) (fun h => by cases h)
  exact ⟨d, hd, d', hd', hlevels rfl⟩

end Document

end YamlEdit
