import YamlEdit.Proofs.Delete
import YamlEdit.Proofs.Delete.Flow
import YamlEdit.Proofs.Forest.WellFormed
import YamlEdit.Proofs.Lexer.Flow

/-!
# Deleting entries of a flat flow collection

A line `key: [e₁, …, eₙ]` of a parsed document, whose entries are plain scalars or plain keys
with plain values, holds one inline node for the key of each entry. Deleting the nodes of some
of the entries rewrites that line alone: what is left between the opener and the closer is
`remainingText`, the kept entries joined by `, `, with a stray `, ` after them when the last two
entries are both deleted and some entry is kept.

The proof reads the line's tokens off the lexer, finds the deleted entries' keys among them,
and hands the removal over to `output_foldl_removeEntry`.
-/

namespace YamlEdit

open Node

namespace Forest

/-- Every scalar token of the lines has a node standing on it. -/
theorem WellFormed.node_of_scalar {text : String} {lines : List Line} {roots : List Node}
    (hw : WellFormed text lines roots) {l : Line} (hl : l ∈ lines) {i : Nat} {t : Token}
    (ht : l.tokens[i]? = some t) (hs : t.isScalar = true) :
    ∃ n ∈ preorderAll roots, n.entry.startLine = l.number ∧ n.entry.tokenIndex = i := by
  obtain ⟨k, hk, hget⟩ := List.getElem_of_mem (mem_scalarPositions.2 ⟨l, hl, rfl, t, ht, hs⟩)
  obtain ⟨n, ⟨hn, rfl⟩, -⟩ := hw.unique k hk
  have hpos := hw.positions n hn
  rw [List.getElem?_eq_getElem hk, hget, Option.some.injEq, Prod.mk.injEq] at hpos
  exact ⟨n, hn, hpos.1.symm, hpos.2.symm⟩

end Forest

namespace Marks

/-- Neither the opener nor a separator makes the scalar after it a mapping value. -/
theorem roleOf_opener_ne {opener : Char} (ho : opener = '[' ∨ opener = '{') (flow : FlowStyle) :
    Forest.roleOf (some (Lexer.openerToken opener)) flow ≠ .mappingValue := by
  rcases ho with rfl | rfl <;> cases flow <;> decide

theorem roleOf_separator_ne (flow : FlowStyle) :
    Forest.roleOf (some separator) flow ≠ .mappingValue := by
  cases flow <;> decide

end Marks

namespace Document

open Marks Lexer

/-- The tokens of a flow-collection line of a scanned text, as the lexer gives them. -/
theorem tokens_of_flowLineText {rule : IndentRule} {text : String} {lines : List Line}
    (hscan : Line.scan rule text = .ok lines) {l : Line} (hl : l ∈ lines) {indent : Nat}
    {key : String} (hkey : Plain key) {opener closer : Char} (hop : opener = '[' ∨ opener = '{')
    (hcl : closer = ']' ∨ closer = '}') {front : List (FlowEntry × Bool)} {last : FlowEntry × Bool}
    (hplain : ∀ p ∈ front ++ [last], p.1.Plain) {spaces : Nat} {comment : String}
    (hcomment : comment = "" ∨ comment.toList.head? = some '#')
    (htext : l.text = flowLineText indent key opener
      (", ".intercalate ((front ++ [last]).map fun p => p.1.text)) closer spaces comment) :
    l.tokens = flowLineHead indent key ++ [openerToken opener] ++ leadingTokens front ++
      last.1.tokens ++ closerToken closer spaces :: commentTokens comment := by
  have hentries : (front ++ [last]).map (fun p => p.1.text) =
      (front.map Prod.fst ++ [last.1]).map FlowEntry.text := by simp
  rw [Line.tokens_of_scanFrom hscan l hl, htext, hentries, lex_flowLine indent hkey hop front
    (fun p hp => hplain p (by simp [hp])) (hplain last (by simp)) hcl spaces hcomment]
  simp [flowLineTokens]

/-- The key of a selected entry is a scalar after the line's key, and after the opener or a
separator, so not a mapping value. -/
theorem selectedStart_key {l : Line} {indent : Nat} {key : String} {opener closer : Char}
    {spaces : Nat} {comment : String} {front : List (FlowEntry × Bool)} {last : FlowEntry × Bool}
    (htok : l.tokens = flowLineHead indent key ++ [openerToken opener] ++ leadingTokens front ++
      last.1.tokens ++ closerToken closer spaces :: commentTokens comment)
    (hop : opener = '[' ∨ opener = '{') {s : Nat}
    (hs : s ∈ selectedStarts (firstEntryIndex indent) (front ++ [last])) :
    (∃ tk, l.tokens[s]? = some tk ∧ tk.isScalar = true) ∧ Forest.ScalarBefore l s ∧
      s ≠ 0 ∧ ∀ flow, Forest.roleOf l.tokens[s - 1]? flow ≠ .mappingValue := by
  have hfirst := length_flowLineHead indent key
  rw [← hfirst] at hs
  obtain ⟨hle, ⟨k, hk⟩, hprev⟩ := selectedStart_tokens (openerToken opener)
    (closerToken closer spaces :: commentTokens comment) hs
  rw [← htok] at hk hprev
  refine ⟨⟨_, hk, rfl⟩, ⟨(flowLineHead indent key).length - 1, by omega, ⟨key, [.scalar]⟩, ?_, rfl⟩,
    by omega, fun flow => ?_⟩
  · rw [htok, List.append_assoc, List.append_assoc, List.append_assoc]
    exact getElem?_flowLineHead indent key _
  · rcases hprev with h | h <;> rw [h]
    · exact roleOf_opener_ne hop flow
    · exact roleOf_separator_ne flow

/-- After a deletion a line renders as the texts the removal of its inline deletions leaves. -/
theorem Parsed.lineText_markAll_deleted {text : String} {d : Document} (hp : Parsed text d)
    (targets : List Nat) {l : Line} (hl : l ∈ d.lines) :
    Edit.lineText (Mutation.markAll d targets .deleted).pendingEdits l =
      (removalOf l ((Mutation.markAll d targets .deleted).inlineDeletions l.number)).output := by
  have hline : (Mutation.markAll d targets .deleted).line? l.number = some l := by
    rw [Mutation.line?_markAll]
    exact hp.line?_of_mem hl
  exact lineText_pendingEdits (hp.not_renamed_markAll_deleted targets)
    (hp.number_of_line?_markAll targets .deleted) hline

/-- Deleting the nodes of some entries of a flat flow collection that is the value of a key
rewrites the collection's line alone: between the opener and the closer it keeps the other
entries joined by `, `, and a stray `, ` after them when the last two entries are deleted and
some entry is kept. The entries are given with whether they are deleted; a target is the node of
a deleted entry's key, found by its token index. -/
theorem delete_flow_entries {rule : IndentRule} {text : String} {d : Document}
    (h : Document.parse rule text = .ok d) {l : Line} (hl : l ∈ d.lines) {indent : Nat}
    {key : String} (hkey : Plain key) {opener closer : Char}
    (hbr : opener = '[' ∧ closer = ']' ∨ opener = '{' ∧ closer = '}')
    {front : List (FlowEntry × Bool)} {last : FlowEntry × Bool}
    (hplain : ∀ p ∈ front ++ [last], p.1.Plain) {spaces : Nat} {comment : String}
    (hcomment : comment = "" ∨ comment.toList.head? = some '#')
    (htext : l.text = flowLineText indent key opener
      (", ".intercalate ((front ++ [last]).map fun p => p.1.text)) closer spaces comment)
    {targets : List Nat}
    (htargets : ∀ n ∈ preorderAll d.roots, n.id ∈ targets ↔ n.entry.startLine = l.number ∧
      n.entry.tokenIndex ∈ selectedStarts (firstEntryIndex indent) (front ++ [last])) :
    (Mutation.delete.apply d targets).1.toLines = d.lines.map fun l' =>
      if l'.number = l.number then
        flowLineText indent key opener (remainingText front last) closer spaces comment
      else l'.text := by
  have hp := parse_parsed h
  obtain ⟨hscan, hroots, -⟩ := scan_of_parse h
  have hwf := Forest.parse_wellFormed hscan
  rw [← hroots] at hwf
  have hop : opener = '[' ∨ opener = '{' := by rcases hbr with ⟨h1, -⟩ | ⟨h1, -⟩ <;> simp [h1]
  have hcl : closer = ']' ∨ closer = '}' := by rcases hbr with ⟨-, h1⟩ | ⟨-, h1⟩ <;> simp [h1]
  have htok := tokens_of_flowLineText hscan hl hkey hop hcl hplain hcomment htext
  -- every target is inline, and no mapping value, for its key follows the opener or a separator
  have htarget : ∀ n ∈ preorderAll d.roots, n.id ∈ targets →
      n.entry.inline = true ∧ n.entry.role ≠ .mappingValue := by
    intro n hn hT
    obtain ⟨hline, hs⟩ := (htargets n hn).1 hT
    obtain ⟨l', hl', hnum', hinl, flow, hrole⟩ := inline_role_of_parse h hn
    obtain rfl : l' = l := hp.line_eq hl' hl (hnum'.trans hline)
    obtain ⟨-, hbefore, hne, hr⟩ := selectedStart_key htok hop hs
    exact ⟨hinl.2 hbefore, by rw [hrole, if_neg hne]; exact hr flow⟩
  have hxs : ((Mutation.markAll d targets .deleted).inlineDeletions l.number).map Entry.tokenIndex =
      selectedStarts ((flowLineHead indent key).length + 1) (front ++ [last]) := by
    rw [length_flowLineHead]
    refine hp.tokenIndex_inlineDeletions targets (selectedStarts_pairwise _ _) fun i =>
      ⟨fun hi => ?_, ?_⟩
    · obtain ⟨⟨tk, htk, hs⟩, -⟩ := selectedStart_key htok hop hi
      obtain ⟨n, hn, hline, rfl⟩ := hwf.node_of_scalar hl htk hs
      have hT := (htargets n hn).2 ⟨hline, hi⟩
      exact ⟨n, hn, hT, (htarget n hn hT).1, hline, rfl⟩
    · rintro ⟨n, hn, hT, -, -, rfl⟩
      exact ((htargets n hn).1 hT).2
  have hroles : ∀ x ∈ (Mutation.markAll d targets .deleted).inlineDeletions l.number,
      x.role ≠ .mappingValue := by
    intro x hx
    obtain ⟨n, hn, hT, -, -, rfl⟩ := (hp.mem_inlineDeletions targets).1 hx
    exact (htarget n hn hT).2
  have hkept : ∀ l' : Line, l'.number ∉ droppedLines d targets := by
    intro l' hd
    obtain ⟨n, hn, hT, hi, -⟩ := mem_droppedLines.1 hd
    rw [(htarget n hn hT).1] at hi
    cases hi
  show ((Mutation.markAll d targets .deleted).render []).map RenderedLine.text = _
  rw [render_markAll_deleted hp targets, Edit.map_text_endWith, List.map_map,
    List.filter_eq_self.2 fun l' _ => by simpa using hkept l']
  apply List.map_congr_left
  intro l' hl'
  by_cases hnum : l'.number = l.number
  · obtain rfl : l' = l := hp.line_eq hl' hl hnum
    have hop' : (openerToken opener).isScalar = false := by rcases hop with rfl | rfl <;> rfl
    have hopc : dropComma (openerToken opener).text = (openerToken opener).text := by
      rcases hop with rfl | rfl <;> decide
    have hcl' : IsCloser (closerToken closer spaces) :=
      ⟨rfl, closer, List.replicate spaces ' ', by simp [closerToken], by simpa using hcl⟩
    have hjoin := join_flowLineTokens indent key opener [⟨remainingText front last, []⟩] closer
      spaces comment
    rw [show Token.join [⟨remainingText front last, []⟩] = remainingText front last by
      simp [Token.join]] at hjoin
    simp only [Function.comp_apply]
    rw [hp.lineText_markAll_deleted targets hl', removalOf, htok,
      output_foldl_removeEntry hop' hopc front last hcl' _ hxs hroles, ← hjoin, ← String.toList_inj]
    simp [flowLineTokens, Token.join]
  · rw [if_neg hnum]
    exact lineText_delete hp targets fun n hn hT _ hline => hnum (hline ▸ ((htargets n hn).1 hT).1)

/-- Deleting the last two entries of `k: [a, b, c]` leaves `k: [a, ]`. -/
theorem delete_flow_entries_stray_separator : ∃ d,
    Document.parse {} "k: [a, b, c]\n" = .ok d ∧
      (Mutation.delete.apply d [2, 3]).1.toLines = ["k: [a, ]"] := by
  obtain ⟨d, hd⟩ := parse_ok_of_isSome
    (by decide : (Document.parse {} "k: [a, b, c]\n").toOption.isSome = true)
  have hcheck : (Document.parse {} "k: [a, b, c]\n").toOption.map (fun d =>
      d.lines.map fun l => decide (l.text = "k: [a, b, c]") &&
        (preorderAll d.roots).all fun n =>
          decide (n.id ∈ [2, 3] ↔ n.entry.startLine = l.number ∧ n.entry.tokenIndex ∈ [4, 6])) =
      some [true] := by
    decide +kernel
  rw [hd] at hcheck
  simp only [Except.toOption, Option.map_some, Option.some.injEq, List.map_eq_singleton_iff,
    Bool.and_eq_true, decide_eq_true_eq, List.all_eq_true] at hcheck
  obtain ⟨l, hlines, htext, htargets⟩ := hcheck
  have hsplit : ("k: [a, b, c]" : String) = flowLineText 0 "k" '['
      (", ".intercalate ((([(⟨"a", none⟩, false), (⟨"b", none⟩, true)] : List (FlowEntry × Bool)) ++
        [((⟨"c", none⟩ : FlowEntry), true)]).map fun p => p.1.text)) ']' 0 "" := by
    decide
  have hstarts : selectedStarts (firstEntryIndex 0)
      ([(⟨"a", none⟩, false), (⟨"b", none⟩, true)] ++ [(⟨"c", none⟩, true)]) = [4, 6] := by
    decide
  have hplain : ∀ w ∈ ["k", "a", "b", "c"], Plain w := by
    intro w hw
    simp only [List.mem_cons, List.not_mem_nil, or_false] at hw
    rcases hw with rfl | rfl | rfl | rfl <;> decide
  refine ⟨d, hd, ?_⟩
  rw [delete_flow_entries hd (hlines ▸ List.mem_singleton_self l) (hplain "k" (by simp))
    (.inl ⟨rfl, rfl⟩) ?_ (.inl rfl) (htext.trans hsplit) (by rw [hstarts]; exact htargets),
    hlines]
  · simp only [List.map_cons, List.map_nil, if_pos]
    decide
  · intro p hp
    simp only [List.cons_append, List.nil_append, List.mem_cons, List.not_mem_nil,
      or_false] at hp
    rcases hp with rfl | rfl | rfl <;>
      exact ⟨hplain _ (by simp), fun v hv => by cases hv⟩

end Document

end YamlEdit
