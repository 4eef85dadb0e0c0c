import Mathlib.Order.Interval.Finset.Nat
import YamlEdit.Proofs.Parsed
import YamlEdit.Proofs.Pending
import YamlEdit.Proofs.RoundTrip

/-!
# Deleting blocks

A deletion marks the targets that exist. When the document is rendered, each marked node that
starts its line drops the lines from its start line to its end line, and each marked inline
node rewrites tokens of its own line. The end line of a node covers its subtree and the drops
act as a union, so the rendered lines are the source lines outside the union of the targets'
spans, in order, and every kept line that holds no inline target is written as it was read.
-/

namespace YamlEdit

open Node

namespace Document

/-- The lines a deletion of the targets drops: the union of the spans of the existing targets
that start their lines. -/
def droppedLines (d : Document) (targets : List Nat) : Finset Nat :=
  (((preorderAll d.roots).filter fun n => decide (n.id ∈ targets) && !n.entry.inline).map
    fun n => (n.entry.startLine, n.entry.endLine)).toFinset.biUnion fun s => Finset.Icc s.1 s.2

theorem mem_droppedLines {d : Document} {targets : List Nat} {k : Nat} :
    k ∈ droppedLines d targets ↔ ∃ n ∈ preorderAll d.roots, n.id ∈ targets ∧
      n.entry.inline = false ∧ n.entry.startLine ≤ k ∧ k ≤ n.entry.endLine := by
  simp only [droppedLines, Finset.mem_biUnion, List.mem_toFinset, List.mem_map, List.mem_filter,
    Finset.mem_Icc, Bool.and_eq_true, decide_eq_true_eq, Bool.not_eq_true']
  constructor
  · rintro ⟨_, ⟨n, ⟨hn, hT, hi⟩, rfl⟩, hk⟩
    exact ⟨n, hn, hT, hi, hk⟩
  · rintro ⟨n, hn, hT, hi, hk⟩
    exact ⟨_, ⟨n, ⟨hn, hT, hi⟩, rfl⟩, hk⟩

/-- Among lines numbered `1 … n`, those outside a set of line numbers within that range number
`n` minus its size. -/
theorem length_filter_not_mem {lines : List Line} {D : Finset Nat}
    (hs : lines.map Line.number = List.range' 1 lines.length)
    (hD : ∀ k ∈ D, 1 ≤ k ∧ k ≤ lines.length) :
    (lines.filter fun l => l.number ∉ D).length = lines.length - D.card := by
  have hmap : (lines.filter fun l => l.number ∉ D).length =
      ((List.range' 1 lines.length).filter fun k => k ∉ D).length := by
    rw [← hs, List.filter_map, List.length_map]
    rfl
  have hnodup : ((List.range' 1 lines.length).filter fun k => k ∉ D).Nodup :=
    (List.nodup_range' _).filter _
  have hset : ((List.range' 1 lines.length).filter fun k => k ∉ D).toFinset =
      Finset.Icc 1 lines.length \ D := by
    ext k
    simp only [List.mem_toFinset, List.mem_filter, List.mem_range'_1, decide_eq_true_eq,
      Finset.mem_sdiff, Finset.mem_Icc]
    constructor
    · rintro ⟨⟨h1, h2⟩, h3⟩
      exact ⟨⟨h1, by omega⟩, h3⟩
    · rintro ⟨⟨h1, h2⟩, h3⟩
      exact ⟨⟨h1, by omega⟩, h3⟩
  have hsub : D ∩ Finset.Icc 1 lines.length = D :=
    Finset.inter_eq_left.2 fun k hk => Finset.mem_Icc.2 (hD k hk)
  rw [hmap, ← List.toFinset_card_of_nodup hnodup, hset, Finset.card_sdiff, hsub, Nat.card_Icc]
  omega

section Delete

variable {text : String} {d : Document} (hp : Parsed text d) (targets : List Nat)
include hp

/-- After a deletion, each edit of the marks drops the lines of a target that starts its line,
or rewrites a token on the line of an inline target. -/
theorem mem_pendingEdits_delete {x : Edit}
    (hx : x ∈ (Mutation.markAll d targets .deleted).pendingEdits) :
    (∃ n ∈ preorderAll d.roots, n.id ∈ targets ∧ n.entry.inline = false ∧
      x = .dropLines n.entry.startLine n.entry.endLine) ∨
    (∃ n ∈ preorderAll d.roots, n.id ∈ targets ∧ n.entry.inline = true ∧
      ∃ token s, x = .replaceToken n.entry.startLine token s) := by
  rcases mem_pendingEdits hx with ⟨e, he, t, hm, -⟩ | ⟨e, he, hm, hi, rfl⟩ |
      ⟨e, he, hm, hi, line, hline, token, s, rfl⟩
  · obtain ⟨n, -, -, rfl⟩ := hp.target_of_markAll he (by simp [hm])
    cases hm
  · obtain ⟨n, hn, hT, rfl⟩ := hp.target_of_markAll he (by simp [hm])
    exact .inl ⟨n, hn, hT, hi, rfl⟩
  · obtain ⟨n, hn, hT, rfl⟩ := hp.target_of_markAll he (by simp [hm])
    rw [Mutation.line?_markAll] at hline
    exact .inr ⟨n, hn, hT, hi, token, s, by rw [hp.number_of_line? hline]⟩

/-- A line is dropped exactly when it lies in the span of a target that starts its line. -/
theorem isDropped_delete (k : Nat) :
    Edit.isDropped (Mutation.markAll d targets .deleted).pendingEdits k =
      decide (k ∈ droppedLines d targets) := by
  rw [Bool.eq_iff_iff, Edit.isDropped_iff, decide_eq_true_iff, mem_droppedLines]
  constructor
  · rintro ⟨start, stop, hx, h1, h2⟩
    rcases mem_pendingEdits_delete hp targets hx with ⟨n, hn, hT, hi, hx⟩ | ⟨_, _, _, _, _, _, hx⟩
    · simp only [Edit.dropLines.injEq] at hx
      exact ⟨n, hn, hT, hi, hx.1 ▸ h1, hx.2 ▸ h2⟩
    · cases hx
  · rintro ⟨n, hn, hT, hi, h1, h2⟩
    exact ⟨_, _, dropLines_mem_pendingEdits (hp.mem_markAll_of_target hn hT) rfl hi, h1, h2⟩

/-- A line that holds no inline target renders as it was read. -/
theorem lineText_delete {l : Line}
    (hl : ∀ n ∈ preorderAll d.roots, n.id ∈ targets → n.entry.inline = true →
      n.entry.startLine ≠ l.number) :
    Edit.lineText (Mutation.markAll d targets .deleted).pendingEdits l = l.text := by
  refine Edit.lineText_of_untouched (fun token s hx => ?_)
    fun _ _ _ => insertText_not_mem_pendingEdits _ _ _ _ _
  rcases mem_pendingEdits_delete hp targets hx with ⟨_, _, _, _, hx⟩ | ⟨n, hn, hT, hi, _, _, hx⟩
  · cases hx
  · simp only [Edit.replaceToken.injEq] at hx
    exact hl n hn hT hi hx.1.symm

/-- After a deletion, the document renders as the lines outside the dropped spans, with the
edits of the marks applied, each with its own terminator but the last, which ends as the source
does. -/
theorem render_markAll_deleted :
    (Mutation.markAll d targets .deleted).render [] =
      Edit.endWith (Edit.lastEnding d.lines)
        ((d.lines.filter fun l => l.number ∉ droppedLines d targets).map fun l =>
          ⟨Edit.lineText (Mutation.markAll d targets .deleted).pendingEdits l, l.ending⟩) := by
  rw [render, List.append_nil, Mutation.lines_markAll,
    Edit.render_of_insertsNoLines (insertsNoLines_pendingEdits _) hp.scanned.terminated]
  simp only [isDropped_delete hp targets, decide_not]

end Delete

/-- A deletion removes exactly the lines of the targets' spans: the script is empty; the
document renders as the source lines outside the union of the spans of the existing targets
that start their lines, in order, each line without an inline target as it was read and each
with its own terminator but the last, which ends as the source does; and when no target is
inline, as many lines as the source has less the size of that union. -/
theorem delete_drops_target_lines {rule : IndentRule} {t : String} {d : Document}
    (h : Document.parse rule t = .ok d) (targets : List Nat) :
    (Mutation.delete.apply d targets).2 = [] ∧
      ∃ f : Line → String,
        (∀ l ∈ d.lines, (∀ n ∈ preorderAll d.roots, n.id ∈ targets → n.entry.inline = true →
          n.entry.startLine ≠ l.number) → f l = l.text) ∧
        (Mutation.delete.apply d targets).1.render (Mutation.delete.apply d targets).2 =
          Edit.endWith (Edit.lastEnding d.lines)
            ((d.lines.filter fun l => l.number ∉ droppedLines d targets).map fun l =>
              ⟨f l, l.ending⟩) ∧
        (Mutation.delete.apply d targets).1.toLines =
          (d.lines.filter fun l => l.number ∉ droppedLines d targets).map f ∧
        ((∀ n ∈ preorderAll d.roots, n.id ∈ targets → n.entry.inline = false) →
          ((Mutation.delete.apply d targets).1.render (Mutation.delete.apply d targets).2).length =
            d.lines.length - (droppedLines d targets).card) := by
  have hp := parse_parsed h
  have hrender := render_markAll_deleted hp targets
  have hD : ∀ k ∈ droppedLines d targets, 1 ≤ k ∧ k ≤ d.lines.length := by
    intro k hk
    obtain ⟨n, hn, -, -, h1, h2⟩ := mem_droppedLines.1 hk
    have := hp.spans n hn
    omega
  refine ⟨rfl, Edit.lineText (Mutation.markAll d targets .deleted).pendingEdits,
    fun l _ hl => lineText_delete hp targets hl, hrender, ?_, fun _ => ?_⟩
  · show ((Mutation.markAll d targets .deleted).render []).map RenderedLine.text = _
    rw [hrender, Edit.map_text_endWith, List.map_map]
    rfl
  · show ((Mutation.markAll d targets .deleted).render []).length = _
    rw [hrender, Edit.length_endWith, List.length_map]
    exact length_filter_not_mem hp.scanned.numbers hD

theorem delete_drops_target_lines_sample :
    (Document.parse {} "a:\n  b: c\nd: e\n").map (fun d => (Mutation.delete.apply d [0]).2) =
      .ok [] := by
  obtain ⟨d, hd⟩ := parse_ok_of_isSome
    (by decide : (Document.parse {} "a:\n  b: c\nd: e\n").toOption.isSome = true)
  rw [hd]
  exact congrArg Except.ok (delete_drops_target_lines hd [0]).1

end Document

end YamlEdit
