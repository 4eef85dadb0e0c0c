import YamlEdit.Proofs.Parsed
import YamlEdit.Proofs.Pending
import YamlEdit.Proofs.RoundTrip

/-!
# Renaming

A rename marks the targets that exist, and the marks become one token replacement per target
when the document is rendered. In a freshly parsed document every node stands on a token of its
own, so the rendered lines are the source lines with exactly the targets' tokens replaced: no
other token changes, even one whose text equals a target's, and listing a target twice or
listing an id that names no node changes nothing more.
-/

namespace YamlEdit

open Node

namespace Document

/-- A line's text with the tokens of the listed nodes replaced by `w`. -/
def renamedText (d : Document) (targets : List Nat) (w : String) (l : Line) : String :=
  String.join (l.tokens.zipIdx.map fun (tk, i) =>
    if ∃ n ∈ preorderAll d.roots, n.id ∈ targets ∧ n.entry.startLine = l.number ∧
      n.entry.tokenIndex = i then w else tk.text)

section Rename

variable {text : String} {d : Document} (hp : Parsed text d) (targets : List Nat) (w : String)
include hp

/-- After a rename, the edits of the marks replace exactly the targets' own tokens with the new
name. -/
theorem mem_pendingEdits_rename {x : Edit} :
    x ∈ (Mutation.markAll d targets (.renamed w)).pendingEdits ↔
      ∃ n ∈ preorderAll d.roots, n.id ∈ targets ∧
        x = .replaceToken n.entry.startLine n.entry.tokenIndex w := by
  constructor
  · intro hx
    rcases mem_pendingEdits hx with ⟨e, he, t, hm, rfl⟩ | ⟨e, he, hm, -⟩ | ⟨e, he, hm, -⟩
    · obtain ⟨n, hn, hT, rfl⟩ := hp.target_of_markAll he (by simp [hm])
      obtain rfl : w = t := Mark.renamed.inj hm
      exact ⟨n, hn, hT, rfl⟩
    all_goals
      obtain ⟨n, -, -, rfl⟩ := hp.target_of_markAll he (by simp [hm])
      cases hm
  · rintro ⟨n, hn, hT, rfl⟩
    have he : { n.entry with mark := .renamed w } ∈
        (Mutation.markAll d targets (.renamed w)).entries := hp.mem_markAll_of_target hn hT
    apply replaceToken_mem_pendingEdits he rfl

/-- After a rename, the document renders as its lines with the targets' tokens replaced. -/
theorem render_markAll_renamed :
    (Mutation.markAll d targets (.renamed w)).render [] =
      d.lines.map fun l => ⟨renamedText d targets w l, l.ending⟩ := by
  have hmem := fun x => mem_pendingEdits_rename hp targets w (x := x)
  have hkeep : ∀ k, Edit.isDropped (Mutation.markAll d targets (.renamed w)).pendingEdits k = false := by
    intro k
    apply Bool.eq_false_iff.2
    intro hk
    obtain ⟨_, _, hx, -⟩ := Edit.isDropped_iff.1 hk
    obtain ⟨_, _, _, hx⟩ := (hmem _).1 hx
    cases hx
  have hw : ∀ l t s, Edit.replaceToken l t s ∈ (Mutation.markAll d targets (.renamed w)).pendingEdits →
      s = w := by
    intro l t s hx
    obtain ⟨_, _, _, hx⟩ := (hmem _).1 hx
    cases hx
    rfl
  have htext : ∀ l : Line, Edit.lineText (Mutation.markAll d targets (.renamed w)).pendingEdits l =
      renamedText d targets w l := by
    intro l
    rw [Edit.lineText_of_no_insertions fun _ _ _ => insertText_not_mem_pendingEdits _ _ _ _ _]
    unfold renamedText
    congr 1
    apply List.map_congr_left
    rintro ⟨tk, i⟩ -
    dsimp only
    by_cases hex : ∃ n ∈ preorderAll d.roots, n.id ∈ targets ∧ n.entry.startLine = l.number ∧
        n.entry.tokenIndex = i
    · obtain ⟨n, hn, hT, hl, hi⟩ := hex
      have hr := Edit.replacement?_of_uniform (hw _ _) ⟨w, (hmem _).2 ⟨n, hn, hT, by rw [hl, hi]⟩⟩
      rw [if_pos ⟨n, hn, hT, hl, hi⟩, hr]
      rfl
    · have hr : Edit.replacement? (Mutation.markAll d targets (.renamed w)).pendingEdits l.number i =
          none := by
        refine Edit.replacement?_eq_none.2 fun s hx => hex ?_
        obtain ⟨n, hn, hT, hx⟩ := (hmem _).1 hx
        simp only [Edit.replaceToken.injEq] at hx
        exact ⟨n, hn, hT, hx.1.symm, hx.2.1.symm⟩
      rw [if_neg hex, hr]
      rfl
  rw [render, List.append_nil, Mutation.lines_markAll,
    Edit.render_of_insertsNoLines (insertsNoLines_pendingEdits _) hp.scanned.terminated]
  simp only [hkeep, Bool.not_false, List.filter_true, htext]
  exact Edit.endWith_lastEnding _ _

end Rename

/-- Renaming touches only the targets' own tokens: the script is empty, the document renders
as its lines, each with its own terminator and with the token of every existing target replaced
by the new name, and no token of another node is one of the replaced tokens. -/
theorem rename_replaces_target_tokens {rule : IndentRule} {t : String} {d : Document}
    (h : Document.parse rule t = .ok d) (targets : List Nat) (w : String) :
    ((Mutation.rename w).apply d targets).2 = [] ∧
      ((Mutation.rename w).apply d targets).1.render ((Mutation.rename w).apply d targets).2 =
        d.lines.map (fun l => ⟨renamedText d targets w l, l.ending⟩) ∧
      ((Mutation.rename w).apply d targets).1.toLines = d.lines.map (renamedText d targets w) ∧
      ∀ m ∈ preorderAll d.roots, m.id ∉ targets →
        ¬∃ n ∈ preorderAll d.roots, n.id ∈ targets ∧ n.entry.startLine = m.entry.startLine ∧
          n.entry.tokenIndex = m.entry.tokenIndex := by
  have hp := parse_parsed h
  have hrender := render_markAll_renamed hp targets w
  refine ⟨rfl, hrender, ?_, ?_⟩
  · show ((Mutation.markAll d targets (.renamed w)).render []).map RenderedLine.text = _
    rw [hrender, List.map_map]
    rfl
  · rintro m hm hmT ⟨n, hn, hnT, hl, hi⟩
    exact hmT (hp.positions n hn m hm hl hi ▸ hnT)

theorem rename_replaces_target_tokens_sample :
    (Document.parse {} "spam: spam\n").map (fun d => ((Mutation.rename "eggs").apply d [0]).2) =
      .ok [] := by
  obtain ⟨d, hd⟩ := parse_ok_of_isSome (by decide : (Document.parse {} "spam: spam\n").toOption.isSome = true)
  rw [hd]
  exact congrArg Except.ok (rename_replaces_target_tokens hd [0] "eggs").1

end Document

end YamlEdit
