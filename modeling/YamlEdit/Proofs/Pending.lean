import YamlEdit.Proofs.Lookup
import YamlEdit.Proofs.Render

/-!
# The edits of a document's marks

`pendingEdits` turns marks into edits: a renamed node replaces its own token, a deleted node
that starts its line drops its lines, and deleted inline nodes rewrite tokens of their own
lines. The renderer looks edits up by position, so the edits are described here by the entries
that produce them, whatever their order.
-/

namespace YamlEdit

open Node

namespace Marks

theorem mem_of_mem_foldr_distinct {k : Nat} : ∀ {ns : List Nat},
    k ∈ ns.foldr (fun n acc => if acc.head? == some n then acc else n :: acc) [] → k ∈ ns
  | [], h => h
  | n :: ns, h => by
    rw [List.foldr_cons] at h
    split at h
    · exact List.mem_cons_of_mem n (mem_of_mem_foldr_distinct h)
    · rcases List.mem_cons.1 h with rfl | h
      · exact List.mem_cons_self
      · exact List.mem_cons_of_mem n (mem_of_mem_foldr_distinct h)

theorem mem_of_mem_ascendingDistinct {k : Nat} {ns : List Nat} (h : k ∈ ascendingDistinct ns) :
    k ∈ ns :=
  List.mem_mergeSort.1 (mem_of_mem_foldr_distinct h)

/-- Inline deletions only replace tokens of their own line. -/
theorem mem_deleteInline {line : Line} {entries : List Entry} {x : Edit}
    (h : x ∈ deleteInline line entries) : ∃ token text, x = .replaceToken line.number token text := by
  unfold deleteInline at h
  obtain ⟨⟨t, i⟩, -, hx⟩ := List.mem_filterMap.1 h
  dsimp only at hx
  split at hx
  · exact ⟨i, "", (Option.some.inj hx).symm⟩
  · split at hx
    · exact ⟨i, _, (Option.some.inj hx).symm⟩
    · cases hx

end Marks

namespace Document

theorem mem_descendants_entries {d : Document} {e : Entry} :
    e ∈ d.descendants.map Node.entry ↔ e ∈ d.entries :=
  ((List.mergeSort_perm _ _).map Node.entry).mem_iff

/-- Every edit of the marks comes from a marked entry: a rename replaces the entry's own
token, a deletion of an entry that starts its line drops the entry's lines, and an inline
deletion replaces tokens of the entry's line. -/
theorem mem_pendingEdits {d : Document} {x : Edit} (h : x ∈ d.pendingEdits) :
    (∃ e ∈ d.entries, ∃ text, e.mark = .renamed text ∧
      x = .replaceToken e.startLine e.tokenIndex text) ∨
    (∃ e ∈ d.entries, e.mark = .deleted ∧ e.inline = false ∧
      x = .dropLines e.startLine e.endLine) ∨
    (∃ e ∈ d.entries, e.mark = .deleted ∧ e.inline = true ∧ ∃ line,
      d.line? e.startLine = some line ∧ ∃ token text, x = .replaceToken line.number token text) := by
  unfold pendingEdits at h
  simp only [List.mem_append] at h
  rcases h with (h | h) | h
  · obtain ⟨e, he, hx⟩ := List.mem_filterMap.1 h
    refine .inl ⟨e, mem_descendants_entries.1 he, ?_⟩
    cases hm : e.mark with
    | renamed text =>
      rw [hm] at hx
      exact ⟨text, rfl, (Option.some.inj hx).symm⟩
    | _ =>
      rw [hm] at hx
      cases hx
  · obtain ⟨e, he, rfl⟩ := List.mem_map.1 h
    obtain ⟨he, hinline⟩ := List.mem_filter.1 he
    obtain ⟨he, hdel⟩ := List.mem_filter.1 he
    refine .inr (.inl ⟨e, mem_descendants_entries.1 he, by simpa using hdel, by simpa using hinline, rfl⟩)
  · obtain ⟨k, hk, hx⟩ := List.mem_flatMap.1 h
    obtain ⟨e, he, rfl⟩ := List.mem_map.1 (Marks.mem_of_mem_ascendingDistinct hk)
    obtain ⟨he, hinline⟩ := List.mem_filter.1 he
    obtain ⟨he, hdel⟩ := List.mem_filter.1 he
    refine .inr (.inr ⟨e, mem_descendants_entries.1 he, by simpa using hdel, hinline, ?_⟩)
    cases hl : d.line? e.startLine with
    | none =>
      rw [hl] at hx
      cases hx
    | some line =>
      rw [hl] at hx
      exact ⟨line, rfl, Marks.mem_deleteInline hx⟩

theorem replaceToken_mem_pendingEdits {d : Document} {e : Entry} {text : String}
    (he : e ∈ d.entries) (hm : e.mark = .renamed text) :
    Edit.replaceToken e.startLine e.tokenIndex text ∈ d.pendingEdits := by
  unfold pendingEdits
  simp only [List.mem_append]
  refine .inl (.inl (List.mem_filterMap.2 ⟨e, mem_descendants_entries.2 he, ?_⟩))
  rw [hm]

theorem dropLines_mem_pendingEdits {d : Document} {e : Entry} (he : e ∈ d.entries)
    (hm : e.mark = .deleted) (hi : e.inline = false) :
    Edit.dropLines e.startLine e.endLine ∈ d.pendingEdits := by
  unfold pendingEdits
  simp only [List.mem_append]
  refine .inl (.inr (List.mem_map.2 ⟨e, ?_, rfl⟩))
  simp [mem_descendants_entries.2 he, hm, hi]

theorem insertsNoLines_pendingEdits (d : Document) : Edit.InsertsNoLines d.pendingEdits := by
  intro after ls h
  rcases mem_pendingEdits h with ⟨_, _, _, _, hx⟩ | ⟨_, _, _, _, hx⟩ | ⟨_, _, _, _, _, _, _, _, _, hx⟩ <;>
    cases hx

theorem insertText_not_mem_pendingEdits (d : Document) (line token offset : Nat) (text : String) :
    Edit.insertText line token offset text ∉ d.pendingEdits := by
  intro h
  rcases mem_pendingEdits h with ⟨_, _, _, _, hx⟩ | ⟨_, _, _, _, hx⟩ | ⟨_, _, _, _, _, _, _, _, _, hx⟩ <;>
    cases hx

/-- A document without marks has no edits to render. -/
theorem pendingEdits_eq_nil {d : Document} (h : ∀ e ∈ d.entries, e.mark = .unmodified) :
    d.pendingEdits = [] := by
  apply List.eq_nil_iff_forall_not_mem.2
  intro x hx
  rcases mem_pendingEdits hx with ⟨e, he, _, hm, -⟩ | ⟨e, he, hm, -⟩ | ⟨e, he, hm, -⟩ <;>
    · rw [h e he] at hm
      cases hm

end Document

end YamlEdit
