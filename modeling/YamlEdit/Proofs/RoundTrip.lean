import YamlEdit.Proofs.Parsed
import YamlEdit.Proofs.Pending

/-!
# Writing an unmarked document back

A document that nothing has marked renders as it was read: every line as its tokens spell it,
with its own terminator, so the rendered text is the text that was parsed, whatever its mix of
terminators and whether or not its last line has one. A mutation whose targets name no node
changes nothing and adds nothing, so it writes the text back too.
-/

namespace YamlEdit

open Node

namespace Edit

theorem render_nil {lines : List Line} (ht : Terminated (lines.map Line.piece)) :
    render [] lines = lines.map fun l => ⟨l.text, l.ending⟩ := by
  have hkeep : (lines.filter fun l => !isDropped [] l.number) = lines :=
    List.filter_eq_self.2 fun _ _ => rfl
  have htext : ∀ l : Line, lineText [] l = l.text := fun l =>
    lineText_of_untouched (fun _ _ h => by cases h) (fun _ _ _ h => by cases h)
  rw [render_of_insertsNoLines (fun _ _ h => by cases h) ht, hkeep]
  simp only [htext]
  exact endWith_lastEnding _ lines

end Edit

/-- The lines of a scan, each followed by its terminator, join back to the text. -/
theorem joinLines_scanned {text : String} {lines : List Line} (hs : Line.Scanned text lines) :
    joinLines (lines.map fun l => ⟨l.text, l.ending⟩) = text := by
  apply String.ext
  rw [toList_joinLines, ← hs.spell_eq, spell, List.flatMap_map, List.flatMap_map]
  rfl

namespace Document

theorem Parsed.pendingEdits_eq_nil {text : String} {d : Document} (hp : Parsed text d) :
    d.pendingEdits = [] :=
  Document.pendingEdits_eq_nil fun e he => by
    obtain ⟨n, hn, rfl⟩ := List.mem_map.1 he
    exact hp.unmarked n hn

/-- A parsed document renders as its text, its lines are those scanned, and a mutation of
targets that name no node marks nothing, adds nothing and writes the text back. -/
theorem parse_round_trip {rule : IndentRule} {t : String} {d : Document}
    (h : Document.parse rule t = .ok d) :
    d.text = t ∧ d.toLines = d.lines.map Line.text ∧
      ∀ (m : Mutation) (targets : List Nat),
        (∀ i ∈ targets, ∀ n ∈ preorderAll d.roots, n.id ≠ i) →
        m.apply d targets = (d, []) ∧
          joinLines ((m.apply d targets).1.render (m.apply d targets).2) = t := by
  have hp := parse_parsed h
  have hnil : d.pendingEdits = [] := hp.pendingEdits_eq_nil
  have hrender : d.render [] = d.lines.map fun l => ⟨l.text, l.ending⟩ := by
    rw [render, hnil, List.append_nil]
    exact Edit.render_nil hp.scanned.terminated
  have htext : d.text = t := by
    rw [text, hrender]
    exact joinLines_scanned hp.scanned
  refine ⟨htext, ?_, ?_⟩
  · rw [toLines, hrender, List.map_map]
    rfl
  · intro m targets habsent
    have happ := Mutation.apply_of_absent m habsent
    refine ⟨happ, ?_⟩
    rw [happ]
    exact htext

theorem parse_round_trip_mixed_endings :
    (Document.parse {} "a: b\r\n- c").map Document.text = .ok "a: b\r\n- c" := by
  have hok : (Document.parse {} "a: b\r\n- c").toOption.isSome = true := by decide
  cases hp : Document.parse {} "a: b\r\n- c" with
  | error e =>
    rw [hp] at hok
    cases hok
  | ok d =>
    show Except.ok d.text = _
    rw [(parse_round_trip hp).1]

end Document

end YamlEdit
