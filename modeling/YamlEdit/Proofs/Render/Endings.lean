import YamlEdit.Proofs.Ranges.Tiling

/-!
# Terminators of rendered lines

Rendering writes, for each source line in order, the line itself unless it is dropped and then
the lines inserted after it. All of these end with the source line's terminator, or with the
text's separator when the source line has none: the first terminator of the text, a line feed
when there is none. Only the last line written is different: it ends as the last source line
does. So a rendered text ends with a terminator exactly when its source does, and every other
line break in it is a line feed or a carriage return and line feed that the source uses.
-/

namespace YamlEdit

namespace Edit

/-- The texts a source line gives: its own unless it is dropped, then the lines inserted after
it. -/
def outputTexts (edits : List Edit) (line : Line) : List String :=
  (if isDropped edits line.number then [] else [lineText edits line]) ++
    insertedAfter edits line.number

/-- The terminator of the lines a source line gives: its own, or the text's separator when it
has none. -/
def terminatorFor (lines : List Line) (line : Line) : LineEnding :=
  if line.ending == .unterminated then separatorOf lines else line.ending

theorem renderLine_eq (edits : List Edit) (lines : List Line) (line : Line) :
    renderLine edits (separatorOf lines) line =
      (outputTexts edits line).map fun text => ⟨text, terminatorFor lines line⟩ := by
  unfold renderLine outputTexts terminatorFor
  split <;> split <;> simp

/-- The separator is a terminator; it is one the lines use, or a line feed when they use none. -/
theorem separatorOf_spec (lines : List Line) :
    separatorOf lines ≠ .unterminated ∧
      (separatorOf lines ∈ lines.map Line.ending ∨
        (∀ l ∈ lines, l.ending = .unterminated) ∧ separatorOf lines = .lf) := by
  unfold separatorOf
  cases h : (lines.map Line.ending).find? (· != .unterminated) with
  | none =>
    have hall := List.find?_eq_none.1 h
    refine ⟨by simp, .inr ⟨fun l hl => ?_, rfl⟩⟩
    simpa using hall l.ending (List.mem_map_of_mem hl)
  | some e =>
    have he := List.find?_some h
    exact ⟨by simpa using he, .inl (List.mem_of_find?_eq_some h)⟩

/-- The terminator of the lines a source line gives is a terminator the lines use, or a line feed
when they use none. -/
theorem terminatorFor_spec (lines : List Line) {line : Line} (hl : line ∈ lines) :
    terminatorFor lines line ≠ .unterminated ∧
      (terminatorFor lines line ∈ lines.map Line.ending ∨
        (∀ l ∈ lines, l.ending = .unterminated) ∧ terminatorFor lines line = .lf) := by
  unfold terminatorFor
  split
  · exact separatorOf_spec lines
  · rename_i hne
    exact ⟨by simpa using hne, .inl (List.mem_map_of_mem hl)⟩

theorem dropLast_endWith (ending : LineEnding) (ls : List RenderedLine) :
    (endWith ending ls).dropLast = ls.dropLast := by
  induction ls with
  | nil => rfl
  | cons l ls ih =>
    cases ls with
    | nil => rfl
    | cons b bs =>
      show (l :: endWith ending (b :: bs)).dropLast = _
      rw [List.dropLast_cons_of_ne_nil (by cases bs <;> simp [endWith]), ih,
        List.dropLast_cons_cons]

theorem getLast?_endWith (ending : LineEnding) (ls : List RenderedLine) :
    (endWith ending ls).getLast? = ls.getLast?.map fun l => { l with ending } := by
  induction ls with
  | nil => rfl
  | cons l ls ih =>
    cases ls with
    | nil => rfl
    | cons b bs =>
      show (l :: endWith ending (b :: bs)).getLast? = _
      rw [List.getLast?_cons_of_ne_nil (by cases bs <;> simp [endWith]), ih,
        List.getLast?_cons_cons]

/-- The rendered lines before the last one, each with the terminator of the source line it
comes from. -/
theorem dropLast_render (edits : List Edit) (lines : List Line) :
    ((render edits lines).map RenderedLine.ending).dropLast =
      (lines.flatMap fun l => (outputTexts edits l).map fun _ => terminatorFor lines l).dropLast := by
  rw [render_eq_endWith, ← List.map_dropLast, dropLast_endWith, List.map_dropLast,
    List.map_flatMap]
  simp only [renderLine_eq, List.map_map]
  rfl

theorem map_text_render (edits : List Edit) (lines : List Line) :
    (render edits lines).map RenderedLine.text = lines.flatMap (outputTexts edits) := by
  rw [render_eq_endWith, map_text_endWith, List.map_flatMap]
  simp only [renderLine_eq, List.map_map]
  congr 1
  funext l
  simp [Function.comp_def]

/-- The last rendered line ends as the last source line does. -/
theorem getLast?_render (edits : List Edit) {lines : List Line} (hne : lines ≠ []) :
    ∀ r ∈ (render edits lines).getLast?, r.ending = (lines.getLast hne).ending := by
  intro r hr
  rw [render_eq_endWith, getLast?_endWith] at hr
  obtain ⟨l, -, rfl⟩ := Option.map_eq_some_iff.1 hr
  simp [lastEnding, List.getLast?_eq_some_getLast hne]

/-- Every rendered line but the last ends with a terminator the source uses, or with a line feed
when the source uses none. -/
theorem dropLast_render_spec (edits : List Edit) (lines : List Line) :
    ∀ r ∈ (render edits lines).dropLast, r.ending ≠ .unterminated ∧
      (r.ending ∈ lines.map Line.ending ∨
        (∀ l ∈ lines, l.ending = .unterminated) ∧ r.ending = .lf) := by
  intro r hr
  rw [render_eq_endWith, dropLast_endWith] at hr
  obtain ⟨l, hl, hr⟩ := List.mem_flatMap.1 (List.dropLast_sublist _ |>.subset hr)
  rw [renderLine_eq] at hr
  obtain ⟨text, -, rfl⟩ := List.mem_map.1 hr
  exact terminatorFor_spec lines hl

end Edit

/-- The text of rendered lines ends with the last one's terminator. -/
theorem toList_joinLines_getLast {rs : List RenderedLine} {r : RenderedLine}
    (hr : r ∈ rs.getLast?) : ∃ pre, (joinLines rs).toList = pre ++ r.ending.text.toList := by
  obtain ⟨front, rfl⟩ := List.getLast?_eq_some_iff.1 hr
  refine ⟨(joinLines front).toList ++ r.text.toList, ?_⟩
  simp [joinLines, String.toList_join]

namespace Line

/-- A scanned text ends with a line feed exactly when its last line has a terminator. -/
theorem scan_getLast_terminated {rule : IndentRule} {text : String} {lines : List Line}
    (h : scan rule text = .ok lines) (hne : lines ≠ []) :
    (lines.getLast hne).ending ≠ .unterminated ↔ text.toList.getLast? = some '\n' := by
  have hspell := (scan_lines h).2.2.2.1
  have hcut := scan_cutPiece h (List.getLast_mem hne)
  rw [← List.dropLast_append_getLast hne, List.flatMap_append, List.flatMap_singleton] at hspell
  rw [hspell]
  obtain ⟨hnl, -, hunterm⟩ := hcut
  cases hend : (lines.getLast hne).ending with
  | unterminated =>
    have hc := hunterm hend
    simp only [piece] at hnl hc
    simp only [LineEnding.text, String.toList_empty, List.append_nil, ne_eq, not_true_eq_false,
      false_iff]
    rw [List.getLast?_append_of_ne_nil _ hc]
    intro hl
    exact hnl (List.mem_of_getLast? hl)
  | lf => simp [LineEnding.text]
  | crlf => simp [LineEnding.text]

end Line

namespace Edit

/-- Rendered lines carry the terminators of their source lines. Each source line gives, in
order, its own line unless dropped and then the lines inserted after it; every rendered line but
the last ends with the terminator of the source line it comes from, or with the text's separator
when that line has none, and the last ends as the last source line does. So every line break
but the last is a line feed or a carriage return and line feed the source uses (a line feed when
it uses none), and for scanned lines the rendered text ends with a terminator exactly when the
scanned text does. -/
theorem render_terminators (edits : List Edit) {lines : List Line} (hne : lines ≠ []) :
    (render edits lines).map RenderedLine.text = lines.flatMap (outputTexts edits) ∧
      ((render edits lines).map RenderedLine.ending).dropLast =
        (lines.flatMap fun l => (outputTexts edits l).map fun _ => terminatorFor lines l).dropLast ∧
      (∀ r ∈ (render edits lines).getLast?, r.ending = (lines.getLast hne).ending) ∧
      (∀ r ∈ (render edits lines).dropLast, r.ending ≠ .unterminated ∧
        (r.ending ∈ lines.map Line.ending ∨
          (∀ l ∈ lines, l.ending = .unterminated) ∧ r.ending = .lf)) ∧
      ∀ (rule : IndentRule) (text : String), Line.scan rule text = .ok lines →
        ∀ r ∈ (render edits lines).getLast?,
          (∃ pre, (joinLines (render edits lines)).toList = pre ++ r.ending.text.toList) ∧
          (r.ending ≠ .unterminated ↔ text.toList.getLast? = some '\n') := by
  refine ⟨map_text_render edits lines, dropLast_render edits lines, getLast?_render edits hne,
    dropLast_render_spec edits lines, fun rule text hscan r hr => ⟨toList_joinLines_getLast hr, ?_⟩⟩
  rw [getLast?_render edits hne r hr]
  exact Line.scan_getLast_terminated hscan hne

theorem render_terminators_after_unterminated :
    ∃ lines, Line.scan {} "a\r\nb" = .ok lines ∧ ∃ hne : lines ≠ [],
      ∀ r ∈ (render [.insertLines 2 ["c"]] lines).getLast?,
        r.ending = (lines.getLast hne).ending := by
  obtain ⟨lines, hs⟩ := Document.scan_ok_of_isSome (by decide :
    (Line.scan {} "a\r\nb").toOption.isSome = true)
  have hlen : lines.length = 2 := by
    rw [(Line.scan_lines hs).2.1]
    decide
  have hne : lines ≠ [] := List.ne_nil_of_length_pos (by omega)
  exact ⟨lines, hs, hne, (render_terminators _ hne).2.2.1⟩

end Edit

end YamlEdit
