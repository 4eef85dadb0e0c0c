import YamlEdit.Proofs.Scan

/-!
# Blank lines that inherit their level

When white-space-only lines inherit their level, the scan gives such a line the level of the
line before it and leaves the stack alone, so its white space is never measured. The one
exception is the first line: whatever it holds, its indentation is the reference column that
every later line is measured against.

The main statement, `scan_outline_blank_line`, says that changing the white space of a blank
line that is not the first, emptying it included, changes neither where the scan stops, with
which fault and at which indentation, nor the level of any other line. Only byte offsets move,
and the scan's outcome without them, its *outline*, does not depend on where it starts.
`scan_blank_first_line` shows that the first line is an exception.
-/

namespace YamlEdit

open YamlEdit.Text

namespace IndentStack

/-- Every placement records the line as measured, so a stack that has placed a line has a
previous indentation. -/
theorem previous_isSome_of_place {rule : IndentRule} {s s' : IndentStack} {x : Nat}
    {blank : Bool} (h : s.place rule x blank = .ok s') : s'.previous?.isSome := by
  unfold place at h
  dsimp only at h
  split at h
  · cases h; rfl
  split at h
  · cases h; rfl
  split at h
  · split at h
    · cases h; rfl
    · cases h
  · cases h; rfl

/-- Once a line has been placed, an inheriting blank line leaves the stack as it is. -/
theorem place_blank {rule : IndentRule} (hinherit : rule.blankLinesInherit = true)
    {s : IndentStack} (hs : s.previous?.isSome) (x : Nat) : s.place rule x true = .ok s := by
  obtain ⟨p, hp⟩ := Option.isSome_iff_exists.1 hs
  obtain ⟨incs, prev⟩ := s
  simp only at hp
  subst hp
  simp [place, hinherit]

end IndentStack

theorem isBlank_dropLast {cs : List Char} (h : isBlank cs) : isBlank cs.dropLast := by
  unfold isBlank at *
  rw [List.all_eq_true] at *
  exact fun c hc => h c (List.dropLast_subset cs hc)

namespace Line

/-- What a scan reports apart from byte offsets: the fault, line number and indentation of the
line where it stops, or the level of every line. -/
def outline : Except IndentError (List Line) → Except (IndentFault × Nat × Nat) (List Nat)
  | .error e => .error (e.fault, e.line, e.indent)
  | .ok lines => .ok (lines.map level)

@[simp] theorem outline_map_cons (r : Except IndentError (List Line)) (l : Line) :
    outline (r.map (l :: ·)) = (outline r).map (l.level :: ·) := by
  cases r <;> rfl

variable {rule : IndentRule}

/-- The outline of a scan does not depend on the byte offset it starts at. -/
theorem outline_scanFrom_offset (s : IndentStack) (number offset offset' : Nat)
    (ps : List (List Char × LineEnding)) :
    outline (scanFrom rule s number offset ps) = outline (scanFrom rule s number offset' ps) := by
  induction ps generalizing s number offset offset' with
  | nil => rfl
  | cons p ps ih =>
    obtain ⟨content, ending⟩ := p
    cases h : s.place rule (indentation content) (Text.isBlank content) with
    | error f => rw [scanFrom_cons_error h, scanFrom_cons_error h]; rfl
    | ok s' => rw [scanFrom_cons_ok h, scanFrom_cons_ok h, outline_map_cons, outline_map_cons, ih]

section Inherit

variable (hinherit : rule.blankLinesInherit = true)
include hinherit

/-- Once a line has been placed, one blank line in place of another changes no outline. -/
theorem outline_scanFrom_swap_blank {b₁ b₂ : List Char} (hb₁ : Text.isBlank b₁)
    (hb₂ : Text.isBlank b₂) (e₁ e₂ : LineEnding) (rest : List (List Char × LineEnding)) :
    ∀ (ps : List (List Char × LineEnding)) (s : IndentStack) (number offset offset' : Nat),
      (ps ≠ [] ∨ s.previous?.isSome) →
      outline (scanFrom rule s number offset (ps ++ (b₁, e₁) :: rest)) =
        outline (scanFrom rule s number offset' (ps ++ (b₂, e₂) :: rest)) := by
  intro ps
  induction ps with
  | nil =>
    intro s number offset offset' hs
    have hs : s.previous?.isSome := hs.resolve_left (by simp)
    -- both blank lines keep the stack and take its level; the rest only moves in bytes
    have h₁ := IndentStack.place_blank hinherit hs (indentation b₁)
    have h₂ := IndentStack.place_blank hinherit hs (indentation b₂)
    rw [← hb₁] at h₁
    rw [← hb₂] at h₂
    rw [List.nil_append, List.nil_append, scanFrom_cons_ok h₁, scanFrom_cons_ok h₂,
      outline_map_cons, outline_map_cons, outline_scanFrom_offset s (number + 1) _ _ rest]
  | cons p ps ih =>
    intro s number offset offset' _
    obtain ⟨content, ending⟩ := p
    cases h : s.place rule (indentation content) (Text.isBlank content) with
    | error f =>
      rw [List.cons_append, List.cons_append, scanFrom_cons_error h, scanFrom_cons_error h]
      rfl
    | ok s' =>
      rw [List.cons_append, List.cons_append, scanFrom_cons_ok h, scanFrom_cons_ok h,
        outline_map_cons, outline_map_cons,
        ih s' _ _ _ (.inr (IndentStack.previous_isSome_of_place h))]

/-- Once a line has been placed, a blank last line adds its level at the end of the outline
and changes nothing else. -/
theorem outline_scanFrom_append_blank {b : List Char} (hb : Text.isBlank b) (e : LineEnding) :
    ∀ (ps : List (List Char × LineEnding)) (s : IndentStack) (number offset offset' : Nat),
      (ps ≠ [] ∨ s.previous?.isSome) →
      (outline (scanFrom rule s number offset (ps ++ [(b, e)]))).map (·.eraseIdx ps.length) =
        outline (scanFrom rule s number offset' ps) := by
  intro ps
  induction ps with
  | nil =>
    intro s number offset offset' hs
    have h := IndentStack.place_blank hinherit (hs.resolve_left (by simp)) (indentation b)
    rw [← hb] at h
    rw [List.nil_append, scanFrom_cons_ok h]
    rfl
  | cons p ps ih =>
    intro s number offset offset' _
    obtain ⟨content, ending⟩ := p
    cases h : s.place rule (indentation content) (Text.isBlank content) with
    | error f =>
      rw [List.cons_append, scanFrom_cons_error h, scanFrom_cons_error h]
      rfl
    | ok s' =>
      rw [List.cons_append, scanFrom_cons_ok h, scanFrom_cons_ok h, outline_map_cons,
        outline_map_cons, ← ih s' _ _ (offset' + (String.ofList content).utf8ByteSize +
          ending.byteSize) (.inr (IndentStack.previous_isSome_of_place h))]
      cases outline (scanFrom rule s' (number + 1)
          (offset + (String.ofList content).utf8ByteSize + ending.byteSize) (ps ++ [(b, e)])) <;>
        simp [Except.map]

end Inherit

/-- A successful scan has a level for each line, so removing a level past the last changes
nothing. -/
theorem outline_scanFrom_eraseIdx_length (s : IndentStack) (number offset : Nat)
    (ps : List (List Char × LineEnding)) :
    (outline (scanFrom rule s number offset ps)).map (·.eraseIdx ps.length) =
      outline (scanFrom rule s number offset ps) := by
  cases h : scanFrom rule s number offset ps with
  | error e => rfl
  | ok lines =>
    have hlen : lines.length = ps.length := by
      rw [← (scanFrom_ok h).1, List.length_map]
    simp [outline, Except.map, List.eraseIdx_of_length_le, hlen]

/-- The lines of a text that holds a line feed, then `b` and `c`, where `b` has no line feed:
those up to the line feed, then those `b` and `c` make. -/
theorem splitLines_after_newline (a' b c : String) :
    splitLines (a' ++ "\n" ++ b ++ c) = splitLines (a' ++ "\n") ++ cutLines [] (b.toList ++ c.toList) := by
  simp only [splitLines, String.toList_append, List.append_assoc]
  exact cutLines_append_newline [] a'.toList _

/-- Under inheritance, changing the white space of a blank line that is not the first, emptying
it included, changes neither where the scan stops, with which fault and at which indentation,
nor the level of any other line. The blank line is the one after the lines of `a`, which ends in
a line feed; it holds `b₁` or `b₂`, and is followed by the end of the text or a line feed. -/
theorem scan_outline_blank_line (hinherit : rule.blankLinesInherit = true) {a b₁ b₂ c : String}
    (ha : ∃ a', a = a' ++ "\n") (hb₁ : Text.isBlank b₁.toList) (hb₂ : Text.isBlank b₂.toList)
    (hn₁ : '\n' ∉ b₁.toList) (hn₂ : '\n' ∉ b₂.toList) (hc : c = "" ∨ ∃ c', c = "\n" ++ c') :
    (outline (scan rule (a ++ b₁ ++ c))).map (·.eraseIdx (splitLines a).length) =
      (outline (scan rule (a ++ b₂ ++ c))).map (·.eraseIdx (splitLines a).length) := by
  obtain ⟨a', rfl⟩ := ha
  have hA : splitLines (a' ++ "\n") ≠ [] := by
    simpa [splitLines] using cutLines_append_newline_ne_nil [] a'.toList
  simp only [scan, splitLines_after_newline]
  rcases hc with rfl | ⟨c', rfl⟩
  · have hlast : ∀ b : String, '\n' ∉ b.toList →
        cutLines [] (b.toList ++ "".toList) = if b.toList = [] then [] else [(b.toList, .unterminated)] := by
      intro b hb
      rw [String.toList_empty, cutLines_append_of_newline_free hb]
      simp [cutLines]
    rw [hlast b₁ hn₁, hlast b₂ hn₂]
    by_cases h₁ : b₁.toList = [] <;> by_cases h₂ : b₂.toList = []
    · simp [h₁, h₂]
    · rw [if_pos h₁, if_neg h₂, outline_scanFrom_append_blank hinherit hb₂ _ _ {} 1 0 0 (.inl hA),
        List.append_nil, outline_scanFrom_eraseIdx_length]
    · rw [if_neg h₁, if_pos h₂, outline_scanFrom_append_blank hinherit hb₁ _ _ {} 1 0 0 (.inl hA),
        List.append_nil, outline_scanFrom_eraseIdx_length]
    · rw [if_neg h₁, if_neg h₂,
        outline_scanFrom_swap_blank hinherit hb₁ hb₂ _ _ [] _ {} 1 0 0 (.inl hA)]
  · have hline : ∀ b : String, Text.isBlank b.toList → '\n' ∉ b.toList →
        ∃ p : List Char × LineEnding, Text.isBlank p.1 ∧
          cutLines [] (b.toList ++ ("\n" ++ c').toList) = p :: cutLines [] c'.toList := by
      intro b hb hn
      rw [cutLines_append_of_newline_free hn, String.toList_append, List.nil_append]
      refine ⟨_, ?_, rfl⟩
      split
      · exact isBlank_dropLast hb
      · exact hb
    obtain ⟨⟨p₁, e₁⟩, hp₁, h₁⟩ := hline b₁ hb₁ hn₁
    obtain ⟨⟨p₂, e₂⟩, hp₂, h₂⟩ := hline b₂ hb₂ hn₂
    rw [h₁, h₂, outline_scanFrom_swap_blank hinherit hp₁ hp₂ _ _ _ _ {} 1 0 0 (.inl hA)]

theorem scan_outline_blank_line_emptied :
    (({} : IndentRule).blankLinesInherit = true ∧ (∃ a', "a:\n" = a' ++ "\n") ∧
        Text.isBlank "      ".toList ∧ Text.isBlank "".toList ∧ '\n' ∉ "      ".toList ∧
        '\n' ∉ "".toList ∧ ("\n  b: 1" = "" ∨ ∃ c', "\n  b: 1" = "\n" ++ c')) ∧
      (outline (scan {} ("a:\n" ++ "      " ++ "\n  b: 1"))).map
          (·.eraseIdx (splitLines "a:\n").length) =
        (outline (scan {} ("a:\n" ++ "" ++ "\n  b: 1"))).map
          (·.eraseIdx (splitLines "a:\n").length) :=
  ⟨⟨rfl, ⟨"a:", rfl⟩, by decide, by decide, by decide, by decide, .inr ⟨"  b: 1", rfl⟩⟩,
    scan_outline_blank_line rfl ⟨"a:", rfl⟩ (by decide) (by decide) (by decide) (by decide)
      (.inr ⟨"  b: 1", rfl⟩)⟩

/-- The first line is no such blank line: blank or not, it sets the reference column, so a text
whose blank first line is indented rejects a following line that the same text with that line
emptied accepts. -/
theorem scan_blank_first_line :
    scan {} "  \na: 1" = .error ⟨.underflow, 2, ⟨3, 7⟩, 0⟩ ∧
      (scan {} "\na: 1").map (List.map level) = .ok [0, 0] :=
  ⟨rfl, rfl⟩

end Line

end YamlEdit
