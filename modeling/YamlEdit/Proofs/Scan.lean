import YamlEdit.Line.Scan
import YamlEdit.Proofs.Lexer

/-!
# What a scan keeps of its text

A successful scan loses nothing: its lines, each followed by its terminator, spell the text; the
lines are numbered from 1 without gaps; and only the last line can lack a terminator. These are
the facts about lines that rendering relies on to write an untouched document back byte for
byte.
-/

namespace YamlEdit

/-- The text spelt by line contents, each followed by its terminator. -/
def spell (ps : List (List Char × LineEnding)) : List Char :=
  ps.flatMap fun p => p.1 ++ p.2.text.toList

@[simp] theorem spell_nil : spell [] = [] := rfl

@[simp] theorem spell_cons (p : List Char × LineEnding) (ps : List (List Char × LineEnding)) :
    spell (p :: ps) = p.1 ++ p.2.text.toList ++ spell ps := by
  simp [spell]

/-- Every line but the last has a terminator. -/
def Terminated (ps : List (α × LineEnding)) : Prop :=
  ∀ p ∈ ps.dropLast, p.2 ≠ .unterminated

theorem terminated_cons {p : α × LineEnding} {ps : List (α × LineEnding)}
    (hp : p.2 ≠ .unterminated) (hps : Terminated ps) : Terminated (p :: ps) := by
  intro q hq
  cases ps with
  | nil => simp at hq
  | cons r rs =>
    rw [List.dropLast_cons_cons, List.mem_cons] at hq
    rcases hq with rfl | hq
    · exact hp
    · exact hps q hq

/-- Cutting loses no character: the pieces and their terminators spell the pending content
followed by the rest of the text. -/
theorem spell_cutLines (acc cs : List Char) : spell (cutLines acc cs) = acc ++ cs := by
  fun_induction cutLines acc cs with
  | case1 acc h => simp_all
  | case2 acc h => simp [LineEnding.text]
  | case3 acc rest line ih =>
    simp only [spell_cons, ih, line]
    split
    · rename_i hr
      obtain ⟨ys, rfl⟩ := List.getLast?_eq_some_iff.1 (by simpa using hr)
      simp [LineEnding.text]
    · simp [LineEnding.text]
  | case4 acc c rest hc ih => simp [ih]

theorem terminated_cutLines (acc cs : List Char) : Terminated (cutLines acc cs) := by
  fun_induction cutLines acc cs with
  | case1 acc h => simp [Terminated]
  | case2 acc h => simp [Terminated]
  | case3 acc rest line ih =>
    apply terminated_cons _ ih
    simp only [line]
    split <;> simp
  | case4 acc c rest hc ih => exact ih

theorem spell_splitLines (text : String) : spell (splitLines text) = text.toList := by
  simp [splitLines, spell_cutLines]

/-- Characters without a line feed only extend the pending content. -/
theorem cutLines_append_of_newline_free {xs : List Char} (hxs : '\n' ∉ xs) (acc ys : List Char) :
    cutLines acc (xs ++ ys) = cutLines (acc ++ xs) ys := by
  induction xs generalizing acc with
  | nil => simp
  | cons c xs ih =>
    rw [List.mem_cons, not_or] at hxs
    rw [List.cons_append, cutLines.eq_3 _ _ _ (Ne.symm hxs.1), ih hxs.2]
    simp

/-- After a line feed the cut starts afresh: the lines up to it, then those of the rest. -/
theorem cutLines_append_newline (acc xs ys : List Char) :
    cutLines acc (xs ++ '\n' :: ys) = cutLines acc (xs ++ ['\n']) ++ cutLines [] ys := by
  induction xs generalizing acc with
  | nil => simp [cutLines]
  | cons c xs ih =>
    by_cases hc : c = '\n'
    · subst hc
      simp only [List.cons_append, cutLines, ih []]
    · rw [List.cons_append, List.cons_append, cutLines.eq_3 _ _ _ hc, cutLines.eq_3 _ _ _ hc, ih]

theorem cutLines_append_newline_ne_nil (acc xs : List Char) : cutLines acc (xs ++ ['\n']) ≠ [] := by
  induction xs generalizing acc with
  | nil => simp [cutLines]
  | cons c xs ih =>
    by_cases hc : c = '\n'
    · subst hc
      simp [cutLines]
    · rw [List.cons_append, cutLines.eq_3 _ _ _ hc]
      exact ih _

/-- A line content with its terminator as cutting gives it: the content holds no line feed, a
content ended by a bare line feed does not end in a carriage return, and a content without a
terminator is not empty. -/
def CutPiece (p : List Char × LineEnding) : Prop :=
  '\n' ∉ p.1 ∧ (p.2 = .lf → p.1.getLast? ≠ some '\r') ∧ (p.2 = .unterminated → p.1 ≠ [])

theorem terminated_of_cons {p : α × LineEnding} {ps : List (α × LineEnding)}
    (h : Terminated (p :: ps)) : Terminated ps := by
  intro q hq
  cases ps with
  | nil => simp at hq
  | cons r rs => exact h q (by rw [List.dropLast_cons_cons]; exact List.mem_cons_of_mem _ hq)

/-- Cutting what well-cut pieces spell gives the pieces back. -/
theorem cutLines_spell {ps : List (List Char × LineEnding)} (hp : ∀ p ∈ ps, CutPiece p)
    (ht : Terminated ps) : cutLines [] (spell ps) = ps := by
  induction ps with
  | nil => simp [cutLines]
  | cons p ps ih =>
    obtain ⟨c, e⟩ := p
    obtain ⟨hn, hcr, hne⟩ := hp _ List.mem_cons_self
    have hrest := ih (fun q hq => hp q (List.mem_cons_of_mem _ hq)) (terminated_of_cons ht)
    rw [spell_cons]
    cases e with
    | unterminated =>
      obtain rfl : ps = [] := by
        cases ps with
        | nil => rfl
        | cons q qs => exact absurd rfl (ht (c, .unterminated) (by simp))
      have hc := hne rfl
      simp only [LineEnding.text, String.toList_empty, List.append_nil, spell_nil]
      rw [← List.append_nil c, cutLines_append_of_newline_free hn]
      simp [cutLines, hc]
    | lf =>
      simp only [LineEnding.text, List.append_assoc]
      rw [show "\n".toList = ['\n'] from rfl, List.singleton_append,
        cutLines_append_of_newline_free hn, List.nil_append, cutLines, hrest]
      have : (c.getLast? == some '\r') = false := by simpa using hcr rfl
      simp [this]
    | crlf =>
      simp only [LineEnding.text, List.append_assoc]
      rw [show "\r\n".toList = ['\r', '\n'] from rfl, List.cons_append, List.cons_append,
        List.nil_append, ← List.singleton_append, ← List.append_assoc,
        cutLines_append_of_newline_free (by simpa using hn), List.nil_append, cutLines, hrest]
      simp

/-- Cutting gives well-cut pieces. -/
theorem cutPiece_cutLines (acc cs : List Char) (hacc : '\n' ∉ acc) :
    ∀ p ∈ cutLines acc cs, CutPiece p := by
  fun_induction cutLines acc cs with
  | case1 acc h => simp
  | case2 acc h =>
    simp only [List.mem_singleton]
    rintro p rfl
    exact ⟨hacc, by simp, by simpa using h⟩
  | case3 acc rest line ih =>
    rintro p (_ | ⟨_, hp⟩)
    · simp only [line]
      split
      · rename_i hr
        exact ⟨fun h => hacc ((List.dropLast_sublist _).subset h), by simp, by simp⟩
      · rename_i hr
        exact ⟨hacc, by simpa using hr, by simp⟩
    · exact ih (by simp) p hp
  | case4 acc c rest hc ih => exact ih (by simp [hacc, Ne.symm hc])

namespace Line

section Step

variable {rule : IndentRule} {s : IndentStack} {number offset : Nat} {content : List Char}
  {ending : LineEnding} {ps : List (List Char × LineEnding)}

/-- A line whose indentation has no place on the stack stops the scan there. -/
theorem scanFrom_cons_error {f : IndentFault}
    (h : s.place rule (Text.indentation content) (Text.isBlank content) = .error f) :
    scanFrom rule s number offset ((content, ending) :: ps) =
      .error ⟨f, number, ⟨offset, offset + (String.ofList content).utf8ByteSize⟩,
        Text.indentation content⟩ := by
  simp [scanFrom, h]

/-- A line placed on the stack comes first, at the stack's new level, and the scan goes on
after its terminator. -/
theorem scanFrom_cons_ok {s' : IndentStack}
    (h : s.place rule (Text.indentation content) (Text.isBlank content) = .ok s') :
    scanFrom rule s number offset ((content, ending) :: ps) =
      (scanFrom rule s' (number + 1)
          (offset + (String.ofList content).utf8ByteSize + ending.byteSize) ps).map
        ({ tokens := Lexer.lex (String.ofList content), number, level := s'.level,
           range := ⟨offset, offset + (String.ofList content).utf8ByteSize⟩, ending } :: ·) := by
  rw [scanFrom, h]
  dsimp only
  split <;> simp_all [Except.map]

end Step

/-- The content and terminator of a line. -/
def piece (l : Line) : List Char × LineEnding :=
  (l.text.toList, l.ending)

/-- What a successful scan of `text` guarantees about its lines. -/
structure Scanned (text : String) (lines : List Line) : Prop where
  /-- The lines and their terminators spell the text. -/
  spell_eq : spell (lines.map piece) = text.toList
  /-- The lines are numbered `1, 2, …` in order. -/
  numbers : lines.map Line.number = List.range' 1 lines.length
  /-- Only the last line can lack a terminator. -/
  terminated : Terminated (lines.map piece)
  /-- No token is both a scalar and punctuation. -/
  tokens_alone : ∀ l ∈ lines, ∀ t ∈ l.tokens, Lexer.ScalarAlone t.tags

theorem scanFrom_ok {rule : IndentRule} {stack : IndentStack} {number offset : Nat}
    {ps : List (List Char × LineEnding)} {lines : List Line}
    (h : scanFrom rule stack number offset ps = .ok lines) :
    lines.map piece = ps ∧ lines.map Line.number = List.range' number lines.length ∧
      ∀ l ∈ lines, ∀ t ∈ l.tokens, Lexer.ScalarAlone t.tags := by
  induction ps generalizing stack number offset lines with
  | nil =>
    simp only [scanFrom, Except.ok.injEq] at h
    simp [← h]
  | cons p ps ih =>
    obtain ⟨content, ending⟩ := p
    simp only [scanFrom] at h
    split at h
    · cases h
    split at h
    · cases h
    rename_i rest hrest
    cases h
    obtain ⟨hpieces, hnumbers, halone⟩ := ih hrest
    refine ⟨?_, ?_, ?_⟩
    · simp [piece, hpieces, Line.text, Lexer.join_lex]
    · simp [hnumbers, List.range'_succ]
    · rintro l (_ | ⟨_, hl⟩)
      · exact Lexer.lex_scalarAlone _
      · exact halone l hl

/-- A scanned line holds the tokens of its own text. -/
theorem tokens_of_scanFrom {rule : IndentRule} {stack : IndentStack} {number offset : Nat}
    {ps : List (List Char × LineEnding)} {lines : List Line}
    (h : scanFrom rule stack number offset ps = .ok lines) : ∀ l ∈ lines, l.tokens = Lexer.lex l.text := by
  induction ps generalizing stack number offset lines with
  | nil =>
    simp only [scanFrom, Except.ok.injEq] at h
    simp [← h]
  | cons p ps ih =>
    obtain ⟨content, ending⟩ := p
    simp only [scanFrom] at h
    split at h
    · cases h
    split at h
    · cases h
    rename_i rest hrest
    cases h
    rintro l (_ | ⟨_, hl⟩)
    · simp [Line.text, Lexer.join_lex]
    · exact ih hrest l hl

theorem scan_scanned {rule : IndentRule} {text : String} {lines : List Line}
    (h : scan rule text = .ok lines) : Scanned text lines := by
  obtain ⟨hpieces, hnumbers, halone⟩ := scanFrom_ok h
  refine ⟨?_, hnumbers, ?_, halone⟩
  · rw [hpieces, spell_splitLines]
  · rw [hpieces]
    exact terminated_cutLines [] _

end Line

end YamlEdit
