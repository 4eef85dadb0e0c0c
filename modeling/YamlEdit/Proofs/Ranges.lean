import YamlEdit.Proofs.Scan

/-!
# Byte ranges of lines and tokens

A scan gives every line the byte range of its content, counting from the bytes of the lines and
terminators before it, and a line gives each of its tokens the range that follows the tokens
before it. Both ranges are where the text holds what they name: the bytes before a range's
start are those of a whole prefix of the text's characters, and the line's content, or the
token's text, follows that prefix and ends at the range's stop. In particular no range reaches
past the end of the text.
-/

namespace YamlEdit

/-- `r` is where `s` stands in `text`: a prefix of `text` of `r.start` bytes is followed by `s`,
which ends at `r.stop`. -/
def Span.Locates (r : Span) (s text : String) : Prop :=
  ∃ pre post : List Char, text.toList = pre ++ s.toList ++ post ∧
    (String.ofList pre).utf8ByteSize = r.start ∧ r.stop = r.start + s.utf8ByteSize

/-- A located range ends within the text. -/
theorem Span.Locates.stop_le {r : Span} {s text : String} (h : r.Locates s text) :
    r.stop ≤ text.utf8ByteSize := by
  obtain ⟨pre, post, htext, hstart, hstop⟩ := h
  have hsize := congrArg (fun cs => (String.ofList cs).utf8ByteSize) htext
  simp only [String.ofList_toList, String.ofList_append, String.utf8ByteSize_append] at hsize
  omega

/-- The sizes of tokens add up to the size of their text. -/
theorem foldr_byteSize (ts : List Token) :
    (ts.map Token.byteSize).foldr (· + ·) 0 = (Token.join ts).utf8ByteSize := by
  induction ts with
  | nil => simp [Token.join]
  | cons t ts ih => simp [Token.join, Token.byteSize, ih] at *

theorem toList_join_append_cons (pre : List Token) (t : Token) (post : List Token) :
    (Token.join (pre ++ t :: post)).toList =
      (Token.join pre).toList ++ t.text.toList ++ (Token.join post).toList := by
  simp [Token.join]

/-- A line's text splits at each of its tokens. -/
theorem toList_join_of_getElem? {ts : List Token} {i : Nat} {tk : Token} (h : ts[i]? = some tk) :
    (Token.join ts).toList =
      (Token.join (ts.take i)).toList ++ tk.text.toList ++ (Token.join (ts.drop (i + 1))).toList := by
  obtain ⟨hi, hget⟩ := List.getElem?_eq_some_iff.1 h
  rw [← hget, ← toList_join_append_cons, ← List.drop_eq_getElem_cons hi, List.take_append_drop]

namespace Line

/-- The range of the token at `i`: it starts after the bytes of the tokens before it. -/
theorem tokenRange?_eq {l : Line} {i : Nat} {tk : Token} (h : l.tokens[i]? = some tk) :
    l.tokenRange? i = some
      ⟨l.range.start + (Token.join (l.tokens.take i)).utf8ByteSize,
        l.range.start + (Token.join (l.tokens.take i)).utf8ByteSize + tk.text.utf8ByteSize⟩ := by
  simp only [tokenRange?, h, foldr_byteSize, Token.byteSize]

/-- The lines of a scan start where the bytes of the lines and terminators before them end. -/
theorem scanFrom_range {rule : IndentRule} {stack : IndentStack} {number offset : Nat}
    {ps : List (List Char × LineEnding)} {lines : List Line}
    (h : scanFrom rule stack number offset ps = .ok lines) {pre post : List Line} {l : Line}
    (hl : lines = pre ++ l :: post) :
    l.range = ⟨offset + (String.ofList (spell (pre.map piece))).utf8ByteSize,
      offset + (String.ofList (spell (pre.map piece))).utf8ByteSize + l.text.utf8ByteSize⟩ := by
  induction ps generalizing stack number offset lines pre with
  | nil =>
    simp only [scanFrom, Except.ok.injEq] at h
    subst h
    simp at hl
  | cons p ps ih =>
    obtain ⟨content, ending⟩ := p
    simp only [scanFrom] at h
    split at h
    · cases h
    split at h
    · cases h
    rename_i rest hrest
    cases h
    cases pre with
    | nil =>
      obtain ⟨rfl, -⟩ := List.cons.inj hl
      simp [Line.text, Lexer.join_lex]
    | cons l₀ pre =>
      obtain ⟨rfl, hrest'⟩ := List.cons.inj hl
      rw [ih hrest hrest']
      simp [piece, Line.text, Lexer.join_lex, LineEnding.byteSize]
      omega

/-- A line of a successful scan sits at its range in the text, and so does each of its tokens
at the range the line gives it. -/
theorem scan_locates {rule : IndentRule} {text : String} {lines : List Line}
    (h : scan rule text = .ok lines) {l : Line} (hl : l ∈ lines) :
    l.range.Locates l.text text ∧
      ∀ i tk, l.tokens[i]? = some tk → ∃ r, l.tokenRange? i = some r ∧ r.Locates tk.text text := by
  obtain ⟨pre, post, rfl⟩ := List.append_of_mem hl
  have hrange := scanFrom_range h rfl
  have hspell := (scan_scanned h).spell_eq
  simp only [List.map_append, List.map_cons, spell, List.flatMap_append, List.flatMap_cons]
    at hspell
  refine ⟨⟨spell (pre.map piece), (l.ending.text.toList ++ spell (post.map piece)), ?_, ?_, ?_⟩,
    fun i tk htk => ?_⟩
  · rw [← hspell]
    simp [piece, spell]
  · rw [hrange]
    simp
  · rw [hrange]
  · refine ⟨_, tokenRange?_eq htk, spell (pre.map piece) ++ (Token.join (l.tokens.take i)).toList,
      (Token.join (l.tokens.drop (i + 1))).toList ++ l.ending.text.toList ++
        spell (post.map piece), ?_, ?_, rfl⟩
    · rw [← hspell]
      simp only [piece, spell, Line.text, toList_join_of_getElem? htk]
      simp
    · rw [hrange]
      simp

end Line

end YamlEdit
