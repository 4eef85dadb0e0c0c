import Mathlib
import YamlEdit.Proofs.Bounds

/-!
# Lines and tokens tile their text

A successful scan numbers its lines `1, 2, …` and makes one line for every line feed of the
text, and one more for text after the last line feed. Only the last line can lack a terminator,
and a carriage return is part of a terminator exactly when a line feed follows it. The byte
ranges of the lines, each followed by its terminator, cover the text from its first byte to its
last without gap or overlap, and the text sliced at a line's range is that line's content. In
the same way the ranges a line gives its tokens cover its content, one after the other, each
slicing the text to its token; so the range of every parsed node slices the text to its name.

Slicing is byte slicing at character boundaries (`Span.slice`); `Span.Locates.slice` connects it
with the prefix description of `Span.Locates`.
-/

namespace YamlEdit

/-- The text between the two offsets of a range. -/
def Span.slice (r : Span) (text : String) : String :=
  String.Pos.Raw.extract text ⟨r.start⟩ ⟨r.stop⟩

/-- Ranges follow one another from `a` to `b`: the first starts at `a`, each next one where the
one before it stops, and the last stops at `b`. -/
def Span.Tiles : Nat → List Span → Nat → Prop
  | a, [], b => a = b
  | a, r :: rs, b => r.start = a ∧ Span.Tiles r.stop rs b

@[simp] theorem Span.tiles_nil {a b : Nat} : Span.Tiles a [] b ↔ a = b := Iff.rfl

@[simp] theorem Span.tiles_cons {a b : Nat} {r : Span} {rs : List Span} :
    Span.Tiles a (r :: rs) b ↔ r.start = a ∧ Span.Tiles r.stop rs b := Iff.rfl

/-! ## Slicing -/

section Slice

/-- A character takes at least one byte. -/
theorem byteLength_cons_pos (c : Char) (cs : List Char) : 0 < byteLength (c :: cs) := by
  have := c.utf8Size_pos
  simp only [byteLength]
  omega

theorem pos_ne_add {k n : Nat} (h : 0 < n) : (⟨k⟩ : String.Pos.Raw) ≠ ⟨k + n⟩ := by
  intro he
  have := congrArg String.Pos.Raw.byteIdx he
  simp only at this
  omega

/-- Reading on from the start of a slice collects exactly its characters. -/
theorem extract_go₂_append (mid rest : List Char) (k : Nat) :
    String.Pos.Raw.extract.go₂ (mid ++ rest) ⟨k⟩ ⟨k + byteLength mid⟩ = mid := by
  induction mid generalizing k with
  | nil => cases rest <;> simp [String.Pos.Raw.extract.go₂, byteLength]
  | cons c cs ih =>
    have hadd : (⟨k⟩ : String.Pos.Raw) + c = ⟨k + c.utf8Size⟩ := rfl
    simp only [List.cons_append, String.Pos.Raw.extract.go₂,
      if_neg (pos_ne_add (byteLength_cons_pos c cs)), hadd]
    rw [byteLength, ← Nat.add_assoc, ih]

/-- Skipping the characters before a slice lands on its start. -/
theorem extract_go₁_append (e : String.Pos.Raw) (pre rest : List Char) (k : Nat) :
    String.Pos.Raw.extract.go₁ (pre ++ rest) ⟨k⟩ ⟨k + byteLength pre⟩ e =
      String.Pos.Raw.extract.go₂ rest ⟨k + byteLength pre⟩ e := by
  induction pre generalizing k with
  | nil =>
    cases rest with
    | nil => simp [String.Pos.Raw.extract.go₁, String.Pos.Raw.extract.go₂]
    | cons d ds => simp [String.Pos.Raw.extract.go₁, byteLength]
  | cons c cs ih =>
    have hadd : (⟨k⟩ : String.Pos.Raw) + c = ⟨k + c.utf8Size⟩ := rfl
    simp only [List.cons_append, String.Pos.Raw.extract.go₁,
      if_neg (pos_ne_add (byteLength_cons_pos c cs)), hadd]
    rw [byteLength, ← Nat.add_assoc, ih]

/-- Slicing a text between the bytes of a prefix and the bytes of a middle part that follows it
gives that middle part. -/
theorem extract_append {text : String} {pre mid rest : List Char}
    (h : text.toList = pre ++ mid ++ rest) :
    String.Pos.Raw.extract text ⟨byteLength pre⟩ ⟨byteLength pre + byteLength mid⟩ =
      String.ofList mid := by
  cases mid with
  | nil => simp [String.Pos.Raw.extract, byteLength]
  | cons c cs =>
    have hlt : ¬ byteLength pre + byteLength (c :: cs) ≤ byteLength pre := by
      have := byteLength_cons_pos c cs
      omega
    simp only [String.Pos.Raw.extract, ge_iff_le, if_neg hlt]
    congr 1
    rw [h, List.append_assoc, show (0 : String.Pos.Raw) = ⟨0⟩ from rfl,
      show (⟨byteLength pre⟩ : String.Pos.Raw) = ⟨0 + byteLength pre⟩ by simp,
      extract_go₁_append, Nat.zero_add]
    exact extract_go₂_append (c :: cs) rest (byteLength pre)

/-- A range that locates a string in a text slices the text to that string. -/
theorem Span.Locates.slice {r : Span} {s text : String} (h : r.Locates s text) :
    r.slice text = s := by
  obtain ⟨pre, post, htext, hstart, hstop⟩ := h
  rw [← byteLength_eq_utf8ByteSize] at hstart
  have hsize : s.utf8ByteSize = byteLength s.toList := by
    rw [byteLength_eq_utf8ByteSize, String.ofList_toList]
  rw [Span.slice, hstop, ← hstart, hsize, extract_append htext, String.ofList_toList]

end Slice

/-! ## Lines -/

/-- Cutting makes one line per line feed, and one more for content after the last line feed. -/
theorem length_cutLines (acc cs : List Char) (hacc : '\n' ∉ acc) :
    (cutLines acc cs).length =
      cs.count '\n' + if acc ++ cs ≠ [] ∧ (acc ++ cs).getLast? ≠ some '\n' then 1 else 0 := by
  fun_induction cutLines acc cs with
  | case1 acc h => simp_all
  | case2 acc h =>
    have hlast : acc.getLast? ≠ some '\n' := fun hl => hacc (List.mem_of_getLast? hl)
    simp_all
  | case3 acc rest line ih =>
    rw [List.length_cons, ih (by simp), List.count_cons_self]
    cases rest with
    | nil => simp
    | cons c cs =>
      have hlast : (acc ++ '\n' :: c :: cs).getLast? = (c :: cs).getLast? := by
        rw [List.getLast?_append_of_ne_nil _ (by simp), List.getLast?_cons_cons]
      simp only [List.nil_append, ne_eq, reduceCtorEq, not_false_eq_true, true_and, hlast,
        List.append_eq_nil_iff, and_false]
      omega
  | case4 acc c rest hc ih =>
    rw [ih (by simp [hacc, Ne.symm hc]), List.count_cons_of_ne hc, List.append_assoc,
      List.singleton_append]

/-- A text has as many lines as line feeds, and one more when it does not end in one. -/
theorem length_splitLines (text : String) :
    (splitLines text).length =
      text.toList.count '\n' + if text ≠ "" ∧ text.toList.getLast? ≠ some '\n' then 1 else 0 := by
  rw [splitLines, length_cutLines [] _ (by simp), List.nil_append]
  simp only [ne_eq, String.toList_eq_nil_iff]

/-- The range of a line followed by its terminator. -/
def Line.extent (l : Line) : Span :=
  ⟨l.range.start, l.range.stop + l.ending.byteSize⟩

namespace Line

/-- The lines of a scan, each with its terminator, follow one another from the offset the scan
starts at to the end of what it reads. -/
theorem scanFrom_tiles {rule : IndentRule} {stack : IndentStack} {number offset : Nat}
    {ps : List (List Char × LineEnding)} {lines : List Line}
    (h : scanFrom rule stack number offset ps = .ok lines) :
    Span.Tiles offset (lines.map extent) (offset + (String.ofList (spell ps)).utf8ByteSize) := by
  induction ps generalizing stack number offset lines with
  | nil =>
    simp only [scanFrom, Except.ok.injEq] at h
    simp [← h]
  | cons p ps ih =>
    obtain ⟨content, ending⟩ := p
    cases hplace : stack.place rule (Text.indentation content) (Text.isBlank content) with
    | error f =>
      rw [scanFrom_cons_error hplace] at h
      cases h
    | ok stack' =>
      rw [scanFrom_cons_ok hplace] at h
      cases hrest : scanFrom rule stack' (number + 1)
          (offset + (String.ofList content).utf8ByteSize + ending.byteSize) ps with
      | error e =>
        rw [hrest] at h
        cases h
      | ok rest =>
        rw [hrest] at h
        cases h
        have hsize : offset + (String.ofList (spell ((content, ending) :: ps))).utf8ByteSize =
            offset + (String.ofList content).utf8ByteSize + ending.byteSize +
              (String.ofList (spell ps)).utf8ByteSize := by
          simp only [spell_cons, String.ofList_append, String.utf8ByteSize_append,
            String.ofList_toList, LineEnding.byteSize]
          omega
        rw [List.map_cons, Span.tiles_cons, hsize]
        exact ⟨rfl, ih hrest⟩

end Line

/-! ## Tokens -/

/-- The ranges of tokens laid one after another from the offset `a`. -/
def Token.spansFrom (a : Nat) : List Token → List Span
  | [] => []
  | t :: ts => ⟨a, a + t.byteSize⟩ :: Token.spansFrom (a + t.byteSize) ts

namespace Token

@[simp] theorem length_spansFrom (a : Nat) (ts : List Token) :
    (spansFrom a ts).length = ts.length := by
  induction ts generalizing a with
  | nil => rfl
  | cons t ts ih => simp [spansFrom, ih]

theorem spansFrom_tiles (a : Nat) (ts : List Token) :
    Span.Tiles a (spansFrom a ts) (a + (Token.join ts).utf8ByteSize) := by
  induction ts generalizing a with
  | nil => simp [spansFrom, Token.join]
  | cons t ts ih =>
    refine ⟨rfl, ?_⟩
    have h := ih (a + t.byteSize)
    simp only [Token.join, List.map_cons, String.join_cons, String.utf8ByteSize_append] at h ⊢
    rwa [byteSize, Nat.add_assoc] at h

/-- The range laid for the token at `k` starts after the bytes of the tokens before it. -/
theorem getElem?_spansFrom (a : Nat) (ts : List Token) (k : Nat) :
    (spansFrom a ts)[k]? = ts[k]?.map fun t =>
      ⟨a + (Token.join (ts.take k)).utf8ByteSize,
        a + (Token.join (ts.take k)).utf8ByteSize + t.text.utf8ByteSize⟩ := by
  induction ts generalizing a k with
  | nil => simp [spansFrom]
  | cons t ts ih =>
    cases k with
    | zero => simp [spansFrom, Token.join, byteSize]
    | succ k =>
      simp only [spansFrom, List.getElem?_cons_succ, ih, List.take_succ_cons, Token.join,
        List.map_cons, String.join_cons, String.utf8ByteSize_append, byteSize]
      congr 1
      funext u
      congr 1 <;> omega

end Token

/-- A line's token ranges are those laid one after another from the start of its content. -/
theorem Line.tokenRange?_eq_spansFrom (l : Line) (k : Nat) :
    l.tokenRange? k = (Token.spansFrom l.range.start l.tokens)[k]? := by
  rw [Token.getElem?_spansFrom]
  cases h : l.tokens[k]? with
  | none => simp [Line.tokenRange?, h]
  | some tk => rw [tokenRange?_eq h, Option.map_some]

/-! ## Nodes -/

section Nodes

open Forest

variable {lines : List Line} (hs : ∀ l ∈ lines, ∀ t ∈ l.tokens, Lexer.ScalarAlone t.tags)
include hs

/-- With distinct line numbers, each placed entry is named by a token of its own line and
takes that token's range. -/
theorem placements_tokenRange (hn : (lines.map Line.number).Nodup) {p : Entry × Option Nat}
    (hp : p ∈ placements lines) : ∃ l ∈ lines, l.number = p.1.startLine ∧
      ∃ tk, l.tokens[p.1.tokenIndex]? = some tk ∧
        p.1.name = tk.text ∧ l.tokenRange? p.1.tokenIndex = some p.1.range := by
  obtain ⟨l, hl, i, c, hc⟩ := placements_placedAt hs p hp
  have hpos := position_mem_tokenPositions hs hp
  rw [position, hc] at hpos
  obtain ⟨l', hl', hmap⟩ := List.mem_flatMap.1 hpos
  obtain ⟨j, hj, hji⟩ := List.mem_map.1 hmap
  simp only [entryAt, Prod.mk.injEq] at hji
  have hll : l' = l := List.inj_on_of_nodup_map hn hl' hl hji.1
  subst hll
  rw [List.mem_range'_1] at hj
  have hi : i < l'.tokens.length := by omega
  have htk := List.getElem?_eq_getElem hi
  rw [hc]
  refine ⟨l', hl', by simp [entryAt], l'.tokens[i], ?_, ?_, ?_⟩ <;>
    simp [entryAt, htk, Line.tokenRange?_eq htk]

end Nodes

/-! ## Scans -/

namespace Line

variable {rule : IndentRule} {text : String} {lines : List Line}

/-- Each line of a scan is cut as cutting cuts: its content holds no line feed, a bare line feed
does not follow a carriage return of the content, and a line without a terminator has content. -/
theorem scan_cutPiece (h : scan rule text = .ok lines) {l : Line} (hl : l ∈ lines) :
    CutPiece (piece l) := by
  have hpieces : lines.map piece = splitLines text := (scanFrom_ok h).1
  exact cutPiece_cutLines [] text.toList (by simp) (piece l)
    (by rw [← splitLines, ← hpieces]; exact List.mem_map_of_mem hl)

/-- The lines of a scan are numbered in order, one per line feed and one more for text after the
last line feed; each but the last has a terminator, and a carriage return belongs to a
terminator exactly when a line feed follows it. -/
theorem scan_lines (h : scan rule text = .ok lines) :
    lines.map Line.number = List.range' 1 lines.length ∧
      lines.length = text.toList.count '\n' +
        (if text ≠ "" ∧ text.toList.getLast? ≠ some '\n' then 1 else 0) ∧
      (∀ l ∈ lines.dropLast, l.ending ≠ .unterminated) ∧
      text.toList = lines.flatMap (fun l => l.text.toList ++ l.ending.text.toList) ∧
      ∀ l ∈ lines, '\n' ∉ l.text.toList ∧ (l.ending = .lf → l.text.toList.getLast? ≠ some '\r') := by
  have hs := scan_scanned h
  have hpieces : lines.map piece = splitLines text := (scanFrom_ok h).1
  refine ⟨hs.numbers, ?_, fun l hl => ?_, ?_, fun l hl => ?_⟩
  · rw [← length_splitLines, ← hpieces, List.length_map]
  · exact hs.terminated (piece l) (by rw [← List.map_dropLast]; exact List.mem_map_of_mem hl)
  · rw [← hs.spell_eq, spell, List.flatMap_map]
    rfl
  · exact ⟨(scan_cutPiece h hl).1, (scan_cutPiece h hl).2.1⟩

/-- The lines of a scan, each followed by its terminator, cover the text from its first byte to
its last. -/
theorem scan_tiles (h : scan rule text = .ok lines) :
    Span.Tiles 0 (lines.map extent) text.utf8ByteSize := by
  have ht := scanFrom_tiles h
  rwa [spell_splitLines, String.ofList_toList, Nat.zero_add] at ht

/-- A token range of a line of a scan slices the text to its token. -/
theorem scan_token_slice (h : scan rule text = .ok lines) {l : Line} (hl : l ∈ lines) {k : Nat}
    {r : Span} {tk : Token} (hr : l.tokenRange? k = some r) (htk : l.tokens[k]? = some tk) :
    r.slice text = tk.text := by
  obtain ⟨r', hr', hloc⟩ := (scan_locates h hl).2 k tk htk
  rw [hr] at hr'
  cases hr'
  exact hloc.slice

/-- A line of a scan slices the text to its content, and so do its token ranges to its tokens,
laid one after another over the content. -/
theorem scan_token_spans (h : scan rule text = .ok lines) {l : Line} (hl : l ∈ lines) :
    l.range.slice text = l.text ∧
      ∃ spans : List Span, spans.length = l.tokens.length ∧ (∀ k, l.tokenRange? k = spans[k]?) ∧
        Span.Tiles l.range.start spans l.range.stop ∧
        ∀ k r tk, l.tokenRange? k = some r → l.tokens[k]? = some tk → r.slice text = tk.text := by
  have hline := (scan_locates h hl).1
  refine ⟨hline.slice, Token.spansFrom l.range.start l.tokens, Token.length_spansFrom _ _,
    tokenRange?_eq_spansFrom l, ?_, fun k r tk hr htk => scan_token_slice h hl hr htk⟩
  obtain ⟨-, -, -, -, hstop⟩ := hline
  rw [hstop]
  exact Token.spansFrom_tiles _ _

/-- The range of every node parsed from the lines of a scan slices the text to the node's
name. -/
theorem scan_node_slices (h : scan rule text = .ok lines) :
    ∀ n ∈ Node.preorderAll (Forest.parse lines), n.entry.range.slice text = n.entry.name := by
  have hs := scan_scanned h
  have hnum : (lines.map Line.number).Nodup := by
    rw [hs.numbers]
    exact List.nodup_range' _
  intro n hn
  obtain ⟨p, hp, he⟩ := Document.entry_of_parse hn
  obtain ⟨l, hl, -, tk, htk, hname, hrange⟩ := placements_tokenRange hs.tokens_alone hnum hp
  rw [he]
  exact (scan_token_slice h hl hrange htk).trans hname.symm

/-- Line and token ranges tile the text of a successful scan. The lines are numbered `1, 2, …`,
one per line feed and one more when text follows the last line feed; only the last line can
lack a terminator, and a carriage return is part of a terminator exactly when a line feed
follows it. The lines' ranges, each with its terminator, follow one another from `0` to the
text's size, and each slices the text to its line's content. The token ranges of a line exist
for each of its tokens and for nothing further, follow one another over the line's range, and
slice the text to their tokens; so every parsed node's range slices the text to its name. -/
theorem scan_tiles_text (h : scan rule text = .ok lines) :
    lines.map Line.number = List.range' 1 lines.length ∧
      lines.length = text.toList.count '\n' +
        (if text ≠ "" ∧ text.toList.getLast? ≠ some '\n' then 1 else 0) ∧
      (∀ l ∈ lines.dropLast, l.ending ≠ .unterminated) ∧
      text.toList = lines.flatMap (fun l => l.text.toList ++ l.ending.text.toList) ∧
      (∀ l ∈ lines, '\n' ∉ l.text.toList ∧ (l.ending = .lf → l.text.toList.getLast? ≠ some '\r')) ∧
      Span.Tiles 0 (lines.map extent) text.utf8ByteSize ∧
      (∀ l ∈ lines, l.range.slice text = l.text ∧
        ∃ spans : List Span, spans.length = l.tokens.length ∧ (∀ k, l.tokenRange? k = spans[k]?) ∧
          Span.Tiles l.range.start spans l.range.stop ∧
          ∀ k r tk, l.tokenRange? k = some r → l.tokens[k]? = some tk → r.slice text = tk.text) ∧
      ∀ n ∈ Node.preorderAll (Forest.parse lines), n.entry.range.slice text = n.entry.name := by
  obtain ⟨hnumbers, hlength, hterminated, hspell, hcut⟩ := scan_lines h
  exact ⟨hnumbers, hlength, hterminated, hspell, hcut, scan_tiles h,
    fun _ hl => scan_token_spans h hl, scan_node_slices h⟩

theorem scan_tiles_text_mixed_endings :
    ∃ lines, scan {} "a: 1\r\nb: 2\nc: 3" = .ok lines ∧ lines.length = 3 ∧
      Span.Tiles 0 (lines.map extent) "a: 1\r\nb: 2\nc: 3".utf8ByteSize := by
  obtain ⟨lines, hs⟩ := Document.scan_ok_of_isSome (by decide :
    (scan {} "a: 1\r\nb: 2\nc: 3").toOption.isSome = true)
  have ht := scan_tiles_text hs
  refine ⟨lines, hs, ?_, ht.2.2.2.2.2.1⟩
  rw [ht.2.1]
  decide

end Line

end YamlEdit
