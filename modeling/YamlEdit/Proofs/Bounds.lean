import YamlEdit.Mutation
import YamlEdit.Proofs.Ranges
import YamlEdit.Proofs.Parsed
import YamlEdit.Proofs.Render

/-!
# Indices stay in bounds

Scanning, parsing, mutating and rendering read tokens by index, cut token texts at byte offsets
and read the level table one level up. Every such read stays within what it reads:

* the level table is padded to the level of the node that enters it (`Forest.length_settle`);
* every node of a parsed document stands on a token of its line, and every token's byte range
  lies within the text (`Document.InBounds`);
* a flow entry that starts at a token ends at or after it on the same line, and the point after
  it is a character boundary of a token of the line, after the closers it takes
  (`Flow.entryEnd_bounds`, `Flow.entryEndPoint_inLine`);
* an insertion cuts its token between two characters, at most at the token's end
  (`insertStep_cut`);
* edits that name no line, or no token of their line, change nothing
  (`Edit.render_filter_touches`).
-/

namespace YamlEdit

open Text

/-! ## The level table -/

namespace Forest

/-- The table after a node enters it at `level` has a slot for every level up to it, so the
slot one level up can be read. -/
theorem length_settle (table : List (Option Nat)) (level id : Nat) :
    (settle table level id).length = level + 1 := by
  simp only [settle, List.length_append, List.length_take, List.length_replicate,
    List.length_singleton]
  omega

end Forest

/-! ## Flow entries -/

theorem byteLength_eq_utf8ByteSize (cs : List Char) :
    byteLength cs = (String.ofList cs).utf8ByteSize := by
  induction cs with
  | nil => simp [byteLength]
  | cons c cs ih => simp [byteLength, ih, String.ofList_cons, String.utf8ByteSize_append]

theorem byteLength_append (cs ds : List Char) :
    byteLength (cs ++ ds) = byteLength cs + byteLength ds := by
  simp [byteLength_eq_utf8ByteSize, String.ofList_append, String.utf8ByteSize_append]

namespace Flow

/-- The scan after an entry's first token ends on the last scalar seen: the first token itself,
or one of the tokens scanned. -/
theorem entryEndFrom_cases (depth last i : Nat) (ts : List Token) :
    entryEndFrom depth last i ts = last ∨
      (i ≤ entryEndFrom depth last i ts ∧ entryEndFrom depth last i ts < i + ts.length) := by
  induction ts generalizing depth last i with
  | nil => exact .inl rfl
  | cons t ts ih =>
    unfold entryEndFrom
    split
    · exact .inl rfl
    · split
      · right
        rcases ih depth i (i + 1) with h | ⟨h1, h2⟩
        · rw [h]
          simp
        · simp only [List.length_cons]
          omega
      · split
        · exact .inl rfl
        · rename_i d _
          rcases ih d last (i + 1) with h | ⟨h1, h2⟩
          · exact .inl h
          · right
            simp only [List.length_cons]
            omega

/-- A flow entry that starts at a token ends at or after it, on the same line. -/
theorem entryEnd_bounds {tokens : List Token} {index : Nat} (h : index < tokens.length) :
    index ≤ entryEnd tokens index ∧ entryEnd tokens index < tokens.length := by
  unfold entryEnd
  rcases entryEndFrom_cases 0 index (index + 1) (tokens.drop (index + 1)) with h' | ⟨h1, h2⟩
  · rw [h']
    omega
  · rw [List.length_drop] at h2
    omega

theorem trimStart_suffix (cs : List Char) : trimStart cs <:+ cs :=
  List.dropWhile_suffix _

/-- Dropping closers leaves a suffix of the text. -/
theorem stripClosers_suffix : ∀ (n : Nat) (cs : List Char), stripClosers n cs <:+ cs
  | 0, cs => List.suffix_refl cs
  | n + 1, cs => by
    unfold stripClosers
    split
    · rename_i c after h
      split
      · have hafter : after <:+ cs :=
          (List.suffix_cons c after).trans (h ▸ trimStart_suffix cs)
        exact (stripClosers_suffix n after).trans hafter
      · exact List.suffix_refl cs
    · exact List.suffix_refl cs

/-- The point lies in a token of the line, at a character boundary of that token's text, and
the closers it takes are text of that token before it. -/
def EntryEnd.InLine (line : Line) (p : EntryEnd) : Prop :=
  ∃ t, line.tokens[p.token]? = some t ∧
    ∃ k, p.offset = byteLength (t.text.toList.take k) ∧ p.closers.toList <+: t.text.toList

/-- The end of a token of the line is such a point. -/
theorem inLine_end_of_token {line : Line} {i : Nat} (hi : i < line.tokens.length) (last : Nat) :
    EntryEnd.InLine line ⟨last, i, (line.tokens[i]?.map Token.byteSize).getD 0, ""⟩ := by
  refine ⟨_, List.getElem?_eq_getElem hi, line.tokens[i].text.toList.length, ?_, List.nil_prefix⟩
  rw [List.getElem?_eq_getElem hi, Option.map_some, Option.getD_some, List.take_length,
    byteLength_eq_utf8ByteSize, String.ofList_toList]
  rfl

/-- The point after a flow entry that starts at a token of a line lies in that line. -/
theorem entryEndPoint_inLine {line : Line} {index : Nat} (h : index < line.tokens.length) :
    (entryEndPoint line index).InLine line := by
  obtain ⟨-, hlt⟩ := entryEnd_bounds h
  have hscalar := inLine_end_of_token hlt (entryEnd line.tokens index)
  unfold entryEndPoint
  dsimp only
  split
  · rename_i next hnext
    split
    · obtain ⟨pre, hpre⟩ := stripClosers_suffix
        (openCollections line.tokens (index + 1) (entryEnd line.tokens index)) next.text.toList
      generalize stripClosers (openCollections line.tokens (index + 1) (entryEnd line.tokens index))
        next.text.toList = rest at hpre ⊢
      refine ⟨next, hnext, pre.length, ?_, ?_⟩
      · dsimp only
        rw [← hpre, byteLength_append, List.take_left' rfl]
        omega
      · rw [String.toList_ofList]
        exact List.take_prefix _ _
    · exact hscalar
  · exact hscalar

end Flow

/-! ## Insertions into a token -/

theorem isBoundary_byteLength : ∀ cs : List Char, isBoundary (byteLength cs) cs = true
  | [] => rfl
  | c :: cs => by
    have hpos := Char.utf8Size_pos c
    obtain ⟨n, hn⟩ : ∃ n, c.utf8Size + byteLength cs = n + 1 :=
      ⟨c.utf8Size + byteLength cs - 1, by omega⟩
    rw [byteLength, hn, isBoundary, Bool.and_eq_true, decide_eq_true_eq,
      show n + 1 - c.utf8Size = byteLength cs by omega]
    exact ⟨by omega, isBoundary_byteLength cs⟩

/-- Cut at a character boundary, a text splits into the characters before it, with exactly
that many bytes, and the rest. -/
theorem cutBytes_of_isBoundary : ∀ {n : Nat} {cs : List Char}, isBoundary n cs = true →
    (cutBytes n cs).1 ++ (cutBytes n cs).2 = cs ∧ byteLength (cutBytes n cs).1 = n
  | 0, [], _ => ⟨rfl, rfl⟩
  | 0, c :: cs, _ => by
    have hpos := Char.utf8Size_pos c
    simp only [cutBytes, if_neg (show ¬c.utf8Size ≤ 0 by omega)]
    exact ⟨rfl, rfl⟩
  | _ + 1, [], h => by cases h
  | n + 1, c :: cs, h => by
    rw [isBoundary, Bool.and_eq_true, decide_eq_true_eq] at h
    obtain ⟨hfront, hback⟩ := cutBytes_of_isBoundary h.2
    simp only [cutBytes, if_pos h.1, List.cons_append, hfront, byteLength, hback, true_and]
    omega

/-- Cut after the bytes of its first characters, a text splits into those characters and the
rest. -/
theorem cutBytes_byteLength_append : ∀ pre rest : List Char,
    cutBytes (byteLength pre) (pre ++ rest) = (pre, rest)
  | [], [] => rfl
  | [], c :: cs => by
    have hpos := Char.utf8Size_pos c
    simp only [byteLength, List.nil_append, cutBytes, if_neg (show ¬c.utf8Size ≤ 0 by omega)]
  | c :: pre, rest => by
    simp only [byteLength, List.cons_append, cutBytes, if_pos (Nat.le_add_right _ _),
      Nat.add_sub_cancel_left, cutBytes_byteLength_append pre rest]

/-- An insertion cuts its token between two characters, at most at the token's end: the text
before it is a run of whole characters with exactly the bytes it skips. -/
theorem insertStep_cut (position offset : Nat) (rest : List Char) :
    insertStep position offset rest ≤ byteLength rest ∧
      (cutBytes (insertStep position offset rest) rest).1 ++
          (cutBytes (insertStep position offset rest) rest).2 = rest ∧
      byteLength (cutBytes (insertStep position offset rest) rest).1 =
        insertStep position offset rest := by
  have hb : isBoundary (insertStep position offset rest) rest = true := by
    unfold insertStep
    dsimp only
    split
    · assumption
    · exact isBoundary_byteLength rest
  refine ⟨?_, cutBytes_of_isBoundary hb⟩
  unfold insertStep
  dsimp only
  split <;> omega

/-! ## Edits naming nothing -/

namespace Edit

/-- Whether one of the lines has the number `l` and a token at index `t`. -/
def namesToken (lines : List Line) (l t : Nat) : Bool :=
  lines.any fun line => line.number == l && decide (t < line.tokens.length)

/-- Whether an edit names one of the lines, and for an edit of a token, one of that line's
tokens. -/
def touches (lines : List Line) : Edit → Bool
  | .replaceToken l t _ => namesToken lines l t
  | .insertText l t _ _ => namesToken lines l t
  | .dropLines start stop => lines.any fun line => decide (start ≤ line.number ∧ line.number ≤ stop)
  | .insertLines after _ => lines.any fun line => line.number == after

theorem flatMap_filter_of_nil {α β : Type} {p : α → Bool} {f : α → List β} :
    ∀ {xs : List α}, (∀ a ∈ xs, p a = false → f a = []) → (xs.filter p).flatMap f = xs.flatMap f
  | [], _ => rfl
  | a :: xs, h => by
    have ih := flatMap_filter_of_nil fun b hb => h b (List.mem_cons_of_mem a hb)
    by_cases ha : p a = true
    · simp [ha, ih]
    · simp [ha, ih, h a List.mem_cons_self (by simpa using ha)]

section Touches

variable {lines : List Line} {line : Line} (hline : line ∈ lines) (edits : List Edit)
include hline

theorem namesToken_of_mem {i : Nat} (hi : i < line.tokens.length) :
    namesToken lines line.number i = true :=
  List.any_eq_true.2 ⟨line, hline, by simp [hi]⟩

theorem replacement?_filter_touches {i : Nat} (hi : i < line.tokens.length) :
    replacement? (edits.filter (touches lines)) line.number i = replacement? edits line.number i := by
  rw [replacement?_eq, replacement?_eq, replacements, replacements, List.filterMap_filter]
  refine congrArg List.getLast? (List.filterMap_congr fun e _ => ?_)
  cases e with
  | replaceToken l t text =>
    by_cases h : (l == line.number && t == i) = true
    · simp only [Bool.and_eq_true, beq_iff_eq] at h
      obtain ⟨rfl, rfl⟩ := h
      simp [touches, namesToken_of_mem hline hi]
    · simp [h]
  | _ => simp

theorem insertions_filter_touches {i : Nat} (hi : i < line.tokens.length) :
    insertions (edits.filter (touches lines)) line.number i = insertions edits line.number i := by
  refine flatMap_filter_of_nil fun e _ he => ?_
  cases e with
  | insertText l t offset text =>
    by_cases h : (l == line.number && t == i) = true
    · simp only [Bool.and_eq_true, beq_iff_eq] at h
      obtain ⟨rfl, rfl⟩ := h
      simp [touches, namesToken_of_mem hline hi] at he
    · simp [h]
  | _ => rfl

theorem isDropped_filter_touches :
    isDropped (edits.filter (touches lines)) line.number = isDropped edits line.number := by
  rw [isDropped, isDropped, List.any_filter]
  refine List.any_congr rfl fun e => ?_
  cases e with
  | dropLines start stop =>
    by_cases h : start ≤ line.number ∧ line.number ≤ stop
    · have ht : touches lines (.dropLines start stop) = true :=
        List.any_eq_true.2 ⟨line, hline, by simpa using h⟩
      simp [ht]
    · have h' : (decide (start ≤ line.number) && decide (line.number ≤ stop)) = false := by
        simpa using h
      simp only [h', Bool.and_false]
  | _ => simp

theorem insertedAfter_filter_touches :
    insertedAfter (edits.filter (touches lines)) line.number = insertedAfter edits line.number := by
  refine flatMap_filter_of_nil fun e _ he => ?_
  cases e with
  | insertLines after ls =>
    by_cases h : after = line.number
    · subst h
      simp [touches, List.any_eq_false] at he
      exact absurd rfl (he line hline)
    · simp [h]
  | _ => rfl

theorem lineText_filter_touches :
    lineText (edits.filter (touches lines)) line = lineText edits line := by
  unfold lineText
  congr 1
  refine List.map_congr_left fun ⟨t, i⟩ hti => ?_
  have hi : i < line.tokens.length := (List.mem_zipIdx' hti).1
  simp only [replacement?_filter_touches hline edits hi, insertions_filter_touches hline edits hi]

theorem renderLine_filter_touches (separator : LineEnding) :
    renderLine (edits.filter (touches lines)) separator line = renderLine edits separator line := by
  unfold renderLine
  rw [isDropped_filter_touches hline, lineText_filter_touches hline,
    insertedAfter_filter_touches hline]

end Touches

/-- Edits that name no line of the text, or no token of the line they name, change nothing
when the script is rendered. -/
theorem render_filter_touches (edits : List Edit) (lines : List Line) :
    render (edits.filter (touches lines)) lines = render edits lines := by
  unfold render
  rw [List.flatMap_congr fun line hline => renderLine_filter_touches hline edits _]

end Edit

/-! ## Parsed documents -/

namespace Document

/-- What keeps the reads of a document in range: every token lies within the text, and every
node stands on a token of its line whose flow entry ends on that line, at or after the node's
token, at a point inside a token of the line. -/
structure InBounds (text : String) (d : Document) : Prop where
  /-- Every token's byte range ends within the text, so no sum of sizes passes the text's. -/
  ranges : ∀ l ∈ d.lines, ∀ i tk, l.tokens[i]? = some tk →
    ∃ r, l.tokenRange? i = some r ∧ r.stop ≤ text.utf8ByteSize
  /-- Every node's entry runs from its token to a later token of its line. -/
  entries : ∀ n ∈ d.descendants, ∃ line, d.line? n.entry.startLine = some line ∧
    n.entry.tokenIndex ≤ Flow.entryEnd line.tokens n.entry.tokenIndex ∧
    Flow.entryEnd line.tokens n.entry.tokenIndex < line.tokens.length ∧
    (Flow.entryEndPoint line n.entry.tokenIndex).InLine line

theorem Parsed.inBounds {text : String} {d : Document} (hp : Parsed text d)
    (hscan : ∀ l ∈ d.lines, ∀ i tk, l.tokens[i]? = some tk →
      ∃ r, l.tokenRange? i = some r ∧ r.Locates tk.text text) :
    InBounds text d where
  ranges l hl i tk htk := by
    obtain ⟨r, hr, hloc⟩ := hscan l hl i tk htk
    exact ⟨r, hr, hloc.stop_le⟩
  entries n hn := by
    obtain ⟨l, hl, hnum, tk, htk, -⟩ := hp.tokens n (List.mem_mergeSort.1 hn)
    have hi : n.entry.tokenIndex < l.tokens.length := (List.getElem?_eq_some_iff.1 htk).1
    obtain ⟨hle, hlt⟩ := Flow.entryEnd_bounds hi
    exact ⟨l, hnum ▸ hp.line?_of_mem hl, hle, hlt, Flow.entryEndPoint_inLine hi⟩

/-- Parsing, rendering and their helpers read only what is there. In a parsed document every
token lies within the text and every node's flow entry ends at a point inside a token of its
line; edits naming no line or token of the lines rendered change nothing; a splice cuts its
token between two characters, at most at its end; and the level table has the slot one level
above the node that enters it. -/
theorem reads_in_bounds {rule : IndentRule} {text : String} {d : Document}
    (hd : Document.parse rule text = .ok d) :
    InBounds text d ∧
      (∀ (script : List Edit) (lines : List Line),
        Edit.render (script.filter (Edit.touches lines)) lines = Edit.render script lines) ∧
      (∀ position offset rest,
        insertStep position offset rest ≤ byteLength rest ∧
          (cutBytes (insertStep position offset rest) rest).1 ++
              (cutBytes (insertStep position offset rest) rest).2 = rest ∧
          byteLength (cutBytes (insertStep position offset rest) rest).1 =
            insertStep position offset rest) ∧
      ∀ table level id, level - 1 < (Forest.settle table level id).length := by
  have hscan := (scan_of_parse hd).1
  refine ⟨(parse_parsed hd).inBounds fun l hl => (Line.scan_locates hscan hl).2,
    Edit.render_filter_touches, insertStep_cut, fun table level id => ?_⟩
  rw [Forest.length_settle]
  omega

theorem reads_in_bounds_flow :
    ∃ d, Document.parse {} "k: [a, {b: c}]\n" = .ok d ∧ InBounds "k: [a, {b: c}]\n" d :=
  let ⟨d, hd⟩ := parse_ok_of_isSome (by decide : (Document.parse {} "k: [a, {b: c}]\n").toOption.isSome = true)
  ⟨d, hd, (reads_in_bounds hd).1⟩

end Document

end YamlEdit
