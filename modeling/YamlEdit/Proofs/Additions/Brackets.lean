import YamlEdit.Proofs.Additions
import YamlEdit.Proofs.Bounds
import YamlEdit.Proofs.Brackets.Entries
import YamlEdit.Proofs.Forest.WellFormed

/-!
# Copies and new siblings inside flow collections

A copy or a new sibling of an inline node that is no mapping value is inserted at the end point
of the node's flow entry (`Flow.entryEndPoint`): after the entry's last scalar and, when the
entry opened collections, after as many closers as it left open, cut from the front of the next
token. On a tight line those closers are exactly the ones at the front of that token, so the
entry up to the point is a balanced stretch (`Flow.entry_balanced`) and the point sees the same
open collections as the entry's own token. What a copy carries along, the rest of the entry and
the closers, is that same stretch, so every text the script writes into a line has balanced
brackets, and a line written with it keeps its brackets balanced.

Main statement: `Document.flow_additions_at_entry_depth`. A trailing comma or an empty
collection between an entry's last scalar and its closers makes a line not tight; there the
closers are not cut, and the point stays inside the entry's collections.
-/

namespace YamlEdit

open YamlEdit.Flow YamlEdit.Node

/-! ## Writing balanced text into a line -/

/-- Splicing texts with balanced brackets into a text puts balanced stretches into its
brackets. -/
theorem erases_spliceFrom {ins : List (Nat × String)}
    (h : ∀ p ∈ ins, Balanced (brackets p.2.toList)) :
    ∀ (position : Nat) (rest : List Char),
      Erases (brackets (spliceFrom position rest ins)) (brackets rest) := by
  induction ins with
  | nil =>
    intro position rest
    rw [spliceFrom_nil]
    exact .refl
  | cons p ins ih =>
    intro position rest
    have hsplice : spliceFrom position rest (p :: ins) =
        (cutBytes (insertStep position p.1 rest) rest).1 ++ p.2.toList ++
          spliceFrom (position + insertStep position p.1 rest)
            (cutBytes (insertStep position p.1 rest) rest).2 ins := rfl
    obtain ⟨-, hcut, -⟩ := insertStep_cut position p.1 rest
    rw [hsplice]
    generalize insertStep position p.1 rest = step at hcut ⊢
    rw [brackets_append, brackets_append]
    conv => rhs; rw [← hcut, brackets_append]
    have hrest := (ih (fun q hq => h q (List.mem_cons_of_mem p hq)) (position + step)
      (cutBytes step rest).2).append_left (brackets (cutBytes step rest).1 ++ brackets p.2.toList)
    exact hrest.trans (erases_insert (h p List.mem_cons_self) _ _)

theorem erases_splice {base : String} {ins : List (Nat × String)}
    (h : ∀ p ∈ ins, Balanced (brackets p.2.toList)) :
    Erases (brackets (splice base ins).toList) (brackets base.toList) := by
  unfold splice
  rw [String.toList_ofList]
  exact erases_spliceFrom (fun p hp => h p (List.mem_mergeSort.1 hp)) 0 base.toList

/-- Texts that each take balanced stretches in, joined, take balanced stretches in. -/
theorem erases_join_map {α : Type} (f g : α → String) :
    ∀ {xs : List α}, (∀ a ∈ xs, Erases (brackets (f a).toList) (brackets (g a).toList)) →
      Erases (brackets (String.join (xs.map f)).toList) (brackets (String.join (xs.map g)).toList)
  | [], _ => .refl
  | a :: xs, h => by
    simp only [List.map_cons, String.join_cons, String.toList_append, brackets_append]
    exact (h a List.mem_cons_self).append
      (erases_join_map f g fun b hb => h b (List.mem_cons_of_mem a hb))

/-- Lists that each take balanced stretches in, concatenated, take balanced stretches in. -/
theorem erases_flatMap {α : Type} (f g : α → List Char) :
    ∀ {xs : List α}, (∀ a ∈ xs, Erases (f a) (g a)) → Erases (xs.flatMap f) (xs.flatMap g)
  | [], _ => .refl
  | a :: xs, h => by
    simp only [List.flatMap_cons]
    exact (h a List.mem_cons_self).append
      (erases_flatMap f g fun b hb => h b (List.mem_cons_of_mem a hb))

@[simp] theorem Token.isSpan_withText (t : Token) (text : String) :
    ({ t with text } : Token).isSpan = t.isSpan := rfl

/-! ## The end point of a flow entry -/

namespace Flow

/-- The tokens of a line before byte `o` of its token `k`: the tokens before it, then the text
of the token up to that byte, with the token's tags. -/
def tokensBefore (tokens : List Token) (k o : Nat) : List Token :=
  tokens.take k ++
    (tokens[k]?.map fun t => { t with text := String.ofList (cutBytes o t.text.toList).1 }).toList

/-- Inside a scalar or a comment every byte sees the brackets of the tokens up to that one. -/
theorem bracketsOf_tokensBefore_of_isSpan {tokens : List Token} {k : Nat} {t : Token}
    (h : tokens[k]? = some t) (hs : t.isSpan = true) (o : Nat) :
    bracketsOf (tokensBefore tokens k o) = bracketsOf (tokens.take (k + 1)) := by
  rw [tokensBefore, List.take_add_one, h]
  simp [hs]

/-- Past the closers it cuts, the end point of an entry of a tight, balanced line closes the
entry: the entry from its second token to its last scalar, and the closers up to the point,
have balanced brackets, and up to the point the line has the brackets it had before the entry
with that stretch after them. -/
theorem entryEndPoint_spec {line : Line} (hl : Lexed line.tokens) (ht : Tight line.tokens)
    (hbal : Balanced (bracketsOf line.tokens)) {f : Nat} {t₀ : Token}
    (hf : line.tokens[f]? = some t₀) (hs : t₀.isScalar = true) :
    ∃ B, Mutation.tokenTexts line (f + 1) (entryEndPoint line f).last = Token.join B ∧
      (∀ t ∈ B, t ∈ line.tokens ∧ t.isComment = false) ∧
      Balanced (bracketsOf B ++ brackets (entryEndPoint line f).closers.toList) ∧
      bracketsOf (tokensBefore line.tokens (entryEndPoint line f).token
          (entryEndPoint line f).offset) =
        bracketsOf (line.tokens.take f) ++
          (bracketsOf B ++ brackets (entryEndPoint line f).closers.toList) := by
  obtain ⟨B, R, D, hsplit, hend, hcom, hlast, hfb, hstop, -, hopen⟩ := entryEnd_split hf hs
  -- the line after the entry's token is read on the stack owed just before it
  have hdrop : line.tokens.drop f = t₀ :: (B ++ R) := by
    rw [drop_eq_cons_of_getElem? hf, hsplit]
  have hline : bracketsOf line.tokens = bracketsOf (line.tokens.take f) ++ bracketsOf (B ++ R) := by
    conv => lhs; rw [← List.take_append_drop f line.tokens, hdrop]
    simp [Token.isSpan, hs]
  rw [Flow.Balanced, hline] at hbal
  obtain ⟨S, -, hS⟩ := nest_append_eq_some hbal
  have hcases := entry_balanced hl ht hf hs hsplit hcom hlast hfb hstop hS
  have htexts : Mutation.tokenTexts line (f + 1) (f + B.length) = Token.join B := by
    rw [Mutation.tokenTexts, hsplit, show f + B.length + 1 - (f + 1) = B.length by omega,
      List.take_left' rfl]
  have hsub : ∀ t ∈ B, t ∈ line.tokens := fun t ht =>
    List.mem_of_mem_drop (hsplit ▸ List.mem_append_left R ht)
  have htake : line.tokens.take (f + B.length + 1) = line.tokens.take f ++ t₀ :: B := by
    rw [Nat.add_assoc, List.take_add, hdrop, List.take_succ_cons, List.take_left' rfl]
  rcases hcases with ⟨rfl, hB⟩ | ⟨T, R', pre, rfl, hT, hDpos, hpre, -, hclosed⟩
  · have hp : entryEndPoint line f = ⟨f + B.length, f + B.length,
        (line.tokens[f + B.length]?.map Token.byteSize).getD 0, ""⟩ := by
      unfold entryEndPoint
      simp only [hend, hopen, Nat.lt_irrefl, decide_false, Bool.false_and, Bool.false_eq_true,
        if_false]
      split <;> rfl
    obtain ⟨u, hu, hus⟩ : ∃ u, line.tokens[f + B.length]? = some u ∧ u.isScalar = true := by
      cases hB' : B.getLast? with
      | none =>
        rw [List.getLast?_eq_none_iff] at hB'
        subst hB'
        exact ⟨t₀, hf, hs⟩
      | some u =>
        refine ⟨u, ?_, hlast u hB'⟩
        have hpos : 0 < B.length := List.length_pos_iff.2 fun h => by simp [h] at hB'
        have h := congrArg (·[B.length - 1]?) hsplit
        simp only [List.getElem?_drop, List.getElem?_append_left (by omega : B.length - 1 < B.length)]
          at h
        rw [show f + B.length = f + 1 + (B.length - 1) by omega, h, ← List.getLast?_eq_getElem?, hB']
    rw [hp]
    refine ⟨B, htexts, fun t ht => ⟨hsub t ht, hcom t ht⟩, by simpa using hB, ?_⟩
    rw [bracketsOf_tokensBefore_of_isSpan hu (by simp [Token.isSpan, hus]), htake]
    simp [Token.isSpan, hs]
  · have hT0 : line.tokens[f + B.length + 1]? = some T := by
      rw [show f + B.length + 1 = f + 1 + B.length + 0 by omega, getElem?_after_stretch hsplit]
      rfl
    have hTs : T.isScalar = false := by
      simp only [Token.isSpan, Bool.or_eq_false_iff] at hT
      exact hT.1
    generalize hrest : stripClosers D T.text.toList = rest at hpre
    have hp : entryEndPoint line f =
        ⟨f + B.length, f + B.length + 1, byteLength pre, String.ofList pre⟩ := by
      unfold entryEndPoint
      simp only [hend, hopen, hT0, hDpos, hTs, decide_true, Bool.not_false, Bool.and_self, if_true,
        hrest]
      rw [hpre, byteLength_append, List.length_append, Nat.add_sub_cancel, Nat.add_sub_cancel,
        List.take_left' rfl]
    rw [hp]
    refine ⟨B, htexts, fun t ht => ⟨hsub t ht, hcom t ht⟩, by simpa using hclosed, ?_⟩
    simp only [tokensBefore, hT0, Option.map_some, Option.toList_some]
    rw [hpre, cutBytes_byteLength_append, htake]
    have hs' : t₀.isSpan = true := by simp [Token.isSpan, hs]
    simp only [bracketsOf_append, bracketsOf_cons, bracketsOf_nil, Token.isSpan_withText, hT, hs',
      if_true, Bool.false_eq_true, if_false, String.toList_ofList, List.nil_append, List.append_nil,
      List.append_assoc]

/-- The end point of an entry of a tight, balanced line sees the collections open before the
entry, and only those. -/
theorem nest_tokensBefore_entryEndPoint {line : Line} (hl : Lexed line.tokens)
    (ht : Tight line.tokens) (hbal : Balanced (bracketsOf line.tokens)) {f : Nat} {t₀ : Token}
    (hf : line.tokens[f]? = some t₀) (hs : t₀.isScalar = true) (owed : List Char) :
    nest owed (bracketsOf (tokensBefore line.tokens (entryEndPoint line f).token
        (entryEndPoint line f).offset)) =
      nest owed (bracketsOf (line.tokens.take f)) := by
  obtain ⟨B, -, -, hclosed, hbefore⟩ := entryEndPoint_spec hl ht hbal hf hs
  rw [hbefore]
  simpa using nest_insert_balanced hclosed owed (bracketsOf (line.tokens.take f)) []

/-- A run of tokens whose scalars and comments hold no brackets has the brackets of its
punctuation. -/
theorem brackets_join {ts : List Token}
    (h : ∀ t ∈ ts, t.isSpan = true → brackets t.text.toList = []) :
    brackets (Token.join ts).toList = bracketsOf ts := by
  induction ts with
  | nil => rfl
  | cons t ts ih =>
    rw [Token.join, List.map_cons, String.join_cons, String.toList_append, brackets_append]
    rw [Token.join] at ih
    rw [ih fun u hu => h u (List.mem_cons_of_mem t hu), bracketsOf_cons]
    by_cases hs : t.isSpan = true
    · rw [if_pos hs, h t List.mem_cons_self hs]
    · rw [if_neg hs]

/-- The separator of a line is a comma with white space around it. -/
theorem brackets_separator (line : Line) : brackets (separator line).toList = [] := by
  unfold separator
  cases h : (line.tokens.map Token.text).find? fun t => Text.trim t.toList == [','] with
  | none => rfl
  | some t =>
    have ht := List.find?_some h
    simp only [beq_iff_eq] at ht
    rw [Option.getD_some, ← brackets_trimStart, ← brackets_trimEnd]
    change brackets (Text.trim t.toList) = []
    rw [ht]
    rfl

end Flow

/-! ## What a copy or a new sibling inserts -/

namespace Mutation

variable {d : Document} {w : String} {targets : List Nat} {m : Mutation}

/-- An insertion of a copy or sibling script is made for an inline target that is no mapping
value, at the end point of its entry: the line's separator, the name, and then nothing, a colon
for a new sibling of a flow mapping key, or for a copy of one, the rest of its entry up to the
point. -/
theorem insertText_of_mem_apply (hm : m = .duplicate w ∨ m = .insert w) {k i o : Nat} {s : String}
    (hx : Edit.insertText k i o s ∈ (m.apply d targets).2) :
    ∃ e ∈ insertionOrder d targets, ∃ line, d.line? e.startLine = some line ∧
      e.inline = true ∧ e.role ≠ .mappingValue ∧ k = line.number ∧
      i = (Flow.entryEndPoint line e.tokenIndex).token ∧
      o = (Flow.entryEndPoint line e.tokenIndex).offset ∧
      ∃ tail, (tail = "" ∨ tail = ":" ∨
        tail = tokenTexts line (e.tokenIndex + 1) (Flow.entryEndPoint line e.tokenIndex).last ++
          (Flow.entryEndPoint line e.tokenIndex).closers) ∧
        s = Flow.separator line ++ w ++ tail := by
  rcases hm with rfl | rfl <;> obtain ⟨e, he, hx⟩ := List.mem_flatMap.1 hx <;>
    simp only [duplicateEdits, insertEdits] at hx
  -- both scripts insert only for an inline entry that is no mapping value, on the line it names
  all_goals
    split at hx
    · cases hx
    rename_i line hline
    split at hx
    · simp at hx
    split at hx
    · simp at hx
    rename_i hi hmv
    simp only [List.mem_singleton, Edit.insertText.injEq] at hx
    obtain ⟨rfl, rfl, rfl, rfl⟩ := hx
    refine ⟨e, he, line, hline, by simpa using hi, by simpa using hmv, rfl, rfl, rfl, _, ?_, rfl⟩
    split <;> simp

end Mutation

/-! ## Lines with copies and new siblings -/

namespace Document

section Additions

variable {text : String} {d : Document} (hp : Parsed text d)
  (hwf : Forest.WellFormed text d.lines d.roots) (targets : List Nat) (w : String) {m : Mutation}
  (hm : m = .duplicate w ∨ m = .insert w) {l : Line} (hl : l ∈ d.lines)
  (hlex : l.tokens = Lexer.lex l.text) (htight : Tight l.tokens)
  (hbal : Balanced (bracketsOf l.tokens))
  (hscalars : ∀ tk ∈ l.tokens, tk.isScalar = true → brackets tk.text.toList = [])
  (hw : brackets w.toList = [])
include hp hwf hm hl hlex htight hbal hscalars hw

/-- On a tight, balanced line whose scalars hold no brackets, every text a copy or sibling script
inserts has balanced brackets, for a name without brackets. -/
theorem balanced_insertText_additions {i o : Nat} {s : String}
    (hx : Edit.insertText l.number i o s ∈ (m.apply d targets).2) : Balanced (brackets s.toList) := by
  obtain ⟨e, he, line, hline, -, -, hk, -, -, tail, htail, rfl⟩ :=
    Mutation.insertText_of_mem_apply hm hx
  obtain ⟨n, hn, -, rfl⟩ := (Mutation.mem_insertionOrder hp.searchable).1 he
  obtain rfl : l = line := (hp.line_eq (mem_of_line? hline) hl hk.symm).symm
  simp only [String.toList_append, brackets_append, brackets_separator, hw, List.nil_append]
  rcases htail with rfl | rfl | rfl
  · exact rfl
  · exact rfl
  · obtain ⟨tk, htk, hts⟩ := hwf.scalar_on_line hp hl hn (hp.number_of_line? hline).symm
    have hlexed : Lexed l.tokens := hlex ▸ lexed_lex l.text
    obtain ⟨B, htexts, hsub, hclosed, -⟩ := entryEndPoint_spec hlexed htight hbal htk hts
    -- the entry holds no comment, so its spans are scalars, which hold no brackets
    have hnone : ∀ t ∈ B, t.isSpan = true → brackets t.text.toList = [] := by
      intro t ht hs
      obtain ⟨hmem, hcom⟩ := hsub t ht
      exact hscalars t hmem (by simpa [Token.isSpan, hcom] using hs)
    rw [htexts, String.toList_append, brackets_append, brackets_join hnone]
    exact hclosed

/-- On such a line, a copy or sibling script puts balanced stretches into the brackets of the
line's punctuation: only mapping values, which are scalars, are replaced, and what goes into a
punctuation token is a balanced text. -/
theorem erases_renderTokens_additions :
    Erases (bracketsOf (Edit.renderTokens (m.apply d targets).2 l)) (bracketsOf l.tokens) := by
  have hsrc : bracketsOf l.tokens =
      l.tokens.zipIdx.flatMap fun p => if p.1.isSpan then [] else brackets p.1.text.toList := by
    conv_lhs => rw [← List.zipIdx_map_fst 0 l.tokens]
    rw [bracketsOf, List.flatMap_map]
  rw [hsrc, Edit.renderTokens, bracketsOf, List.flatMap_map]
  apply erases_flatMap
  rintro ⟨tk, i⟩ hti
  have htk : l.tokens[i]? = some tk := List.mem_zipIdx_iff_getElem?.1 hti
  dsimp only [Function.comp]
  rw [Token.isSpan_withText]
  split
  · exact .refl
  · rename_i hspan
    have hnorep : Edit.replacement? (m.apply d targets).2 l.number i = none := by
      rw [replacement?_additions hp targets w hm hl htk, if_neg]
      rintro ⟨n, hn, -, -, -, hnl, rfl⟩
      obtain ⟨tk', htk', hts⟩ := hwf.scalar_on_line hp hl hn hnl
      rw [htk, Option.some.injEq] at htk'
      subst htk'
      exact hspan (by simp [Token.isSpan, hts])
    rw [hnorep, Option.getD_none]
    exact erases_splice fun q hq => balanced_insertText_additions hp hwf targets w hm hl hlex
      htight hbal hscalars hw (Edit.mem_insertions.1 hq)

omit hscalars in
/-- When the line's comments hold no brackets either, a copy or sibling script puts balanced
stretches into the brackets of the whole line. -/
theorem erases_lineText_additions
    (hspans : ∀ tk ∈ l.tokens, tk.isSpan = true → brackets tk.text.toList = []) :
    Erases (brackets (Edit.lineText (m.apply d targets).2 l).toList) (brackets l.text.toList) := by
  have htext : l.text = String.join (l.tokens.zipIdx.map fun p => p.1.text) := by
    have h := Lexer.join_lex l.text
    rw [← hlex, Token.join, ← List.zipIdx_map_fst 0 l.tokens, List.map_map] at h
    exact h.symm
  rw [lineText_additions hp targets w hm hl, htext]
  apply erases_join_map
  rintro ⟨tk, i⟩ hti
  have htk : l.tokens[i]? = some tk := List.mem_zipIdx_iff_getElem?.1 hti
  dsimp only
  refine (erases_splice fun q hq => ?_).trans ?_
  · exact balanced_insertText_additions hp hwf targets w hm hl hlex htight hbal
      (fun t ht hs => hspans t ht (by simp [Token.isSpan, hs])) hw (Edit.mem_insertions.1 hq)
  · split
    · rename_i hex
      obtain ⟨n, hn, -, -, -, hnl, rfl⟩ := hex
      obtain ⟨tk', htk', hts⟩ := hwf.scalar_on_line hp hl hn hnl
      rw [htk, Option.some.injEq] at htk'
      subst htk'
      have hnone := hspans tk (List.mem_of_getElem? htk) (by simp [Token.isSpan, hts])
      simp only [String.toList_append, brackets_append, hnone, hw]
      exact erases_insert (p := ['[', ']']) (by decide) [] []
    · exact .refl

end Additions

/-- Copies and new siblings of inline nodes go at the end of their flow entries, at the
entries' own depth. On a tight line with balanced brackets, for every inline target that is no
mapping value the script inserts at the end point of the target's entry, and the line up to
that point has the same collections open as just before the target's token: the entry and the
closers of all it opened lie before the point, and no closer of a collection around the entry
does. When the line's scalars and the name hold no brackets, the rendered tokens' punctuation
has the line's brackets with balanced stretches put in, so it is balanced too (a copy of a flow
key carries its value's scalars into a punctuation token, so a bracket inside such a scalar
would count there); when its comments hold none either, so has the whole rendered line. -/
theorem flow_additions_at_entry_depth {rule : IndentRule} {t : String} {d : Document}
    (h : Document.parse rule t = .ok d) (targets : List Nat) (w : String) {m : Mutation}
    (hm : m = .duplicate w ∨ m = .insert w) {l : Line} (hl : l ∈ d.lines)
    (hbal : Balanced (bracketsOf l.tokens)) (htight : Tight l.tokens) :
    (∀ n ∈ preorderAll d.roots, n.id ∈ targets → n.entry.inline = true →
      n.entry.role ≠ .mappingValue → n.entry.startLine = l.number →
      (∃ s, Edit.insertText l.number (entryEndPoint l n.entry.tokenIndex).token
          (entryEndPoint l n.entry.tokenIndex).offset s ∈ (m.apply d targets).2) ∧
        nest [] (bracketsOf (tokensBefore l.tokens (entryEndPoint l n.entry.tokenIndex).token
            (entryEndPoint l n.entry.tokenIndex).offset)) =
          nest [] (bracketsOf (l.tokens.take n.entry.tokenIndex))) ∧
    ((∀ tk ∈ l.tokens, tk.isSpan = true → brackets tk.text.toList = []) →
      brackets w.toList = [] →
      Erases (brackets (Edit.lineText
          ((m.apply d targets).1.pendingEdits ++ (m.apply d targets).2) l).toList)
          (brackets l.text.toList) ∧
        Balanced (brackets (Edit.lineText
          ((m.apply d targets).1.pendingEdits ++ (m.apply d targets).2) l).toList)) ∧
    ((∀ tk ∈ l.tokens, tk.isScalar = true → brackets tk.text.toList = []) →
      brackets w.toList = [] →
      Erases (bracketsOf (Edit.renderTokens
          ((m.apply d targets).1.pendingEdits ++ (m.apply d targets).2) l)) (bracketsOf l.tokens) ∧
        Balanced (bracketsOf (Edit.renderTokens
          ((m.apply d targets).1.pendingEdits ++ (m.apply d targets).2) l))) := by
  have hp := parse_parsed h
  obtain ⟨hscan, hroots, -⟩ := scan_of_parse h
  have hwf := Forest.parse_wellFormed hscan
  rw [← hroots] at hwf
  have hlex : l.tokens = Lexer.lex l.text := Line.tokens_of_scanFrom hscan l hl
  have hdoc : (m.apply d targets).1 = d := by
    rcases hm with rfl | rfl <;> rfl
  refine ⟨fun n hn hT hi hmv hnl => ⟨?_, ?_⟩, fun hspans hw => ?_, fun hscalars hw => ?_⟩
  · have hline : d.line? n.entry.startLine = some l := hnl ▸ hp.line?_of_mem hl
    have he := (Mutation.mem_insertionOrder hp.searchable).2 ⟨n, hn, hT, rfl⟩
    exact Mutation.insertText_mem_apply hm he hline hi hmv
  · obtain ⟨tk, htk, hts⟩ := hwf.scalar_on_line hp hl hn hnl
    exact nest_tokensBefore_entryEndPoint (hlex ▸ lexed_lex l.text) htight hbal htk hts []
  · rw [hdoc, hp.pendingEdits_eq_nil, List.nil_append]
    have herased := erases_lineText_additions hp hwf targets w hm hl hlex htight hbal hw hspans
    have hsource : brackets l.text.toList = bracketsOf l.tokens := by
      rw [← brackets_join hspans, hlex, Lexer.join_lex]
    rw [← hsource] at hbal
    exact ⟨herased, herased.balanced_iff.2 hbal⟩
  · rw [hdoc, hp.pendingEdits_eq_nil, List.nil_append]
    have herased :=
      erases_renderTokens_additions hp hwf targets w hm hl hlex htight hbal hscalars hw
    exact ⟨herased, herased.balanced_iff.2 hbal⟩

/-- Copying the key `egg` of `- bacon: {egg: [spam, ham], k: v}`, a tight and balanced line
whose scalars hold no brackets, inserts after the closer of its sequence. -/
theorem flow_additions_at_entry_depth_nested : ∃ d,
    Document.parse {} "- bacon: {egg: [spam, ham], k: v}\n" = .ok d ∧ ∃ l ∈ d.lines,
      Balanced (bracketsOf l.tokens) ∧ Tight l.tokens ∧
      (∀ tk ∈ l.tokens, tk.isSpan = true → brackets tk.text.toList = []) ∧
      (∀ n ∈ preorderAll d.roots, n.id ∈ [1] → n.entry.inline = true →
        n.entry.role ≠ .mappingValue → n.entry.startLine = l.number →
        (∃ s, Edit.insertText l.number (entryEndPoint l n.entry.tokenIndex).token
            (entryEndPoint l n.entry.tokenIndex).offset s ∈
              ((Mutation.duplicate "x").apply d [1]).2) ∧
          nest [] (bracketsOf (tokensBefore l.tokens (entryEndPoint l n.entry.tokenIndex).token
              (entryEndPoint l n.entry.tokenIndex).offset)) =
            nest [] (bracketsOf (l.tokens.take n.entry.tokenIndex))) ∧
      ((∀ tk ∈ l.tokens, tk.isSpan = true → brackets tk.text.toList = []) →
        brackets "x".toList = [] →
        Erases (brackets (Edit.lineText (((Mutation.duplicate "x").apply d [1]).1.pendingEdits ++
            ((Mutation.duplicate "x").apply d [1]).2) l).toList) (brackets l.text.toList) ∧
          Balanced (brackets (Edit.lineText (((Mutation.duplicate "x").apply d [1]).1.pendingEdits ++
            ((Mutation.duplicate "x").apply d [1]).2) l).toList)) ∧
      ((∀ tk ∈ l.tokens, tk.isScalar = true → brackets tk.text.toList = []) →
        brackets "x".toList = [] →
        Erases (bracketsOf (Edit.renderTokens (((Mutation.duplicate "x").apply d [1]).1.pendingEdits ++
            ((Mutation.duplicate "x").apply d [1]).2) l)) (bracketsOf l.tokens) ∧
          Balanced (bracketsOf (Edit.renderTokens
            (((Mutation.duplicate "x").apply d [1]).1.pendingEdits ++
              ((Mutation.duplicate "x").apply d [1]).2) l))) := by
  obtain ⟨d, hd⟩ := parse_ok_of_isSome (by decide :
    (Document.parse {} "- bacon: {egg: [spam, ham], k: v}\n").toOption.isSome = true)
  have hcheck : (Document.parse {} "- bacon: {egg: [spam, ham], k: v}\n").toOption.map
      (fun d => d.lines.map fun l => decide (Balanced (bracketsOf l.tokens)) &&
        decide (Tight l.tokens) &&
        l.tokens.all fun tk => !tk.isSpan || brackets tk.text.toList == []) = some [true] := by
    decide +kernel
  rw [hd] at hcheck
  simp only [Except.toOption, Option.map_some, Option.some.injEq, List.map_eq_singleton_iff,
    Bool.and_eq_true, decide_eq_true_eq, List.all_eq_true, Bool.or_eq_true, Bool.not_eq_true',
    beq_iff_eq] at hcheck
  obtain ⟨l, hlines, ⟨hbal, htight⟩, hspans⟩ := hcheck
  have hl : l ∈ d.lines := hlines ▸ List.mem_singleton_self l
  refine ⟨d, hd, l, hl, hbal, htight, fun tk htk hs => (hspans tk htk).resolve_left (by simp [hs]),
    flow_additions_at_entry_depth hd [1] "x" (.inl rfl) hl hbal htight⟩

end Document

end YamlEdit
