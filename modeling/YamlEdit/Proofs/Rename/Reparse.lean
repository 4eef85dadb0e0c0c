import Mathlib.Data.List.Forall2
import YamlEdit.Proofs.Rename
import YamlEdit.Proofs.Relabel
import YamlEdit.Proofs.Lexer.Words

/-!
# Renaming, then parsing again

A rename to a word, a non-empty run of alphanumeric characters, of nodes written as unquoted
scalars can be read back. Such a scalar is a word of its line, so the renamed line lexes into the
same tokens with the new texts (`Lexer.lex_retextAt`); a word is neither white space nor a line
break, so every line keeps its indentation, its blankness and its terminator, and the scan
places it where it was; and the forest builder does not look at the texts of scalars, so the
parse is the old forest with the targets renamed and the byte ranges moved
(`parse_render_rename`).
-/

namespace YamlEdit

open Text

theorem ne_newline_of_isAlphanumeric {c : Char} (h : isAlphanumeric c) : c ≠ '\n' := by
  rintro rfl
  exact absurd (Lexer.isWhiteSpace_eq_false_of_isAlphanumeric h) (by decide)

theorem ne_return_of_isAlphanumeric {c : Char} (h : isAlphanumeric c) : c ≠ '\r' := by
  rintro rfl
  exact absurd (Lexer.isWhiteSpace_eq_false_of_isAlphanumeric h) (by decide)

namespace Lexer

/-- The positions `sel` picks, counting the tokens `ts` from `k`, hold words: tokens that start
on an alphanumeric character. -/
def PicksWords (sel : Nat → Bool) (k : Nat) (ts : List Token) : Prop :=
  ∀ (i : Nat) (t : Token), ts[i]? = some t → sel (k + i) = true →
    ∃ a, t.text.toList.head? = some a ∧ isAlphanumeric a

theorem PicksWords.head {sel : Nat → Bool} {k : Nat} {t : Token} {ts : List Token}
    (h : PicksWords sel k (t :: ts)) (hk : sel k = true) :
    ∃ a y, t.text.toList = a :: y ∧ isAlphanumeric a := by
  obtain ⟨a, ha, hal⟩ := h 0 t rfl hk
  cases hy : t.text.toList with
  | nil => simp [hy] at ha
  | cons b y => simp_all

theorem PicksWords.tail {sel : Nat → Bool} {k : Nat} {t : Token} {ts : List Token}
    (h : PicksWords sel k (t :: ts)) : PicksWords sel (k + 1) ts := by
  intro i u hu hs
  exact h (i + 1) u (by simpa using hu) (by rwa [← Nat.add_assoc, Nat.add_right_comm])

section Retext

variable {sel : Nat → Bool} {w : String}

/-- Every character of the renamed text is one of the old text or of the new word. -/
theorem mem_retextAt {c : Char} :
    ∀ {k : Nat} {ts : List Token}, c ∈ (Token.join (retextAt sel w k ts)).toList →
      c ∈ (Token.join ts).toList ∨ c ∈ w.toList
  | _, [], h => by simp [retextAt, Token.join] at h
  | k, t :: ts, h => by
    simp only [retextAt, toList_join_cons, List.mem_append] at h ⊢
    rcases h with h | h
    · split at h
      · exact .inr h
      · exact .inl (.inl h)
    · rcases mem_retextAt h with h | h
      · exact .inl (.inr h)
      · exact .inr h

variable (hw : w.toList ≠ [])
include hw

/-- Renaming to a non-empty word leaves an empty text only where there was one. -/
theorem join_eq_nil_of_retextAt :
    ∀ {k : Nat} {ts : List Token}, (Token.join (retextAt sel w k ts)).toList = [] →
      (Token.join ts).toList = []
  | _, [], _ => by simp [Token.join]
  | k, t :: ts, h => by
    simp only [retextAt, toList_join_cons, List.append_eq_nil_iff] at h ⊢
    refine ⟨?_, join_eq_nil_of_retextAt h.2⟩
    split at h
    · exact absurd h.1 hw
    · exact h.1

/-- The renamed text ends on the old text's last character or on one of the new word. -/
theorem getLast?_retextAt {c : Char} :
    ∀ {k : Nat} {ts : List Token}, (Token.join (retextAt sel w k ts)).toList.getLast? = some c →
      (Token.join ts).toList.getLast? = some c ∨ c ∈ w.toList
  | _, [], h => by simp [retextAt, Token.join] at h
  | k, t :: ts, h => by
    simp only [retextAt, toList_join_cons, List.getLast?_append] at h ⊢
    cases hrest : (Token.join (retextAt sel w (k + 1) ts)).toList.getLast? with
    | some c' =>
      rw [hrest, Option.some_or] at h
      cases h
      rcases getLast?_retextAt hrest with h' | h'
      · exact .inl (by rw [h', Option.some_or])
      · exact .inr h'
    | none =>
      rw [hrest, Option.none_or] at h
      have hnil := join_eq_nil_of_retextAt hw (List.getLast?_eq_none_iff.1 hrest)
      rw [hnil, List.getLast?_nil, Option.none_or]
      split at h
      · exact .inr (List.mem_of_getLast? h)
      · exact .inl h

end Retext

section Words

variable {sel : Nat → Bool} {w : String} (hw : w.toList ≠ []) (hwa : ∀ c ∈ w.toList, isAlphanumeric c)
include hw hwa

/-- Renaming words keeps the white space a text starts with. -/
theorem takeWhile_retextAt :
    ∀ {k : Nat} {ts : List Token}, PicksWords sel k ts →
      (Token.join (retextAt sel w k ts)).toList.takeWhile isWhiteSpace =
        (Token.join ts).toList.takeWhile isWhiteSpace
  | _, [], _ => rfl
  | k, t :: ts, hp => by
    simp only [retextAt, toList_join_cons]
    by_cases hk : sel k
    · obtain ⟨a, y, hy, ha⟩ := hp.head hk
      obtain ⟨b, z, hz⟩ : ∃ b z, w.toList = b :: z := by
        cases h : w.toList with
        | nil => exact absurd h hw
        | cons b z => exact ⟨b, z, rfl⟩
      have hb := hwa b (by simp [hz])
      rw [if_pos hk, hy, hz, List.cons_append, List.cons_append,
        List.takeWhile_cons_of_neg (by simp [isWhiteSpace_eq_false_of_isAlphanumeric hb]),
        List.takeWhile_cons_of_neg (by simp [isWhiteSpace_eq_false_of_isAlphanumeric ha])]
    · rw [if_neg hk, List.takeWhile_append, List.takeWhile_append,
        takeWhile_retextAt hp.tail]

/-- Renaming words keeps whether a text is blank. -/
theorem all_retextAt :
    ∀ {k : Nat} {ts : List Token}, PicksWords sel k ts →
      (Token.join (retextAt sel w k ts)).toList.all isWhiteSpace =
        (Token.join ts).toList.all isWhiteSpace
  | _, [], _ => rfl
  | k, t :: ts, hp => by
    simp only [retextAt, toList_join_cons, List.all_append]
    by_cases hk : sel k
    · obtain ⟨a, y, hy, ha⟩ := hp.head hk
      have hw' : w.toList.all isWhiteSpace = false := by
        cases h : w.toList with
        | nil => exact absurd h hw
        | cons b z =>
          simp [isWhiteSpace_eq_false_of_isAlphanumeric (hwa b (by simp [h]))]
      rw [if_pos hk, hw', hy]
      simp [isWhiteSpace_eq_false_of_isAlphanumeric ha]
    · rw [if_neg hk, all_retextAt hp.tail]

end Words

end Lexer

namespace Line

/-- A scan reads of a line's content only its indentation and whether it is blank, apart from
its tokens and byte range: contents that agree on both scan to lines of the same numbers,
levels and terminators, holding the tokens of the new contents. -/
theorem scanFrom_respelled {rule : IndentRule} {stack : IndentStack} {number offset : Nat}
    {lines : List Line} (h : scanFrom rule stack number offset (lines.map piece) = .ok lines)
    (F : Line → List Char)
    (hF : ∀ l ∈ lines, Text.indentation (F l) = Text.indentation l.text.toList ∧
      Text.isBlank (F l) = Text.isBlank l.text.toList)
    (offset' : Nat) :
    ∃ lines', scanFrom rule stack number offset' (lines.map fun l => (F l, l.ending)) = .ok lines' ∧
      List.Forall₂ (fun l l' => l'.number = l.number ∧ l'.level = l.level ∧ l'.ending = l.ending ∧
        l'.tokens = Lexer.lex (String.ofList (F l))) lines lines' := by
  induction lines generalizing stack number offset offset' with
  | nil => exact ⟨[], by simp [scanFrom]⟩
  | cons l ls ih =>
    obtain ⟨hind, hblank⟩ := hF l List.mem_cons_self
    rw [List.map_cons] at h
    cases hplace : stack.place rule (Text.indentation l.text.toList) (Text.isBlank l.text.toList) with
    | error f =>
      rw [piece, scanFrom_cons_error hplace] at h
      cases h
    | ok s' =>
      rw [piece, scanFrom_cons_ok hplace] at h
      cases hrest : scanFrom rule s' (number + 1)
          (offset + (String.ofList l.text.toList).utf8ByteSize + l.ending.byteSize) (ls.map piece) with
      | error e =>
        rw [hrest] at h
        cases h
      | ok rest =>
        rw [hrest] at h
        simp only [Except.map, Except.ok.injEq, List.cons.injEq] at h
        obtain ⟨hl, rfl⟩ := h
        obtain ⟨lines', hscan, hrel⟩ := ih hrest (fun l' hl' => hF l' (List.mem_cons_of_mem _ hl'))
          (offset' + (String.ofList (F l)).utf8ByteSize + l.ending.byteSize)
        refine ⟨{ tokens := Lexer.lex (String.ofList (F l)), number, level := s'.level,
                  range := ⟨offset', offset' + (String.ofList (F l)).utf8ByteSize⟩,
                  ending := l.ending } :: lines', ?_, .cons ?_ hrel⟩
        · rw [List.map_cons, scanFrom_cons_ok (by rw [hind, hblank]; exact hplace), hscan]
          rfl
        · rw [← hl]
          exact ⟨rfl, rfl, rfl, rfl⟩

end Line

/-- A member of the right list of a `Forall₂` is related to a member of the left one. -/
theorem exists_of_forall₂_right {α β : Type} {R : α → β → Prop} :
    ∀ {as : List α} {bs : List β}, List.Forall₂ R as bs → ∀ {b}, b ∈ bs → ∃ a ∈ as, R a b
  | [], [], .nil, _, hb => by simp at hb
  | a :: _, _ :: _, .cons hab rest, b, hb => by
    rcases List.mem_cons.1 hb with rfl | hb
    · exact ⟨a, List.mem_cons_self, hab⟩
    · obtain ⟨a', ha', h'⟩ := exists_of_forall₂_right rest hb
      exact ⟨a', List.mem_cons_of_mem _ ha', h'⟩

theorem map_eq_of_forall₂ {α β γ : Type} {f : α → γ} {g : β → γ} :
    ∀ {as : List α} {bs : List β}, List.Forall₂ (fun a b => g b = f a) as bs → bs.map g = as.map f
  | [], [], .nil => rfl
  | _ :: _, _ :: _, .cons hab rest => by rw [List.map_cons, List.map_cons, hab, map_eq_of_forall₂ rest]

namespace Document

open Node

/-- Whether one of the listed nodes stands on the token at `i` of the line. -/
def targetAt (d : Document) (targets : List Nat) (l : Line) (i : Nat) : Bool :=
  decide (∃ n ∈ preorderAll d.roots, n.id ∈ targets ∧ n.entry.startLine = l.number ∧
    n.entry.tokenIndex = i)

theorem renamedText_eq (d : Document) (targets : List Nat) (w : String) (l : Line) :
    renamedText d targets w l = Token.join (Lexer.retextAt (d.targetAt targets l) w 0 l.tokens) := by
  simp [Lexer.join_retextAt, renamedText, targetAt]

section Reparse

variable {rule : IndentRule} {t : String} {d : Document} (h : Document.parse rule t = .ok d)
  {targets : List Nat} {w : String}
include h

/-- The nodes listed for renaming, if unquoted, stand on words of their lines. -/
theorem picksWords_targetAt
    (hq : ∀ n ∈ preorderAll d.roots, n.id ∈ targets → ∀ c ∈ n.entry.name.toList.head?,
      Lexer.isQuote c = false) :
    ∀ l ∈ d.lines, Lexer.PicksWords (d.targetAt targets l) 0 l.tokens := by
  have hp := parse_parsed h
  obtain ⟨hscan, hroots, -⟩ := scan_of_parse h
  intro l hl i tk htk hsel
  simp only [targetAt, decide_eq_true_eq, Nat.zero_add] at hsel
  obtain ⟨n, hn, hT, hline, hidx⟩ := hsel
  obtain ⟨l₀, hl₀, hnum₀, tk₀, htk₀, hname⟩ := hp.tokens n hn
  obtain rfl : l₀ = l := hp.line_eq hl₀ hl (by rw [hnum₀, hline])
  rw [hidx, htk, Option.some.injEq] at htk₀
  subst htk₀
  obtain ⟨l₁, hl₁, hnum₁, tk₁, htk₁, hsc⟩ := Forest.parse_scalar n (hroots ▸ hn)
  obtain rfl : l₁ = l₀ := hp.line_eq hl₁ hl (by rw [hnum₁, hline])
  rw [hidx, htk, Option.some.injEq] at htk₁
  subst htk₁
  have hmem : tk ∈ Lexer.lex l₁.text := by
    rw [← Line.tokens_of_scanFrom hscan l₁ hl]
    exact List.mem_of_getElem? htk
  obtain ⟨a, ha, hopen⟩ := Lexer.lex_scalar_opens hmem hsc
  have hquote := hq n hn hT a (by rw [hname]; exact ha)
  exact ⟨a, ha, by simpa [hquote] using hopen⟩

variable (hw : w.toList ≠ []) (hwa : ∀ c ∈ w.toList, isAlphanumeric c)
  (hq : ∀ n ∈ preorderAll d.roots, n.id ∈ targets → ∀ c ∈ n.entry.name.toList.head?,
    Lexer.isQuote c = false)
include hw hwa hq

/-- A renamed line keeps the indentation, blankness and cut of its text, and lexes into its
tokens with the new name in place. -/
theorem renamedText_spec {l : Line} (hl : l ∈ d.lines) :
    indentation (renamedText d targets w l).toList = indentation l.text.toList ∧
      Text.isBlank (renamedText d targets w l).toList = Text.isBlank l.text.toList ∧
      (CutPiece (l.text.toList, l.ending) → CutPiece ((renamedText d targets w l).toList, l.ending)) ∧
      Lexer.lex (renamedText d targets w l) = Lexer.retextAt (d.targetAt targets l) w 0 l.tokens := by
  have hpick := picksWords_targetAt h hq l hl
  have htext : l.text = Token.join l.tokens := rfl
  rw [renamedText_eq, htext]
  refine ⟨?_, ?_, ?_, ?_⟩
  · unfold indentation
    rw [Lexer.takeWhile_retextAt hw hwa hpick]
  · unfold Text.isBlank
    exact Lexer.all_retextAt hw hwa hpick
  -- a word holds no line break, so the cut of the line does not move
  · rintro ⟨hn, hcr, hne⟩
    refine ⟨fun hmem => ?_, fun hlf hlast => ?_, fun hun hnil => ?_⟩
    · rcases Lexer.mem_retextAt hmem with hmem | hmem
      · exact hn hmem
      · exact ne_newline_of_isAlphanumeric (hwa _ hmem) rfl
    · rcases Lexer.getLast?_retextAt hw hlast with hlast | hlast
      · exact hcr hlf hlast
      · exact ne_return_of_isAlphanumeric (hwa _ hlast) rfl
    · exact hne hun (Lexer.join_eq_nil_of_retextAt hw hnil)
  · have htoks : l.tokens = Lexer.lex l.text := Line.tokens_of_scanFrom (scan_of_parse h).1 l hl
    rw [htoks]
    refine Lexer.lex_retextAt hw hwa fun k tk hk hsel => ?_
    rw [← htoks] at hk
    exact hpick k tk hk (by simpa using hsel)

/-- The text a rename renders cuts back into the renamed lines, each with its own terminator. -/
theorem splitLines_render_rename :
    splitLines (joinLines (((Mutation.rename w).apply d targets).1.render
        ((Mutation.rename w).apply d targets).2)) =
      d.lines.map fun l => ((renamedText d targets w l).toList, l.ending) := by
  have hp := parse_parsed h
  have hpieces : d.lines.map Line.piece = splitLines t :=
    (Line.scanFrom_ok (scan_of_parse h).1).1
  show splitLines (joinLines ((Mutation.markAll d targets (.renamed w)).render [])) = _
  rw [render_markAll_renamed hp targets w, splitLines, toList_joinLines]
  have hspell : (d.lines.map fun l => (⟨renamedText d targets w l, l.ending⟩ : RenderedLine)).flatMap
      (fun r => r.text.toList ++ r.ending.text.toList) =
      spell (d.lines.map fun l => ((renamedText d targets w l).toList, l.ending)) := by
    simp [spell, List.flatMap_map]
  rw [hspell]
  apply cutLines_spell
  · intro p hmem
    obtain ⟨l, hl, rfl⟩ := List.mem_map.1 hmem
    refine (renamedText_spec h hw hwa hq hl).2.2.1 ?_
    refine cutPiece_cutLines [] t.toList (by simp) _ ?_
    rw [← splitLines, ← hpieces]
    exact List.mem_map_of_mem hl
  · intro p hmem
    rw [← List.map_dropLast] at hmem
    obtain ⟨l, hl, rfl⟩ := List.mem_map.1 hmem
    exact hp.scanned.terminated l.piece (by rw [← List.map_dropLast]; exact List.mem_map_of_mem hl)

/-- The scan of a rename's output holds the renamed lines at their old numbers and levels. -/
theorem scan_render_rename :
    ∃ lines', Line.scan rule (joinLines (((Mutation.rename w).apply d targets).1.render
        ((Mutation.rename w).apply d targets).2)) = .ok lines' ∧
      List.Forall₂ (fun l l' => l.Retexted l' ∧
        l'.tokens = Lexer.retextAt (d.targetAt targets l) w 0 l.tokens) d.lines lines' := by
  have hp := parse_parsed h
  obtain ⟨hscan, hroots, -⟩ := scan_of_parse h
  have hpieces : d.lines.map Line.piece = splitLines t := (Line.scanFrom_ok hscan).1
  have horig : Line.scanFrom rule {} 1 0 (d.lines.map Line.piece) = .ok d.lines := by
    rw [hpieces]
    exact hscan
  obtain ⟨lines', hscan', hrel⟩ := Line.scanFrom_respelled horig
    (fun l => (renamedText d targets w l).toList)
    (fun l hl => ⟨(renamedText_spec h hw hwa hq hl).1, (renamedText_spec h hw hwa hq hl).2.1⟩) 0
  refine ⟨lines', by rw [Line.scan, splitLines_render_rename h hw hwa hq]; exact hscan', ?_⟩
  refine ((List.forall₂_and_left _ _).2 ⟨fun l hl => hl, hrel⟩).imp ?_
  rintro l l' ⟨hl, hnum, hlevel, -, htoks⟩
  have hretext : l'.tokens = Lexer.retextAt (d.targetAt targets l) w 0 l.tokens := by
    rw [htoks, String.ofList_toList, (renamedText_spec h hw hwa hq hl).2.2.2]
  refine ⟨⟨hnum, hlevel, by rw [hretext, Lexer.map_tags_retextAt], ?_⟩, hretext⟩
  intro i tk htk hpunct
  rw [hretext, Lexer.getElem?_retextAt, htk, Option.map_some, Nat.zero_add]
  have hsel : d.targetAt targets l i = false := by
    simp only [targetAt, decide_eq_false_iff_not, not_exists, not_and]
    intro n hn _ hline hidx
    obtain ⟨l₁, hl₁, hnum₁, tk₁, htk₁, hsc⟩ := Forest.parse_scalar n (hroots ▸ hn)
    obtain rfl : l₁ = l := hp.line_eq hl₁ hl (by rw [hnum₁, hline])
    rw [hidx, htk, Option.some.injEq] at htk₁
    subst htk₁
    simp [Token.isScalar, hsc] at hpunct
  rw [hsel]
  rfl

omit hw hwa hq in
/-- A node of the parse of a rename's output is named as the node with its skeleton in the
original forest, or by the new name if that node is listed. -/
theorem name_of_render_rename {text' : String} {lines' : List Line}
    (hp' : Parsed text' ⟨lines', Forest.parse lines', rule⟩)
    (hrel : List.Forall₂ (fun l l' => l.Retexted l' ∧
      l'.tokens = Lexer.retextAt (d.targetAt targets l) w 0 l.tokens) d.lines lines')
    {m m' : Node} (hm : m ∈ preorderAll d.roots) (hm' : m' ∈ preorderAll (Forest.parse lines'))
    (hsk : m'.entry.skeleton = m.entry.skeleton) :
    m'.entry.name = if m.entry.id ∈ targets then w else m.entry.name := by
  have hp := parse_parsed h
  have hstart : m'.entry.startLine = m.entry.startLine := by
    simpa using congrArg Entry.startLine hsk
  have hidx : m'.entry.tokenIndex = m.entry.tokenIndex := by
    simpa using congrArg Entry.tokenIndex hsk
  obtain ⟨l', hl', hnum', tk', htk', hname'⟩ := hp'.tokens m' hm'
  obtain ⟨l, hl, hR, htoks⟩ := exists_of_forall₂_right hrel hl'
  obtain ⟨l₀, hl₀, hnum₀, tk, htk, hname⟩ := hp.tokens m hm
  obtain rfl : l₀ = l := hp.line_eq hl₀ hl (by rw [hnum₀, ← hR.number, hnum', hstart])
  rw [htoks, Lexer.getElem?_retextAt, hidx, htk, Option.map_some, Nat.zero_add,
    Option.some.injEq] at htk'
  have hsel : d.targetAt targets l₀ m.entry.tokenIndex = decide (m.entry.id ∈ targets) := by
    simp only [targetAt]
    refine decide_eq_decide.2 ⟨?_, fun hT => ⟨m, hm, hT, hnum₀.symm, rfl⟩⟩
    rintro ⟨n, hn, hT, hline, hi⟩
    rw [hp.positions n hn m hm (by rw [hline, hnum₀]) hi] at hT
    exact hT
  rw [hname', ← htk', hsel, hname]
  by_cases hT : m.entry.id ∈ targets <;> simp [hT]

end Reparse

/-- Renaming unquoted scalars to a word and parsing the rendered text again gives the forest
back: the same nodes with the same ids, lines, token indices, collection styles, roles and
flags, the listed ones named by the word and the others as before, only their byte ranges
moved; and every line keeps its level. -/
theorem parse_render_rename {rule : IndentRule} {t : String} {d : Document}
    (h : Document.parse rule t = .ok d) (targets : List Nat) {w : String} (hw : w ≠ "")
    (hwa : ∀ c ∈ w.toList, isAlphanumeric c)
    (hq : ∀ n ∈ preorderAll d.roots, n.id ∈ targets → ∀ c ∈ n.entry.name.toList.head?,
      Lexer.isQuote c = false) :
    ∃ d', Document.parse rule (joinLines (((Mutation.rename w).apply d targets).1.render
        ((Mutation.rename w).apply d targets).2)) = .ok d' ∧
      d'.lines.map Line.level = d.lines.map Line.level ∧
      ∃ r : Nat → Span, d'.roots = d.roots.map (Node.mapEntries fun e =>
        { e with name := if e.id ∈ targets then w else e.name, range := r e.id }) := by
  have hw' : w.toList ≠ [] := by simpa using hw
  obtain ⟨-, hroots, -⟩ := scan_of_parse h
  obtain ⟨lines', hscan', hrel⟩ := scan_render_rename h hw' hwa hq
  have hparse' : Document.parse rule (joinLines (((Mutation.rename w).apply d targets).1.render
      ((Mutation.rename w).apply d targets).2)) = .ok ⟨lines', Forest.parse lines', rule⟩ := by
    rw [Document.parse, hscan']
  have hp' := parse_parsed hparse'
  let ranges : Nat → Span := fun i =>
    ((Document.find? ⟨lines', Forest.parse lines', rule⟩ i).map fun n => n.entry.range).getD ⟨0, 0⟩
  refine ⟨_, hparse', ?_, ranges, ?_⟩
  · exact map_eq_of_forall₂ (hrel.imp fun _ _ hl => hl.1.level)
  · have hskeleton := Forest.parse_skeleton (hrel.imp fun _ _ hl => hl.1)
    rw [← hroots] at hskeleton
    refine Node.eq_mapEntriesAll_of_skeleton _ d.roots (Forest.parse lines') hskeleton ?_
    intro m hm m' hm' hsk
    have hid : m'.entry.id = m.entry.id := by simpa using congrArg Entry.id hsk
    have hrange : ranges m.entry.id = m'.entry.range := by
      simp only [ranges]
      rw [(find?_eq_some_iff hp'.searchable).2 ⟨hm', hid⟩]
      rfl
    rw [Entry.eq_of_skeleton hsk, hrange, name_of_render_rename h hp' hrel hm hm' hsk]

theorem parse_render_rename_pod : ∃ d, Document.parse {} "kind: Pod\n" = .ok d ∧
    ∃ d', Document.parse {} (joinLines (((Mutation.rename "Job").apply d [1]).1.render
        ((Mutation.rename "Job").apply d [1]).2)) = .ok d' ∧
      d'.lines.map Line.level = d.lines.map Line.level ∧
      ∃ r : Nat → Span, d'.roots = d.roots.map (Node.mapEntries fun e =>
        { e with name := if e.id ∈ [1] then "Job" else e.name, range := r e.id }) := by
  obtain ⟨d, hd⟩ := parse_ok_of_isSome
    (by decide : (Document.parse {} "kind: Pod\n").toOption.isSome = true)
  have htokens : d.lines.all (fun l => l.tokens.all fun t =>
      t.text.toList.head?.all fun c => !Lexer.isQuote c) := by
    have hall : (Document.parse {} "kind: Pod\n").toOption.map (fun d => d.lines.all fun l =>
        l.tokens.all fun t => t.text.toList.head?.all fun c => !Lexer.isQuote c) = some true := by
      decide +kernel
    rw [hd] at hall
    simpa [Except.toOption] using hall
  refine ⟨d, hd, parse_render_rename hd [1] (by decide) (List.all_eq_true.1 (by decide))
    fun n hn _ c hc => ?_⟩
  obtain ⟨l, hl, -, tk, htk, hname⟩ := (parse_parsed hd).tokens n hn
  have := List.all_eq_true.1 (List.all_eq_true.1 htokens l hl) tk (List.mem_of_getElem? htk)
  rw [hname] at hc
  simp only [Option.all_eq_true] at this
  simpa using this c hc

end Document

end YamlEdit
