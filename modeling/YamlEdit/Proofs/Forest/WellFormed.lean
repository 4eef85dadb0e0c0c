import YamlEdit.Proofs.Parsed
import YamlEdit.Proofs.Ranges.Tiling

/-!
# The forest of scanned lines is well formed

Every scalar token of a scanned line becomes exactly one node: a token carries the scalar tag
at most once, and only the last token of a line can be a comment, so the comment that ends the
placement of a line hides no scalar. Nodes are numbered in reading order, by line and then along
the line, and each node is named by its token and located at the token's bytes in the text.

The trees are ordered by id: a child comes after its parent, on the parent's line or below it,
siblings are in id order with each subtree before the next sibling, and the roots are in id
order. A node's end line is the last start line of its subtree.
-/

namespace YamlEdit

open Node

namespace Node

mutual

/-- The pre-order of a subtree is part of the pre-order of the tree. -/
theorem preorder_sublist_of_mem {m : Node} :
    ∀ n : Node, m ∈ preorder n → m.preorder.Sublist n.preorder
  | ⟨e, cs⟩, hm => by
    rw [preorder_mk, List.mem_cons] at hm
    rcases hm with rfl | hm
    · exact List.Sublist.refl _
    · rw [preorder_mk]
      exact (preorderAll_sublist_of_mem cs hm).cons _

theorem preorderAll_sublist_of_mem {m : Node} :
    ∀ ns : List Node, m ∈ preorderAll ns → m.preorder.Sublist (preorderAll ns)
  | [], hm => by simp at hm
  | c :: cs, hm => by
    rw [preorderAll_cons] at hm ⊢
    rcases List.mem_append.1 hm with hm | hm
    · exact (preorder_sublist_of_mem c hm).trans (List.sublist_append_left _ _)
    · exact (preorderAll_sublist_of_mem cs hm).trans (List.sublist_append_right _ _)

end

/-- Every subtree of an ordered tree is ordered. -/
theorem Ordered.of_mem {n m : Node} (h : n.Ordered) (hm : m ∈ n.preorder) : m.Ordered :=
  h.sublist ((preorder_sublist_of_mem n hm).map Node.id)

/-- In ordered trees, each tree comes wholly before the roots of the later ones. -/
theorem OrderedAll.pairwise {ns : List Node} (h : OrderedAll ns) :
    ns.Pairwise fun a b => ∀ m ∈ a.preorder, m.id < b.id := by
  unfold OrderedAll at h
  rw [preorderAll_eq_flatMap, List.map_flatMap, List.pairwise_flatMap] at h
  exact h.2.imp fun {_ b} hab (m : Node) hm => hab m.id (List.mem_map_of_mem hm) b.id
    (List.mem_map_of_mem (mem_preorder_self b))

end Node

namespace Forest

/-- The positions of the scalar tokens among `ts`, numbered from `index`, on line `number`. -/
def scalarsOf (number index : Nat) (ts : List Token) : List (Nat × Nat) :=
  ((ts.zipIdx index).filter (·.1.isScalar)).map fun p => (number, p.2)

/-- The positions of the scalar tokens of lines: line by line, left to right. -/
def scalarPositions (lines : List Line) : List (Nat × Nat) :=
  lines.flatMap fun l => scalarsOf l.number 0 l.tokens

/-- Reading order of token positions: by line, then along the line. -/
def Precedes (p q : Nat × Nat) : Prop :=
  p.1 < q.1 ∨ p.1 = q.1 ∧ p.2 < q.2

theorem scalarsOf_cons (number index : Nat) (t : Token) (ts : List Token) :
    scalarsOf number index (t :: ts) =
      (if .scalar ∈ t.tags then [(number, index)] else []) ++ scalarsOf number (index + 1) ts := by
  by_cases h : .scalar ∈ t.tags <;> simp [scalarsOf, List.zipIdx_cons, Token.isScalar, h]

theorem mem_scalarPositions {lines : List Line} {k i : Nat} :
    (k, i) ∈ scalarPositions lines ↔
      ∃ l ∈ lines, l.number = k ∧ ∃ t, l.tokens[i]? = some t ∧ t.isScalar = true := by
  simp only [scalarPositions, scalarsOf, List.mem_flatMap, List.mem_map, List.mem_filter,
    Prod.mk.injEq]
  constructor
  · rintro ⟨l, hl, ⟨t, j⟩, ⟨hmem, hsc⟩, rfl, rfl⟩
    exact ⟨l, hl, rfl, t, List.mem_zipIdx_iff_getElem?.1 hmem, hsc⟩
  · rintro ⟨l, hl, rfl, t, ht, hsc⟩
    exact ⟨l, hl, (t, i), ⟨List.mem_zipIdx_iff_getElem?.2 ht, hsc⟩, rfl, rfl⟩

theorem scalarsOf_pairwise (number index : Nat) (ts : List Token) :
    (scalarsOf number index ts).Pairwise Precedes := by
  unfold scalarsOf
  rw [List.pairwise_map]
  refine List.Pairwise.filter _ ?_
  have h : (List.range' index ts.length).Pairwise (· < ·) := List.pairwise_lt_range'
  rw [← List.zipIdx_map_snd, List.pairwise_map] at h
  exact h.imp fun hlt => .inr ⟨rfl, hlt⟩

theorem fst_of_mem_scalarsOf {number index : Nat} {ts : List Token} {p : Nat × Nat}
    (h : p ∈ scalarsOf number index ts) : p.1 = number := by
  obtain ⟨q, -, rfl⟩ := List.mem_map.1 h
  rfl

/-- Lines numbered in increasing order list their scalar positions in reading order. -/
theorem scalarPositions_pairwise {lines : List Line}
    (h : (lines.map Line.number).Pairwise (· < ·)) :
    (scalarPositions lines).Pairwise Precedes := by
  unfold scalarPositions
  rw [List.pairwise_flatMap]
  refine ⟨fun l _ => scalarsOf_pairwise _ _ _, ?_⟩
  refine (List.pairwise_map.1 h).imp fun hlt x hx y hy => .inl ?_
  rw [fst_of_mem_scalarsOf hx, fst_of_mem_scalarsOf hy]
  exact hlt

/-- In a list in reading order, positions come in the order of their indices. -/
theorem lt_iff_precedes {P : List (Nat × Nat)} (hP : P.Pairwise Precedes) {i j : Nat}
    {p q : Nat × Nat} (hi : P[i]? = some p) (hj : P[j]? = some q) : i < j ↔ Precedes p q := by
  obtain ⟨hi', rfl⟩ := List.getElem?_eq_some_iff.1 hi
  obtain ⟨hj', rfl⟩ := List.getElem?_eq_some_iff.1 hj
  constructor
  · exact List.pairwise_iff_getElem.1 hP i j hi' hj'
  · intro hpq
    -- reading order is a strict order: the other two cases contradict it
    rcases Nat.lt_trichotomy i j with h | rfl | h
    · exact h
    · unfold Precedes at hpq
      omega
    · have hqp := List.pairwise_iff_getElem.1 hP j i hj' hi' h
      unfold Precedes at hpq hqp
      omega

/-- A token's tags stop the line's placement only at a comment tag. -/
theorem comment_mem_of_placeTags (line : Line) (index : Nat) :
    ∀ (tags : List Tag) (c : Cursor) (b : Builder), (placeTags line index c b tags).1 = none →
      .comment ∈ tags
  | [], _, _, h => by simp [placeTags] at h
  | .comment :: _, _, _, _ => by simp
  | .scalar :: ts, _, _, h => List.mem_cons_of_mem _ (comment_mem_of_placeTags line index ts _ _ h)
  | .mapping :: ts, _, _, h => List.mem_cons_of_mem _ (comment_mem_of_placeTags line index ts _ _ h)
  | .sequence :: ts, _, _, h =>
    List.mem_cons_of_mem _ (comment_mem_of_placeTags line index ts _ _ h)

/-- A token whose scalar tag stands alone places one entry at its position if it is a scalar,
and none otherwise. -/
theorem placeTags_positions (line : Line) (index : Nat) {tags : List Tag}
    (hs : Lexer.ScalarAlone tags) (c : Cursor) (b : Builder) : ∃ more,
      (placeTags line index c b tags).2.placed = b.placed ++ more ∧
        more.map position = if .scalar ∈ tags then [(line.number, index)] else [] := by
  rcases hs with rfl | hns
  · obtain ⟨par, hpar⟩ := b.addScalar_placed line index c
    exact ⟨[(entryAt line index b.nextId c, par)], by simp [placeTags, hpar], by
      simp [position, entryAt]⟩
  · obtain ⟨more, hm, -, hl⟩ := placeTags_placed line index tags c b
    rw [List.count_eq_zero_of_not_mem hns, Nat.le_zero, List.length_eq_zero_iff] at hl
    exact ⟨more, hm, by simp [hl, hns]⟩

theorem mem_dropLast_cons {t u : Token} {ts : List Token} (h : u ∈ ts.dropLast) :
    u ∈ (t :: ts).dropLast := by
  cases ts with
  | nil => simp at h
  | cons v vs =>
    rw [List.dropLast_cons_cons]
    exact List.mem_cons_of_mem _ h

/-- The tokens of a line, from `index` on, place one entry at each scalar token, in order,
when only the last of them can be a comment. -/
theorem placeTokens_positions (line : Line) :
    ∀ (index : Nat) (c : Cursor) (b : Builder) (ts : List Token),
      (∀ t ∈ ts, Lexer.ScalarAlone t.tags) → (∀ t ∈ ts.dropLast, .comment ∉ t.tags) → ∃ more,
        (placeTokens line index c b ts).placed = b.placed ++ more ∧
          more.map position = scalarsOf line.number index ts
  | _, _, b, [], _, _ => ⟨[], by simp [placeTokens, scalarsOf]⟩
  | index, c, b, t :: ts, hs, hc => by
    obtain ⟨more, hm, hpos⟩ := placeTags_positions line index (hs t (by simp)) c b
    unfold placeTokens
    split
    · rename_i c' b' heq
      rw [heq] at hm
      obtain ⟨rest, hr, hrpos⟩ := placeTokens_positions line (index + 1) c' b' ts
        (fun t' ht' => hs t' (List.mem_cons_of_mem t ht')) (fun t' ht' => hc t' (mem_dropLast_cons ht'))
      refine ⟨more ++ rest, by rw [hr, hm, List.append_assoc], ?_⟩
      rw [List.map_append, hpos, hrpos, scalarsOf_cons]
    · rename_i b' heq
      have hcom : .comment ∈ t.tags := comment_mem_of_placeTags line index _ c b (by rw [heq])
      have hts : ts = [] := by
        cases ts with
        | nil => rfl
        | cons u us => exact absurd hcom (hc t (by simp))
      have hns : .scalar ∉ t.tags := by
        rcases hs t (by simp) with h | h
        · rw [h] at hcom
          simp at hcom
        · exact h
      subst hts
      rw [heq] at hm
      refine ⟨more, hm, ?_⟩
      rw [hpos, scalarsOf_cons, if_neg hns]
      simp [scalarsOf]

/-- The lines place one entry at each of their scalar tokens, in reading order. -/
theorem foldl_placeLine_positions (lines : List Line)
    (hs : ∀ l ∈ lines, ∀ t ∈ l.tokens, Lexer.ScalarAlone t.tags)
    (hc : ∀ l ∈ lines, ∀ t ∈ l.tokens.dropLast, .comment ∉ t.tags) (b : Builder) : ∃ more,
      (lines.foldl placeLine b).placed = b.placed ++ more ∧
        more.map position = scalarPositions lines := by
  induction lines generalizing b with
  | nil => exact ⟨[], by simp [scalarPositions]⟩
  | cons l ls ih =>
    obtain ⟨more, hm, hpos⟩ := placeTokens_positions l 0 { level := l.level } b l.tokens
      (hs l (by simp)) (hc l (by simp))
    obtain ⟨rest, hr, hrpos⟩ := ih (fun l' hl' => hs l' (List.mem_cons_of_mem l hl'))
      (fun l' hl' => hc l' (List.mem_cons_of_mem l hl')) (placeLine b l)
    refine ⟨more ++ rest, ?_, ?_⟩
    · rw [List.foldl_cons, hr, placeLine, hm, List.append_assoc]
    · rw [List.map_append, hpos, hrpos]
      simp [scalarPositions]

/-- What the forest built from the scanned lines of `text` satisfies: its nodes are the scalar
tokens of the lines, numbered in reading order, and its trees are ordered by id. -/
structure WellFormed (text : String) (lines : List Line) (roots : List Node) : Prop where
  /-- The node with id `k` stands on the `k`-th scalar token of the lines. -/
  positions : ∀ n ∈ preorderAll roots,
    (scalarPositions lines)[n.id]? = some (n.entry.startLine, n.entry.tokenIndex)
  /-- Every scalar token has exactly one node. -/
  unique : ∀ k < (scalarPositions lines).length, ∃! n, n ∈ preorderAll roots ∧ n.id = k
  /-- Ids follow reading order. -/
  order : ∀ n ∈ preorderAll roots, ∀ m ∈ preorderAll roots, n.id < m.id ↔
    Precedes (n.entry.startLine, n.entry.tokenIndex) (m.entry.startLine, m.entry.tokenIndex)
  /-- A node is named by its scalar token, and its range is that token's own range on its
  line, where the token stands in the text. -/
  tokens : ∀ n ∈ preorderAll roots, ∃ l ∈ lines, l.number = n.entry.startLine ∧
    ∃ tk, l.tokens[n.entry.tokenIndex]? = some tk ∧ tk.isScalar = true ∧
      n.entry.name = tk.text ∧ l.tokenRange? n.entry.tokenIndex = some n.entry.range ∧
      n.entry.range.Locates tk.text text
  /-- A child comes after its parent, on the parent's line or below it. -/
  children : ∀ n ∈ preorderAll roots, ∀ c ∈ n.children,
    n.id < c.id ∧ n.entry.startLine ≤ c.entry.startLine
  /-- Siblings are in id order, each subtree before the next sibling. -/
  siblings : ∀ n ∈ preorderAll roots,
    n.children.Pairwise fun a b => ∀ m ∈ a.preorder, m.id < b.id
  /-- The roots are in id order. -/
  roots_sorted : (roots.map Node.id).Pairwise (· < ·)
  /-- A node's end line is the last start line of its subtree. -/
  endLine : ∀ n ∈ preorderAll roots, LastLine n

/-- A node names a scalar token of the document line it starts on. -/
theorem WellFormed.scalar_on_line {text : String} {d : Document}
    (hwf : WellFormed text d.lines d.roots) (hp : Document.Parsed text d) {l : Line}
    (hl : l ∈ d.lines) {n : Node} (hn : n ∈ preorderAll d.roots) (hnl : n.entry.startLine = l.number) :
    ∃ tk, l.tokens[n.entry.tokenIndex]? = some tk ∧ tk.isScalar = true := by
  obtain ⟨l', hl', hnum, tk, htk, hts, -⟩ := hwf.tokens n hn
  obtain rfl : l' = l := hp.line_eq hl' hl (hnum.trans hnl)
  exact ⟨tk, htk, hts⟩

/-- The placements of scanned lines stand one on each scalar token, in reading order. -/
theorem placements_scalarPositions {rule : IndentRule} {text : String} {lines : List Line}
    (h : Line.scan rule text = .ok lines) :
    (placements lines).map position = scalarPositions lines := by
  have hcom : ∀ l ∈ lines, ∀ t ∈ l.tokens.dropLast, .comment ∉ t.tags := by
    intro l hl
    rw [Line.tokens_of_scanFrom h l hl]
    exact Lexer.lex_commentLast _
  obtain ⟨more, hmore, hpos⟩ :=
    foldl_placeLine_positions lines (Line.scan_scanned h).tokens_alone hcom {}
  rw [placements, hmore, List.nil_append, hpos]

/-- An entry placed for scanned lines is named by the token it was placed for, and its range is
where that token stands in the text. -/
theorem placements_locates {rule : IndentRule} {text : String} {lines : List Line}
    (h : Line.scan rule text = .ok lines) {p : Entry × Option Nat} (hp : p ∈ placements lines) :
    ∃ l ∈ lines, l.number = p.1.startLine ∧ ∀ tk, l.tokens[p.1.tokenIndex]? = some tk →
      p.1.name = tk.text ∧ p.1.range.Locates tk.text text := by
  obtain ⟨l, hl, i, c, hc⟩ := placements_placedAt (Line.scan_scanned h).tokens_alone p hp
  refine ⟨l, hl, by rw [hc]; rfl, fun tk htk => ?_⟩
  rw [hc] at htk ⊢
  obtain ⟨r, hr, hloc⟩ := (Line.scan_locates h hl).2 i tk htk
  simp only [entryAt] at htk ⊢
  rw [htk, hr]
  exact ⟨rfl, hloc⟩

/-- The forest of scanned lines is well formed. -/
theorem parse_wellFormed {rule : IndentRule} {text : String} {lines : List Line}
    (h : Line.scan rule text = .ok lines) : WellFormed text lines (Forest.parse lines) := by
  have hs := Line.scan_scanned h
  have ha := parse_assembledFrom lines
  have hnum : (lines.map Line.number).Nodup := by
    rw [hs.numbers]
    exact List.nodup_range' _
  have hplaced := placements_scalarPositions h
  have hP : (scalarPositions lines).Pairwise Precedes := scalarPositions_pairwise (by
    rw [hs.numbers]
    exact List.pairwise_lt_range')
  have hnode : ∀ n ∈ preorderAll (Forest.parse lines),
      (scalarPositions lines)[n.id]? = some (n.entry.startLine, n.entry.tokenIndex) := by
    intro n hn
    obtain ⟨⟨p, hp, he⟩, -⟩ := ha.entries n hn
    rw [← hplaced, List.getElem?_map, hp, Option.map_some, he]
    rfl
  have horder : ∀ n ∈ preorderAll (Forest.parse lines), ∀ m ∈ preorderAll (Forest.parse lines),
      n.id < m.id ↔ Precedes (n.entry.startLine, n.entry.tokenIndex)
        (m.entry.startLine, m.entry.tokenIndex) :=
    fun n hn m hm => lt_iff_precedes hP (hnode n hn) (hnode m hm)
  have hordered : ∀ n ∈ preorderAll (Forest.parse lines), n.Ordered := by
    intro n hn
    obtain ⟨r, hr, hnr⟩ := mem_preorderAll.1 hn
    exact (ha.searchable.ordered r hr).of_mem hnr
  refine ⟨hnode, ?unique, horder, ?tokens, ?children, ?siblings, ha.searchable.sorted,
    fun n hn => (ha.entries n hn).2⟩
  case unique =>
    intro k hk
    have hlen : k < (placements lines).length := by
      rw [← hplaced, List.length_map] at hk
      exact hk
    obtain ⟨n, hn, rfl⟩ := List.mem_map.1 ((ha.ids k).2 hlen)
    exact ⟨n, ⟨hn, rfl⟩, fun m ⟨hm, hmk⟩ => List.inj_on_of_nodup_map ha.searchable.nodup hm hn hmk⟩
  case tokens =>
    intro n hn
    obtain ⟨⟨p, hp, he⟩, -⟩ := ha.entries n hn
    have hpm := List.mem_of_getElem? hp
    obtain ⟨l, hl, hline, htoken⟩ := placements_locates h hpm
    obtain ⟨l₁, hl₁, hline₁, -, -, -, hrange⟩ := placements_tokenRange hs.tokens_alone hnum hpm
    obtain ⟨l', hl', hline', tk, htk, hscalar⟩ :=
      mem_scalarPositions.1 (List.mem_of_getElem? (hnode n hn))
    have hstart : n.entry.startLine = p.1.startLine := by rw [he]
    have hll : l' = l := List.inj_on_of_nodup_map hnum hl' hl (by rw [hline', hstart, hline])
    have hll₁ : l₁ = l := List.inj_on_of_nodup_map hnum hl₁ hl (by rw [hline₁, hline])
    subst hll₁ hll
    have hindex : n.entry.tokenIndex = p.1.tokenIndex := by rw [he]
    have hr : n.entry.range = p.1.range := by rw [he]
    obtain ⟨hname, hloc⟩ := htoken tk (by rw [← hindex]; exact htk)
    refine ⟨l', hl', hline', tk, htk, hscalar, by rw [he]; exact hname, ?_, hr ▸ hloc⟩
    rw [hindex, hr]
    exact hrange
  case children =>
    rintro ⟨e, cs⟩ hn c hc
    have hcs : c ∈ preorderAll cs := mem_preorderAll.2 ⟨c, hc, mem_preorder_self c⟩
    have hlt : e.id < c.id := (ordered_mk.1 (hordered _ hn)).1 c hcs
    have hcmem : c ∈ preorderAll (Forest.parse lines) :=
      mem_preorderAll_trans _ hn (by rw [preorder_mk]; exact List.mem_cons_of_mem _ hcs)
    have hprec := (horder _ hn c hcmem).1 hlt
    refine ⟨hlt, ?_⟩
    unfold Precedes at hprec
    simp only at hprec ⊢
    omega
  case siblings =>
    rintro ⟨e, cs⟩ hn
    exact (ordered_mk.1 (hordered _ hn)).2.pairwise

/-- A flow mapping nested in a flow mapping opens a root between the nodes of the first tree;
the forest is well formed all the same. -/
theorem parse_wellFormed_interleaved : ∃ lines,
    Line.scan {} "a: {b: {c: 1}}\n  d: 2" = .ok lines ∧
      WellFormed "a: {b: {c: 1}}\n  d: 2" lines (Forest.parse lines) := by
  have hok : (Line.scan {} "a: {b: {c: 1}}\n  d: 2").toOption.isSome = true := by decide
  cases hs : Line.scan {} "a: {b: {c: 1}}\n  d: 2" with
  | error e =>
    rw [hs] at hok
    cases hok
  | ok lines => exact ⟨lines, rfl, parse_wellFormed hs⟩

end Forest

end YamlEdit
