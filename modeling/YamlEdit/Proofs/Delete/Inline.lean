import YamlEdit.Proofs.Parsed
import YamlEdit.Proofs.Pending

/-!
# Inline deletions

A node is inline when a scalar comes before it on its line: the cursor that places a line's
scalars records whether it has met one. Deleting inline nodes rewrites their line token by
token: the removals of the line's deleted inline entries, in token order, leave each token
removed or with a new text, and the line renders as the texts of the tokens left in place.
-/

namespace YamlEdit

open Node

namespace Forest

/-- A scalar comes before the token at `index` on the line. -/
def ScalarBefore (line : Line) (index : Nat) : Prop :=
  ∃ j < index, ∃ t, line.tokens[j]? = some t ∧ t.isScalar = true

/-- An entry placed for the token at `index` of a line, with a cursor that has seen a scalar
exactly when one comes before the token. -/
def PlacedAfter (line : Line) (index : Nat) (p : Entry × Option Nat) : Prop :=
  ∃ c, p.1 = entryAt line index p.1.id c ∧ (c.seenScalar = true ↔ ScalarBefore line index)

/-- Tags without the scalar tag place nothing and leave the cursor's record of scalars alone. -/
theorem placeTags_unplaced (line : Line) (index : Nat) :
    ∀ (tags : List Tag) (c : Cursor) (b : Builder), .scalar ∉ tags →
      (placeTags line index c b tags).2 = b ∧
        ∀ c', (placeTags line index c b tags).1 = some c' → c'.seenScalar = c.seenScalar
  | [], c, b, _ => by simp [placeTags]
  | .comment :: _, c, b, _ => by simp [placeTags]
  | .scalar :: _, _, _, h => absurd List.mem_cons_self h
  | .mapping :: ts, c, b, h => by
    obtain ⟨h1, h2⟩ := placeTags_unplaced line index ts
      (if c.seenMapping then { c with level := c.level + 1, flow := .mapping }
        else { c with seenMapping := true }) b (fun h' => h (List.mem_cons_of_mem _ h'))
    refine ⟨h1, fun c' hc' => (h2 c' hc').trans ?_⟩
    split <;> rfl
  | .sequence :: ts, c, b, h => by
    obtain ⟨h1, h2⟩ := placeTags_unplaced line index ts
      (if c.seenMapping then { c with level := c.level + 1, flow := .sequence } else c) b
      (fun h' => h (List.mem_cons_of_mem _ h'))
    refine ⟨h1, fun c' hc' => (h2 c' hc').trans ?_⟩
    split <;> rfl

/-- The run lemma of a line's placement: the cursor carried along the tokens has seen a scalar
exactly when one came before, so every entry placed records that. -/
theorem placeTokens_placedAfter (line : Line)
    (hs : ∀ t ∈ line.tokens, Lexer.ScalarAlone t.tags) :
    ∀ (ts : List Token) (index : Nat) (c : Cursor) (b : Builder), line.tokens.drop index = ts →
      (c.seenScalar = true ↔ ScalarBefore line index) → ∃ more,
        (placeTokens line index c b ts).placed = b.placed ++ more ∧
          ∀ p ∈ more, ∃ i, PlacedAfter line i p
  | [], _, _, b, _, _ => ⟨[], by simp [placeTokens]⟩
  | t :: ts, index, c, b, hdrop, hseen => by
    have ht : line.tokens[index]? = some t := by
      rw [← List.head?_drop, hdrop]
      rfl
    have hrest : line.tokens.drop (index + 1) = ts := by
      rw [← List.drop_drop, hdrop]
      rfl
    have hmem : t ∈ line.tokens := List.mem_of_getElem? ht
    have hbefore : ScalarBefore line (index + 1) ↔ ScalarBefore line index ∨ t.isScalar = true := by
      constructor
      · rintro ⟨j, hj, u, hu, hsu⟩
        rcases Nat.lt_succ_iff_lt_or_eq.1 hj with hj | rfl
        · exact .inl ⟨j, hj, u, hu, hsu⟩
        · rw [ht] at hu
          cases hu
          exact .inr hsu
      · rintro (⟨j, hj, u, hu, hsu⟩ | hsc)
        · exact ⟨j, Nat.lt_succ_of_lt hj, u, hu, hsu⟩
        · exact ⟨index, Nat.lt_succ_self _, t, ht, hsc⟩
    unfold placeTokens
    rcases hs t hmem with htags | hns
    · obtain ⟨par, hpar⟩ := b.addScalar_placed line index c
      have hplace : placeTags line index c b t.tags =
          (some { c with seenScalar := true }, b.addScalar line index c) := by
        rw [htags]
        rfl
      rw [hplace]
      obtain ⟨more, hm, hp⟩ := placeTokens_placedAfter line hs ts (index + 1)
        { c with seenScalar := true } (b.addScalar line index c) hrest
        (by simp [hbefore, Token.isScalar, htags])
      refine ⟨(entryAt line index b.nextId c, par) :: more, by rw [hm, hpar]; simp, ?_⟩
      rintro p (_ | ⟨_, hp'⟩)
      · exact ⟨index, c, rfl, hseen⟩
      · exact hp p hp'
    · have hns' : t.isScalar = false := by simpa [Token.isScalar] using hns
      obtain ⟨h1, h2⟩ := placeTags_unplaced line index t.tags c b hns
      split
      · rename_i c' b' heq
        rw [heq] at h1 h2
        obtain ⟨more, hm, hp⟩ := placeTokens_placedAfter line hs ts (index + 1) c' b' hrest
          (by rw [h2 c' rfl, hseen, hbefore, hns']; simp)
        exact ⟨more, by rw [hm, ← h1], hp⟩
      · rename_i b' heq
        rw [heq] at h1
        exact ⟨[], by simp [← h1]⟩

/-- The placements of lines all record whether a scalar comes before them on their line. -/
theorem foldl_placeLine_placedAfter (lines : List Line)
    (hs : ∀ l ∈ lines, ∀ t ∈ l.tokens, Lexer.ScalarAlone t.tags) (b : Builder) : ∃ more,
      (lines.foldl placeLine b).placed = b.placed ++ more ∧
        ∀ p ∈ more, ∃ l ∈ lines, ∃ i, PlacedAfter l i p := by
  induction lines generalizing b with
  | nil => exact ⟨[], by simp⟩
  | cons l ls ih =>
    obtain ⟨more, hm, hp⟩ := placeTokens_placedAfter l (hs l (by simp)) l.tokens 0
      { level := l.level } b rfl (by simp [ScalarBefore])
    obtain ⟨rest, hr, hrp⟩ := ih (fun l' hl' => hs l' (List.mem_cons_of_mem l hl')) (placeLine b l)
    refine ⟨more ++ rest, by rw [List.foldl_cons, hr, placeLine, hm, List.append_assoc], ?_⟩
    intro p hp'
    rcases List.mem_append.1 hp' with hp' | hp'
    · obtain ⟨i, hi⟩ := hp p hp'
      exact ⟨l, by simp, i, hi⟩
    · obtain ⟨l', hl', i, hi⟩ := hrp p hp'
      exact ⟨l', List.mem_cons_of_mem l hl', i, hi⟩

end Forest

namespace Marks

theorem mem_foldr_distinct_of_mem {k : Nat} : ∀ {ns : List Nat}, k ∈ ns →
    k ∈ ns.foldr (fun n acc => if acc.head? == some n then acc else n :: acc) []
  | n :: ns, h => by
    rw [List.foldr_cons]
    rcases List.mem_cons.1 h with rfl | h
    · split
      · rename_i hh
        exact List.mem_of_head? (by simpa using hh)
      · exact List.mem_cons_self
    · have := mem_foldr_distinct_of_mem h
      split
      · exact this
      · exact List.mem_cons_of_mem _ this

/-- Sorting and removing duplicates keeps every number. -/
theorem mem_ascendingDistinct {k : Nat} {ns : List Nat} : k ∈ ascendingDistinct ns ↔ k ∈ ns :=
  ⟨mem_of_mem_ascendingDistinct, fun h => mem_foldr_distinct_of_mem (List.mem_mergeSort.2 h)⟩

/-- Removing an entry keeps a text and a removal flag for every token. -/
theorem length_removeEntry (tokens : List Token) (r : Removal) (e : Entry) :
    (removeEntry tokens r e).texts.length = r.texts.length ∧
      (removeEntry tokens r e).removed.length = r.removed.length := by
  unfold removeEntry
  simp only [Removal.modifyText]
  split
  · simp
  · repeat' split
    all_goals simp

namespace Removal

/-- The text a removal leaves: the current texts of the tokens still in place. -/
def output (r : Removal) : String :=
  String.join ((r.texts.zip r.removed).map fun p => if p.2 then "" else p.1)

theorem output_append {T T' : List String} {R R' : List Bool} (h : T.length = R.length) :
    output ⟨T ++ T', R ++ R'⟩ = output ⟨T, R⟩ ++ output ⟨T', R'⟩ := by
  simp [output, List.zip_append h, String.join_append]

/-- Tokens all in place or all removed leave their text or nothing. -/
theorem output_uniform (ts : List Token) (b : Bool) :
    output ⟨ts.map Token.text, ts.map fun _ => b⟩ = if b then "" else Token.join ts := by
  induction ts with
  | nil => cases b <;> rfl
  | cons t ts ih =>
    simp only [output, List.map_cons, List.zip_cons_cons, String.join_cons] at ih ⊢
    rw [ih]
    cases b <;> simp [Token.join, String.join_cons]

end Removal

/-- The removal a line is left with once the given inline entries are removed, in order. -/
def removalOf (line : Line) (entries : List Entry) : Removal :=
  entries.foldl (removeEntry line.tokens) ⟨line.tokens.map Token.text, line.tokens.map fun _ => false⟩

theorem length_removalOf (line : Line) (entries : List Entry) :
    (removalOf line entries).texts.length = line.tokens.length ∧
      (removalOf line entries).removed.length = line.tokens.length := by
  suffices ∀ r : Removal, r.texts.length = line.tokens.length → r.removed.length = line.tokens.length →
      (entries.foldl (removeEntry line.tokens) r).texts.length = line.tokens.length ∧
        (entries.foldl (removeEntry line.tokens) r).removed.length = line.tokens.length from
    this _ (by simp) (by simp)
  induction entries with
  | nil => exact fun r h1 h2 => ⟨h1, h2⟩
  | cons e es ih =>
    intro r h1 h2
    obtain ⟨h1', h2'⟩ := length_removeEntry line.tokens r e
    exact ih _ (h1' ▸ h1) (h2' ▸ h2)

/-- The edit an inline deletion makes to a token: empty when it is removed, its new text when
that differs. -/
theorem replaceToken_mem_deleteInline {line : Line} {entries : List Entry} {i : Nat} {w : String} :
    Edit.replaceToken line.number i w ∈ deleteInline line entries ↔
      ∃ t, line.tokens[i]? = some t ∧
        if (removalOf line entries).isRemoved i then w = ""
        else (removalOf line entries).texts[i]?.getD t.text ≠ t.text ∧
          w = (removalOf line entries).texts[i]?.getD t.text := by
  have hr : entries.foldl (removeEntry line.tokens)
      ⟨line.tokens.map Token.text, line.tokens.map fun _ => false⟩ = removalOf line entries := rfl
  unfold deleteInline
  simp only [hr]
  rw [List.mem_filterMap]
  constructor
  · rintro ⟨⟨t, j⟩, hj, hx⟩
    rw [List.mem_zipIdx_iff_getElem?] at hj
    dsimp only at hj hx
    split at hx
    · rename_i hrem
      simp only [Option.some.injEq, Edit.replaceToken.injEq, true_and] at hx
      obtain ⟨rfl, rfl⟩ := hx
      exact ⟨t, hj, by simp [hrem]⟩
    · rename_i hrem
      split at hx
      · rename_i hne
        simp only [Option.some.injEq, Edit.replaceToken.injEq, true_and] at hx
        obtain ⟨rfl, rfl⟩ := hx
        exact ⟨t, hj, by simpa [hrem] using hne⟩
      · cases hx
  · rintro ⟨t, ht, hw⟩
    refine ⟨(t, i), List.mem_zipIdx_iff_getElem?.2 ht, ?_⟩
    dsimp only
    by_cases hrem : (removalOf line entries).isRemoved i
    · rw [if_pos hrem] at hw
      simp [hrem, hw]
    · rw [if_neg hrem] at hw
      simp [hrem, hw.2, hw.1]

end Marks

namespace Document

/-- A node of a parsed document is inline exactly when a scalar comes before it on its line,
and its role is read from the token in front of it. -/
theorem inline_role_of_parse {rule : IndentRule} {t : String} {d : Document}
    (h : Document.parse rule t = .ok d) {n : Node} (hn : n ∈ preorderAll d.roots) :
    ∃ l ∈ d.lines, l.number = n.entry.startLine ∧
      (n.entry.inline = true ↔ Forest.ScalarBefore l n.entry.tokenIndex) ∧
      ∃ flow, n.entry.role = Forest.roleOf
        (if n.entry.tokenIndex = 0 then none else l.tokens[n.entry.tokenIndex - 1]?) flow := by
  obtain ⟨hscan, hroots, -⟩ := scan_of_parse h
  rw [hroots] at hn
  obtain ⟨p, hp, he⟩ := entry_of_parse hn
  obtain ⟨more, hmore, hplaced⟩ := Forest.foldl_placeLine_placedAfter d.lines
    (Line.scan_scanned hscan).tokens_alone {}
  rw [Forest.placements, hmore] at hp
  obtain ⟨l, hl, i, c, hc, hseen⟩ := hplaced p (by simpa using hp)
  rw [he, hc]
  exact ⟨l, hl, rfl, hseen, c.flow, rfl⟩

/-- The deleted inline entries of line `k`, in token order: what rendering removes from it. -/
def inlineDeletions (d : Document) (k : Nat) : List Entry :=
  ((((d.descendants.map Node.entry).filter fun e => e.mark == .deleted).filter Entry.inline).filter
    fun e => e.startLine == k).mergeSort fun a b => a.tokenIndex ≤ b.tokenIndex

theorem deleteInline_nil (line : Line) : Marks.deleteInline line [] = [] := by
  apply List.eq_nil_iff_forall_not_mem.2
  intro x hx
  obtain ⟨token, text, rfl⟩ := Marks.mem_deleteInline hx
  obtain ⟨t, ht, hw⟩ := Marks.replaceToken_mem_deleteInline.1 hx
  obtain ⟨hi, hget⟩ := List.getElem?_eq_some_iff.1 ht
  simp [Marks.removalOf, Marks.Removal.isRemoved, hi, hget] at hw

section NoRenames

variable {d : Document} (hren : ∀ e ∈ d.entries, ∀ s, e.mark ≠ .renamed s)
  (hnum : ∀ k line, d.line? k = some line → line.number = k)
include hren hnum

/-- Without renames, the token edits of a line are those of its inline deletions. -/
theorem replaceToken_mem_pendingEdits_iff {l : Line} (hl : d.line? l.number = some l) (i : Nat)
    (w : String) :
    Edit.replaceToken l.number i w ∈ d.pendingEdits ↔
      Edit.replaceToken l.number i w ∈ Marks.deleteInline l (d.inlineDeletions l.number) := by
  unfold pendingEdits
  simp only [List.mem_append]
  constructor
  · rintro ((h | h) | h)
    · obtain ⟨e, he, hx⟩ := List.mem_filterMap.1 h
      cases hm : e.mark with
      | renamed s => exact absurd hm (hren e (mem_descendants_entries.1 he) s)
      | _ => rw [hm] at hx; cases hx
    · obtain ⟨e, -, hx⟩ := List.mem_map.1 h
      cases hx
    · obtain ⟨k, -, hx⟩ := List.mem_flatMap.1 h
      cases hline : d.line? k with
      | none => rw [hline] at hx; cases hx
      | some line =>
        rw [hline] at hx
        obtain ⟨token, text, heq⟩ := Marks.mem_deleteInline hx
        simp only [Edit.replaceToken.injEq] at heq
        have hk : l.number = k := heq.1.trans (hnum k line hline)
        subst hk
        rw [hl] at hline
        cases hline
        exact hx
  · intro h
    obtain ⟨e, he⟩ : ∃ e, e ∈ d.inlineDeletions l.number := by
      cases hx : d.inlineDeletions l.number with
      | nil => rw [hx, deleteInline_nil] at h; cases h
      | cons e _ => exact ⟨e, by simp⟩
    simp only [inlineDeletions, List.mem_mergeSort, List.mem_filter, beq_iff_eq] at he
    refine .inr (List.mem_flatMap.2 ⟨l.number, Marks.mem_ascendingDistinct.2 ?_, ?_⟩)
    · exact List.mem_map.2 ⟨e, List.mem_filter.2 ⟨List.mem_filter.2 ⟨he.1.1.1, by simpa using he.1.1.2⟩,
        he.1.2⟩, he.2⟩
    · rw [hl]
      exact h

/-- Without renames, a token of a line renders as nothing when its inline deletions remove it,
else as the text they leave it. -/
theorem replacement?_pendingEdits {l : Line} (hl : d.line? l.number = some l) {i : Nat} {t : Token}
    (ht : l.tokens[i]? = some t) :
    (Edit.replacement? d.pendingEdits l.number i).getD t.text =
      if (Marks.removalOf l (d.inlineDeletions l.number)).isRemoved i then ""
      else (Marks.removalOf l (d.inlineDeletions l.number)).texts[i]?.getD t.text := by
  have hiff := replaceToken_mem_pendingEdits_iff hren hnum hl i
  by_cases hrem : (Marks.removalOf l (d.inlineDeletions l.number)).isRemoved i
  · rw [if_pos hrem, Edit.replacement?_of_uniform (w := "")]
    · rfl
    · intro text hx
      obtain ⟨t', -, hw⟩ := Marks.replaceToken_mem_deleteInline.1 ((hiff text).1 hx)
      rwa [if_pos hrem] at hw
    · exact ⟨"", (hiff "").2 (Marks.replaceToken_mem_deleteInline.2 ⟨t, ht, by rw [if_pos hrem]⟩)⟩
  · rw [if_neg hrem]
    by_cases hne : (Marks.removalOf l (d.inlineDeletions l.number)).texts[i]?.getD t.text = t.text
    · rw [hne, Edit.replacement?_eq_none.2]
      · rfl
      · intro text hx
        obtain ⟨t', ht', hw⟩ := Marks.replaceToken_mem_deleteInline.1 ((hiff text).1 hx)
        rw [ht'] at ht
        cases ht
        rw [if_neg hrem] at hw
        exact hw.1 hne
    · rw [Edit.replacement?_of_uniform (w := (Marks.removalOf l (d.inlineDeletions l.number)).texts[i]?.getD t.text)]
      · rfl
      · intro text hx
        obtain ⟨t', ht', hw⟩ := Marks.replaceToken_mem_deleteInline.1 ((hiff text).1 hx)
        rw [ht'] at ht
        cases ht
        rw [if_neg hrem] at hw
        exact hw.2
      · exact ⟨_, (hiff _).2 (Marks.replaceToken_mem_deleteInline.2 ⟨t, ht, by rw [if_neg hrem]; exact ⟨hne, rfl⟩⟩)⟩

/-- Without renames, a line renders as the texts its inline deletions leave in place. -/
theorem lineText_pendingEdits {l : Line} (hl : d.line? l.number = some l) :
    Edit.lineText d.pendingEdits l = (Marks.removalOf l (d.inlineDeletions l.number)).output := by
  rw [Edit.lineText_of_no_insertions (fun _ _ _ => insertText_not_mem_pendingEdits d _ _ _ _)]
  obtain ⟨h1, h2⟩ := Marks.length_removalOf l (d.inlineDeletions l.number)
  unfold Marks.Removal.output
  congr 1
  apply List.ext_getElem (by simp [h1, h2])
  intro j hj1 hj2
  have hj : j < l.tokens.length := by simpa using hj1
  rw [List.getElem_map, List.getElem_map, List.getElem_zipIdx, List.getElem_zip]
  dsimp only
  rw [Nat.zero_add, replacement?_pendingEdits hren hnum hl (List.getElem?_eq_getElem hj)]
  simp [Marks.Removal.isRemoved, List.getElem?_eq_getElem (h2 ▸ hj), List.getElem?_eq_getElem (h1 ▸ hj)]

end NoRenames

/-- The deleted inline entries of a line come in token order. -/
theorem inlineDeletions_sorted (d : Document) (k : Nat) :
    ((d.inlineDeletions k).map Entry.tokenIndex).Pairwise (· ≤ ·) := by
  rw [List.pairwise_map]
  unfold inlineDeletions
  refine (List.pairwise_mergeSort (fun a b c hab hbc => ?_) (fun a b => ?_) _).imp (by simp)
  · simp only [decide_eq_true_eq] at *
    omega
  · simp [Nat.le_total]

namespace Parsed

variable {text : String} {d : Document} (hp : Parsed text d) (targets : List Nat)
include hp

/-- A deletion renames nothing. -/
theorem not_renamed_markAll_deleted :
    ∀ e ∈ (Mutation.markAll d targets .deleted).entries, ∀ s, e.mark ≠ .renamed s := by
  intro e he s hm
  obtain ⟨n, -, rfl⟩ := hp.entry_of_markAll he
  by_cases hT : n.id ∈ targets <;> simp [hT] at hm

/-- Marking keeps every line under its own number. -/
theorem number_of_line?_markAll (mark : Mark) :
    ∀ k line, (Mutation.markAll d targets mark).line? k = some line → line.number = k :=
  fun _ _ h => hp.number_of_line? (by rwa [Mutation.line?_markAll] at h)

/-- After a deletion, the deleted inline entries of line `k` are the entries of the inline
targets on that line. -/
theorem mem_inlineDeletions {k : Nat} {x : Entry} :
    x ∈ (Mutation.markAll d targets .deleted).inlineDeletions k ↔
      ∃ n ∈ preorderAll d.roots, n.id ∈ targets ∧ n.entry.inline = true ∧
        n.entry.startLine = k ∧ x = { n.entry with mark := .deleted } := by
  simp only [inlineDeletions, List.mem_mergeSort, List.mem_filter, mem_descendants_entries,
    beq_iff_eq]
  constructor
  · rintro ⟨⟨⟨hx, hm⟩, hi⟩, hk⟩
    obtain ⟨n, hn, hT, rfl⟩ := hp.target_of_markAll hx (by simp [hm])
    exact ⟨n, hn, hT, hi, hk, rfl⟩
  · rintro ⟨n, hn, hT, hi, hk, rfl⟩
    exact ⟨⟨⟨hp.mem_markAll_of_target hn hT, rfl⟩, hi⟩, hk⟩

/-- No two deleted inline entries of a line stand on the same token. -/
theorem inlineDeletions_nodup (k : Nat) :
    (((Mutation.markAll d targets .deleted).inlineDeletions k).map Entry.tokenIndex).Nodup := by
  have hnodes : ((preorderAll d.roots).map fun n => (n.entry.startLine, n.entry.tokenIndex)).Nodup :=
    (hp.searchable.nodup.of_map _).map_on fun n hn m hm h =>
      hp.positions n hn m hm (Prod.ext_iff.1 h).1 (Prod.ext_iff.1 h).2
  have hall : (((Mutation.markAll d targets .deleted).descendants.map Node.entry).map
      fun e => (e.startLine, e.tokenIndex)).Nodup := by
    have hperm := ((List.mergeSort_perm (preorderAll (Mutation.markAll d targets .deleted).roots)
      fun a b => a.id ≤ b.id).map Node.entry).map fun e : Entry => (e.startLine, e.tokenIndex)
    refine hperm.nodup_iff.2 ?_
    have he := (Mutation.markAll_spec .deleted targets hp.searchable).2
    rw [entries] at he
    have hpos : ((fun e : Entry => (e.startLine, e.tokenIndex)) ∘
        Mutation.marked targets .deleted) ∘ Node.entry =
        fun n => (n.entry.startLine, n.entry.tokenIndex) := by
      funext n
      simp [Mutation.marked_eq]
    rw [he, entries, List.map_map, List.map_map, hpos]
    exact hnodes
  have hxs : (((Mutation.markAll d targets .deleted).inlineDeletions k).map
      fun e => (e.startLine, e.tokenIndex)).Nodup := by
    unfold inlineDeletions
    refine ((List.mergeSort_perm _ _).map _).nodup_iff.2 ?_
    exact (((List.filter_sublist.trans List.filter_sublist).trans List.filter_sublist).map _).nodup
      hall
  have hline : (((Mutation.markAll d targets .deleted).inlineDeletions k).map
      fun e => (e.startLine, e.tokenIndex)) =
      (((Mutation.markAll d targets .deleted).inlineDeletions k).map Entry.tokenIndex).map
        fun i => (k, i) := by
    rw [List.map_map]
    apply List.map_congr_left
    intro e he
    obtain ⟨n, -, -, -, hk, rfl⟩ := (mem_inlineDeletions hp targets).1 he
    simp [hk]
  rw [hline] at hxs
  exact hxs.of_map _

/-- The deleted inline entries of a line stand, in token order, at the increasing positions of
the inline targets on the line. -/
theorem tokenIndex_inlineDeletions {k : Nat} {S : List Nat} (hS : S.Pairwise (· < ·))
    (hmem : ∀ i, i ∈ S ↔ ∃ n ∈ preorderAll d.roots, n.id ∈ targets ∧ n.entry.inline = true ∧
      n.entry.startLine = k ∧ n.entry.tokenIndex = i) :
    ((Mutation.markAll d targets .deleted).inlineDeletions k).map Entry.tokenIndex = S := by
  refine List.Perm.eq_of_pairwise (fun a b _ _ (h1 : a ≤ b) h2 => Nat.le_antisymm h1 h2)
    (inlineDeletions_sorted _ k) (hS.imp Nat.le_of_lt) ?_
  rw [List.perm_ext_iff_of_nodup (inlineDeletions_nodup hp targets k) (hS.imp Nat.ne_of_lt)]
  intro i
  rw [hmem i, List.mem_map]
  constructor
  · rintro ⟨x, hx, rfl⟩
    obtain ⟨n, hn, hT, hi, hk, rfl⟩ := (mem_inlineDeletions hp targets).1 hx
    exact ⟨n, hn, hT, hi, hk, rfl⟩
  · rintro ⟨n, hn, hT, hi, hk, rfl⟩
    exact ⟨_, (mem_inlineDeletions hp targets).2 ⟨n, hn, hT, hi, hk, rfl⟩, rfl⟩

end Parsed

end Document

end YamlEdit
