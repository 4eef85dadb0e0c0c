import YamlEdit.Forest
import YamlEdit.Proofs.Lexer

/-!
# Placing scalars keeps sibling subtrees apart

Placing the scalars of a document records, for every entry, the entry it hangs off. Entries are
numbered in placement order and hang off earlier ones, so parents come before their children.
The level table is the only source of parents, and everything it still holds lies to the right
of every subtree that already has a later sibling: a new entry can extend the rightmost branch
of a tree, or start a tree of its own, but never reopen a closed subtree. Hence every entry
below a node comes before that node's next sibling. This is the fact that turns the flat
placements into trees whose pre-order is sorted by id, which lookup by descent relies on.
-/

namespace YamlEdit.Forest

/-- The entry that entry `k` was placed under, if any. -/
def parentIn (placed : List (Entry × Option Nat)) (k : Nat) : Option Nat :=
  placed[k]?.bind Prod.snd

/-- `Descends placed a y`: entry `y` is `a` or lies below it. -/
inductive Descends (placed : List (Entry × Option Nat)) : Nat → Nat → Prop where
  /-- Every entry lies below itself. -/
  | refl (a : Nat) : Descends placed a a
  /-- Below a child is below its parent. -/
  | child {a c y : Nat} : parentIn placed c = some a → Descends placed c y → Descends placed a y

section Parents

variable {placed : List (Entry × Option Nat)}

theorem parentIn_lt_length {k q : Nat} (h : parentIn placed k = some q) : k < placed.length := by
  unfold parentIn at h
  cases hk : placed[k]? with
  | none => simp [hk] at h
  | some p => exact (List.getElem?_eq_some_iff.1 hk).1

theorem parentIn_append_of_lt (more : List (Entry × Option Nat)) {k : Nat}
    (hk : k < placed.length) : parentIn (placed ++ more) k = parentIn placed k := by
  simp [parentIn, List.getElem?_append_left hk]

theorem parentIn_append_length (e : Entry) (p : Option Nat) :
    parentIn (placed ++ [(e, p)]) placed.length = p := by
  simp [parentIn]

/-- Every parent comes before its child. -/
def ParentsBefore (placed : List (Entry × Option Nat)) : Prop :=
  ∀ k q, parentIn placed k = some q → q < k

theorem Descends.le (hp : ParentsBefore placed) {a y : Nat} (h : Descends placed a y) : a ≤ y := by
  induction h with
  | refl => exact Nat.le_refl _
  | child hc _ ih => exact Nat.le_of_lt (Nat.lt_of_lt_of_le (hp _ _ hc) ih)

theorem Descends.lt_length {a y : Nat} (h : Descends placed a y) (ha : a < placed.length) :
    y < placed.length := by
  induction h with
  | refl => exact ha
  | child hc _ ih => exact ih (parentIn_lt_length hc)

/-- Following the path up from `y`: `y` is `a`, or its parent is below `a`. -/
theorem Descends.up {a y : Nat} (h : Descends placed a y) :
    y = a ∨ ∃ q, parentIn placed y = some q ∧ Descends placed a q := by
  induction h with
  | refl => exact .inl rfl
  | @child a c y hc _ ih =>
    rcases ih with rfl | ⟨q, hq, hd⟩
    · exact .inr ⟨a, hc, .refl a⟩
    · exact .inr ⟨q, hq, .child hc hd⟩

/-- Below a parent is below its grandparent: the path can be extended at the bottom. -/
theorem Descends.down {a q y : Nat} (h : Descends placed a q) (hy : parentIn placed y = some q) :
    Descends placed a y := by
  induction h with
  | refl => exact .child hy (.refl y)
  | child hc _ ih => exact .child hc (ih hy)

theorem Descends.append (more : List (Entry × Option Nat)) {a y : Nat} (h : Descends placed a y) :
    Descends (placed ++ more) a y := by
  induction h with
  | refl => exact .refl _
  | child hc _ ih =>
    exact .child (by rw [parentIn_append_of_lt more (parentIn_lt_length hc), hc]) ih

/-- Appending entries adds nothing below the entries already there. -/
theorem Descends.of_append {more : List (Entry × Option Nat)}
    (hp : ParentsBefore (placed ++ more)) {a y : Nat} (h : Descends (placed ++ more) a y)
    (hy : y < placed.length) : Descends placed a y := by
  induction h with
  | refl => exact .refl _
  | @child a c y hc hd ih =>
    have hcy : c < placed.length := Nat.lt_of_le_of_lt (hd.le hp) hy
    exact .child (by rw [← parentIn_append_of_lt more hcy, hc]) (ih hy)

end Parents

/-- The table after settling a node at a level: the levels below keep their nodes, the level
holds the new node and nothing is left above it. -/
theorem nodeAt_settle (table : List (Option Nat)) (level id i : Nat) :
    nodeAt (settle table level id) i =
      if i < level then nodeAt table i else if i = level then some id else none := by
  unfold nodeAt settle
  by_cases hi : i < level
  · rw [if_pos hi, List.getElem?_append_left (by simp; omega)]
    by_cases ht : i < table.length
    · rw [List.getElem?_append_left (by simp; omega), List.getElem?_take_of_lt hi]
    · rw [List.getElem?_append_right (by simp; omega), List.getElem?_replicate,
        List.getElem?_eq_none (by omega)]
      split <;> rfl
  · rw [if_neg hi, List.getElem?_append_right (by simp; omega)]
    have hlen : (List.take level table ++ List.replicate (level - table.length) none).length =
        level := by simp; omega
    rw [hlen]
    by_cases he : i = level
    · subst he; simp
    · rw [if_neg he, List.getElem?_eq_none (by simp; omega)]
      rfl

/-- The invariant of the scan of one line: the cursor never drops below the line's level, and
once the line's first scalar holds the line's own level nothing stands above it in the table, so
an inline value's owner is the most recent node of the table. -/
def Cursor.Wf (line : Line) (c : Cursor) (table : List (Option Nat)) : Prop :=
  line.level ≤ c.level ∧
    (c.seenScalar = true → c.level = line.level → ∀ i, c.level < i → nodeAt table i = none)

theorem Cursor.wf_start (line : Line) (table : List (Option Nat)) :
    Cursor.Wf line { level := line.level } table :=
  ⟨Nat.le_refl _, by simp⟩

/-- Every entry below a node comes before the node's later siblings. -/
def Apart (placed : List (Entry × Option Nat)) : Prop :=
  ∀ a k q y, parentIn placed a = some q → parentIn placed k = some q → a < k →
    Descends placed a y → y < k

namespace Builder

/-- Placing a scalar either makes it the inline value of the line's first node, or settles it
in the table at the cursor's level under the node one level up. -/
theorem addScalar_cases (b : Builder) (line : Line) (index : Nat) (c : Cursor) :
    (∃ owner, c.seenScalar = true ∧ c.level = line.level ∧ nodeAt b.table c.level = some owner ∧
      b.addScalar line index c =
        { b with placed := b.placed ++ [(entryAt line index b.nextId c, some owner)] }) ∨
    b.addScalar line index c =
      { placed := b.placed ++ [(entryAt line index b.nextId c,
          if c.level = 0 then none
          else nodeAt (settle b.table c.level b.nextId) (c.level - 1))]
        table := settle b.table c.level b.nextId } := by
  unfold addScalar
  dsimp only
  split
  · rename_i owner howner
    by_cases hn : (c.seenScalar && c.level == line.level) = true
    · rw [if_pos hn] at howner
      simp only [Bool.and_eq_true, beq_iff_eq] at hn
      exact .inl ⟨owner, hn.1, hn.2, howner, rfl⟩
    · rw [if_neg hn] at howner
      cases howner
  · exact .inr rfl

theorem cursor_wf_addScalar {b : Builder} {line : Line} {index : Nat} {c : Cursor}
    (hc : Cursor.Wf line c b.table) :
    Cursor.Wf line { c with seenScalar := true } (b.addScalar line index c).table := by
  refine ⟨hc.1, fun _ hl i hi => ?_⟩
  rcases addScalar_cases b line index c with ⟨owner, hs, -, -, heq⟩ | heq
  · rw [heq]
    exact hc.2 hs hl i hi
  · rw [heq, nodeAt_settle]
    simp only at hi
    rw [if_neg (by omega), if_neg (by omega)]

/-- What the placements built so far satisfy. -/
structure Wf (b : Builder) : Prop where
  /-- Entries are numbered in placement order. -/
  ids : ∀ k (p : Entry × Option Nat), b.placed[k]? = some p → p.1.id = k
  /-- Parents come before their children. -/
  parents : ParentsBefore b.placed
  /-- The table holds placed entries. -/
  table_lt : ∀ i t, nodeAt b.table i = some t → t < b.placed.length
  /-- Deeper levels of the table hold later entries. -/
  table_sorted : ∀ i j s t, i < j → nodeAt b.table i = some s → nodeAt b.table j = some t → s < t
  /-- Nothing in the table lies below an entry that has a later sibling. -/
  closed : ∀ a k q i t, parentIn b.placed a = some q → parentIn b.placed k = some q → a < k →
    nodeAt b.table i = some t → ¬Descends b.placed a t
  /-- Sibling subtrees are apart. -/
  apart : Apart b.placed

theorem wf_empty : Builder.Wf {} where
  ids := by simp
  parents := by simp [ParentsBefore, parentIn]
  table_lt := by simp [nodeAt]
  table_sorted := by simp [nodeAt]
  closed := by simp [parentIn]
  apart := by simp [Apart, parentIn]

/-- One placement, described by what it does to the table: the new table holds the old nodes and
the new entry, in order, and the new entry's parent is a node of the old table that is at least
every old node the new table keeps. -/
theorem Wf.append {b : Builder} (hb : b.Wf) {e : Entry} {par : Option Nat}
    {table : List (Option Nat)} (he : e.id = b.placed.length)
    (hkeep : ∀ i t, nodeAt table i = some t → t = b.placed.length ∨ ∃ j, nodeAt b.table j = some t)
    (hsorted : ∀ i j s t, i < j → nodeAt table i = some s → nodeAt table j = some t → s < t)
    (hpar : ∀ q, par = some q → (∃ j, nodeAt b.table j = some q) ∧
      ∀ i t, nodeAt table i = some t → t ≠ b.placed.length → t ≤ q) :
    Builder.Wf ⟨b.placed ++ [(e, par)], table⟩ := by
  have hparlt : ∀ q, par = some q → q < b.placed.length := fun q hq => by
    obtain ⟨⟨j, hj⟩, -⟩ := hpar q hq
    exact hb.table_lt j q hj
  have hparent : ∀ k, k < b.placed.length →
      parentIn (b.placed ++ [(e, par)]) k = parentIn b.placed k :=
    fun k hk => parentIn_append_of_lt _ hk
  have hnew : parentIn (b.placed ++ [(e, par)]) b.placed.length = par :=
    parentIn_append_length e par
  have hparents : ParentsBefore (b.placed ++ [(e, par)]) := by
    intro k q hk
    have hlen := parentIn_lt_length hk
    simp only [List.length_append, List.length_singleton] at hlen
    rcases Nat.lt_succ_iff_lt_or_eq.1 hlen with hlt | rfl
    · rw [hparent k hlt] at hk
      exact hb.parents k q hk
    · rw [hnew] at hk
      exact hparlt q hk
  -- an entry with an older sibling that lies above the new entry lies above an old table node
  have hup : ∀ a, a < b.placed.length → Descends (b.placed ++ [(e, par)]) a b.placed.length →
      ∃ q, par = some q ∧ Descends b.placed a q := by
    intro a ha hd
    rcases hd.up with h | ⟨q, hq, hd⟩
    · omega
    · rw [hnew] at hq
      exact ⟨q, hq, hd.of_append hparents (hparlt q hq)⟩
  refine ⟨?_, hparents, ?_, hsorted, ?_, ?_⟩
  · intro k p hk
    rcases Nat.lt_or_ge k b.placed.length with hlt | hge
    · rw [List.getElem?_append_left hlt] at hk
      exact hb.ids k p hk
    · rw [List.getElem?_append_right hge] at hk
      have hk0 : k - b.placed.length = 0 := by
        cases h : k - b.placed.length with
        | zero => rfl
        | succ n => simp [h] at hk
      rw [hk0] at hk
      cases hk
      simp only [he]
      omega
  · intro i t ht
    simp only [List.length_append, List.length_singleton]
    rcases hkeep i t ht with rfl | ⟨j, hj⟩
    · omega
    · exact Nat.lt_succ_of_lt (hb.table_lt j t hj)
  · intro a k q i t ha hk hak ht hd
    have hklen := parentIn_lt_length hk
    simp only [List.length_append, List.length_singleton] at hklen
    have halen : a < b.placed.length := by omega
    rw [hparent a halen] at ha
    rcases Nat.lt_succ_iff_lt_or_eq.1 hklen with hklt | rfl
    · rw [hparent k hklt] at hk
      rcases hkeep i t ht with rfl | ⟨j, hj⟩
      · obtain ⟨q', hq', hd'⟩ := hup a halen hd
        obtain ⟨⟨j, hj⟩, -⟩ := hpar q' hq'
        exact hb.closed a k q j q' ha hk hak hj hd'
      · exact hb.closed a k q j t ha hk hak hj (hd.of_append hparents (hb.table_lt j t hj))
    · rw [hnew] at hk
      have hqa := hb.parents a q ha
      by_cases htn : t = b.placed.length
      · subst htn
        obtain ⟨q', hq', hd'⟩ := hup a halen hd
        rw [hk] at hq'
        cases hq'
        have := hd'.le hb.parents
        omega
      · have htq := (hpar q hk).2 i t ht htn
        have := hd.le hparents
        omega
  · intro a k q y ha hk hak hd
    have hklen := parentIn_lt_length hk
    simp only [List.length_append, List.length_singleton] at hklen
    have halen : a < b.placed.length := by omega
    rw [hparent a halen] at ha
    have hylen := hd.lt_length (by simp; omega)
    simp only [List.length_append, List.length_singleton] at hylen
    rcases Nat.lt_succ_iff_lt_or_eq.1 hklen with hklt | rfl
    · rw [hparent k hklt] at hk
      rcases Nat.lt_succ_iff_lt_or_eq.1 hylen with hylt | rfl
      · exact hb.apart a k q y ha hk hak (hd.of_append hparents hylt)
      · obtain ⟨q', hq', hd'⟩ := hup a halen hd
        obtain ⟨⟨j, hj⟩, -⟩ := hpar q' hq'
        exact absurd hd' (hb.closed a k q j q' ha hk hak hj)
    · rw [hnew] at hk
      rcases Nat.lt_succ_iff_lt_or_eq.1 hylen with hylt | rfl
      · exact hylt
      · obtain ⟨q', hq', hd'⟩ := hup a halen hd
        rw [hk] at hq'
        cases hq'
        have := hd'.le hb.parents
        have := hb.parents a q ha
        omega

/-- Placing a scalar keeps the placements well formed: an inline value hangs off the line's
first node, the most recent node of the table; any other scalar truncates the table at its level
and hangs off what is left one level up. -/
theorem Wf.addScalar {b : Builder} (hb : b.Wf) {line : Line} {index : Nat} {c : Cursor}
    (hc : Cursor.Wf line c b.table) : (b.addScalar line index c).Wf := by
  rcases addScalar_cases b line index c with ⟨owner, hs, hl, howner, heq⟩ | heq
  · rw [heq]
    refine hb.append rfl (fun i t ht => .inr ⟨i, ht⟩) hb.table_sorted ?_
    intro q hq
    cases hq
    refine ⟨⟨c.level, howner⟩, fun i t ht _ => ?_⟩
    rcases Nat.lt_trichotomy i c.level with hi | rfl | hi
    · exact Nat.le_of_lt (hb.table_sorted i c.level t owner hi ht howner)
    · rw [howner] at ht
      cases ht
      exact Nat.le_refl _
    · rw [hc.2 hs hl i hi] at ht
      cases ht
  · rw [heq]
    refine hb.append rfl ?_ ?_ ?_
    · intro i t ht
      rw [nodeAt_settle] at ht
      split at ht
      · exact .inr ⟨i, ht⟩
      · split at ht
        · cases ht
          exact .inl rfl
        · cases ht
    · intro i j s t hij hs ht
      rw [nodeAt_settle] at hs ht
      split at ht
      · rw [if_pos (by omega)] at hs
        exact hb.table_sorted i j s t hij hs ht
      · split at ht
        · cases ht
          rw [if_pos (by omega)] at hs
          exact hb.table_lt i s hs
        · cases ht
    · intro q hq
      split at hq
      · cases hq
      · rename_i hl0
        rw [nodeAt_settle, if_pos (by omega)] at hq
        refine ⟨⟨c.level - 1, hq⟩, fun i t ht htn => ?_⟩
        rw [nodeAt_settle] at ht
        split at ht
        · rcases Nat.lt_or_ge i (c.level - 1) with hi | hi
          · exact Nat.le_of_lt (hb.table_sorted i (c.level - 1) t q hi ht hq)
          · have : i = c.level - 1 := by omega
            subst this
            rw [hq] at ht
            cases ht
            exact Nat.le_refl _
        · split at ht
          · cases ht
            exact absurd rfl htn
          · cases ht

end Builder

/-- The tags of one token keep the placements well formed, and the cursor they leave, if the line
goes on, well formed for the line. -/
theorem placeTags_wf (line : Line) (index : Nat) :
    ∀ (tags : List Tag) (c : Cursor) (b : Builder), b.Wf → Cursor.Wf line c b.table →
      (placeTags line index c b tags).2.Wf ∧
        ∀ c', (placeTags line index c b tags).1 = some c' →
          Cursor.Wf line c' (placeTags line index c b tags).2.table
  | [], c, b, hb, hc => ⟨hb, fun c' h => by cases h; exact hc⟩
  | .comment :: _, _, _, hb, _ => ⟨hb, fun _ h => by cases h⟩
  | .scalar :: ts, c, b, hb, hc =>
    placeTags_wf line index ts _ _ (hb.addScalar hc) (Builder.cursor_wf_addScalar hc)
  | .mapping :: ts, c, b, hb, hc => by
    apply placeTags_wf line index ts _ b hb
    split
    · have := hc.1
      exact ⟨by simp only; omega, fun _ hl => by simp only at hl; omega⟩
    · exact ⟨hc.1, fun hs hl => hc.2 hs hl⟩
  | .sequence :: ts, c, b, hb, hc => by
    apply placeTags_wf line index ts _ b hb
    split
    · have := hc.1
      exact ⟨by simp only; omega, fun _ hl => by simp only at hl; omega⟩
    · exact hc

theorem placeTokens_wf (line : Line) :
    ∀ (index : Nat) (c : Cursor) (b : Builder) (ts : List Token), b.Wf →
      Cursor.Wf line c b.table → (placeTokens line index c b ts).Wf
  | _, _, b, [], hb, _ => hb
  | index, c, b, t :: ts, hb, hc => by
    obtain ⟨hwf, hcur⟩ := placeTags_wf line index t.tags c b hb hc
    unfold placeTokens
    split
    · rename_i c' b' heq
      rw [heq] at hwf hcur
      exact placeTokens_wf line (index + 1) c' b' ts hwf (hcur c' rfl)
    · rename_i b' heq
      rw [heq] at hwf
      exact hwf

/-- The placements of a document satisfy the builder's invariant; in particular sibling subtrees
are apart. -/
theorem placements_wf (lines : List Line) : (lines.foldl placeLine {}).Wf := by
  suffices h : ∀ b : Builder, b.Wf → (lines.foldl placeLine b).Wf from h {} Builder.wf_empty
  induction lines with
  | nil => exact fun b hb => hb
  | cons line lines ih =>
    intro b hb
    exact ih _ (placeTokens_wf line 0 _ b line.tokens hb (Cursor.wf_start line b.table))

/-- Where an entry's token sits: its line and its index on the line. -/
def position (p : Entry × Option Nat) : Nat × Nat :=
  (p.1.startLine, p.1.tokenIndex)

/-- An entry placed for the token at `index` of a line. -/
def PlacedAt (line : Line) (index : Nat) (p : Entry × Option Nat) : Prop :=
  ∃ c, p.1 = entryAt line index p.1.id c

theorem Builder.addScalar_placed (b : Builder) (line : Line) (index : Nat) (c : Cursor) :
    ∃ par, (b.addScalar line index c).placed = b.placed ++ [(entryAt line index b.nextId c, par)] := by
  rcases Builder.addScalar_cases b line index c with ⟨owner, -, -, -, heq⟩ | heq
  · exact ⟨some owner, by rw [heq]⟩
  · exact ⟨_, by rw [heq]⟩

/-- The tags of one token append one entry for each scalar tag met before a comment. -/
theorem placeTags_placed (line : Line) (index : Nat) :
    ∀ (tags : List Tag) (c : Cursor) (b : Builder), ∃ more,
      (placeTags line index c b tags).2.placed = b.placed ++ more ∧
        (∀ p ∈ more, PlacedAt line index p) ∧ more.length ≤ tags.count .scalar
  | [], _, b => ⟨[], by simp [placeTags]⟩
  | .comment :: _, _, b => ⟨[], by simp [placeTags]⟩
  | .scalar :: ts, c, b => by
    obtain ⟨par, hpar⟩ := b.addScalar_placed line index c
    obtain ⟨more, hm, hp, hl⟩ := placeTags_placed line index ts { c with seenScalar := true }
      (b.addScalar line index c)
    refine ⟨(entryAt line index b.nextId c, par) :: more, ?_, ?_, ?_⟩
    · simp [placeTags, hm, hpar]
    · intro p hp'
      rcases List.mem_cons.1 hp' with rfl | hp'
      · exact ⟨c, rfl⟩
      · exact hp p hp'
    · simp only [List.length_cons, List.count_cons_self]
      omega
  | .mapping :: ts, c, b => by
    obtain ⟨more, hm, hp, hl⟩ := placeTags_placed line index ts _ b
    exact ⟨more, hm, hp, by simp [hl]⟩
  | .sequence :: ts, c, b => by
    obtain ⟨more, hm, hp, hl⟩ := placeTags_placed line index ts _ b
    exact ⟨more, hm, hp, by simp [hl]⟩

theorem position_of_placedAt {line : Line} {index : Nat} {p : Entry × Option Nat}
    (h : PlacedAt line index p) : position p = (line.number, index) := by
  obtain ⟨c, hc⟩ := h
  rw [position, hc]
  rfl

/-- The positions of the entries one token adds: its own position, at most once. -/
theorem positions_sublist_of_token {line : Line} {index : Nat} {more : List (Entry × Option Nat)}
    (hp : ∀ p ∈ more, PlacedAt line index p) (hl : more.length ≤ 1) :
    (more.map position).Sublist [(line.number, index)] := by
  match more, hl with
  | [], _ => exact List.nil_sublist _
  | [p], _ => simp [position_of_placedAt (hp p (by simp))]

theorem count_scalar_le_one {tags : List Tag} (h : Lexer.ScalarAlone tags) :
    tags.count .scalar ≤ 1 := by
  rcases h with rfl | h
  · simp
  · simp [List.count_eq_zero_of_not_mem h]

/-- The tokens of a line, from `index` on, append entries placed at their tokens, in token order
and at most one per token. -/
theorem placeTokens_placed (line : Line) :
    ∀ (index : Nat) (c : Cursor) (b : Builder) (ts : List Token),
      (∀ t ∈ ts, Lexer.ScalarAlone t.tags) → ∃ more,
        (placeTokens line index c b ts).placed = b.placed ++ more ∧
          (∀ p ∈ more, ∃ i, PlacedAt line i p) ∧
          (more.map position).Sublist ((List.range' index ts.length).map (line.number, ·))
  | _, _, b, [], _ => ⟨[], by simp [placeTokens]⟩
  | index, c, b, t :: ts, hts => by
    obtain ⟨more, hm, hp, hl⟩ := placeTags_placed line index t.tags c b
    have hone := positions_sublist_of_token hp
      (Nat.le_trans hl (count_scalar_le_one (hts t (by simp))))
    unfold placeTokens
    split
    · rename_i c' b' heq
      rw [heq] at hm
      obtain ⟨rest, hr, hrp, hrs⟩ := placeTokens_placed line (index + 1) c' b' ts
        (fun t' ht' => hts t' (List.mem_cons_of_mem t ht'))
      refine ⟨more ++ rest, by rw [hr, hm, List.append_assoc], ?_, ?_⟩
      · intro p hp'
        rcases List.mem_append.1 hp' with hp' | hp'
        · exact ⟨index, hp p hp'⟩
        · exact hrp p hp'
      · rw [List.map_append, List.length_cons, List.range'_succ, List.map_cons]
        exact hone.append hrs
    · rename_i b' heq
      rw [heq] at hm
      refine ⟨more, hm, fun p hp' => ⟨index, hp p hp'⟩, ?_⟩
      rw [List.length_cons, List.range'_succ, List.map_cons]
      exact hone.trans (List.singleton_sublist.2 (by simp))

/-- Every position of a document's lines, line by line. -/
def tokenPositions (lines : List Line) : List (Nat × Nat) :=
  lines.flatMap fun l => (List.range' 0 l.tokens.length).map (l.number, ·)

/-- The entries placed for lines are entries of their scalar tokens, in document order, at most
one per token. -/
theorem foldl_placeLine_placed (lines : List Line)
    (hlines : ∀ l ∈ lines, ∀ t ∈ l.tokens, Lexer.ScalarAlone t.tags) (b : Builder) : ∃ more,
      (lines.foldl placeLine b).placed = b.placed ++ more ∧
        (∀ p ∈ more, ∃ l ∈ lines, ∃ i, PlacedAt l i p) ∧
        (more.map position).Sublist (tokenPositions lines) := by
  induction lines generalizing b with
  | nil => exact ⟨[], by simp [tokenPositions]⟩
  | cons l ls ih =>
    obtain ⟨more, hm, hp, hs⟩ := placeTokens_placed l 0 { level := l.level } b l.tokens
      (hlines l (by simp))
    obtain ⟨rest, hr, hrp, hrs⟩ := ih (fun l' hl' => hlines l' (List.mem_cons_of_mem l hl'))
      (placeLine b l)
    refine ⟨more ++ rest, ?_, ?_, ?_⟩
    · rw [List.foldl_cons, hr, placeLine, hm, List.append_assoc]
    · intro p hp'
      rcases List.mem_append.1 hp' with hp' | hp'
      · obtain ⟨i, hi⟩ := hp p hp'
        exact ⟨l, by simp, i, hi⟩
      · obtain ⟨l', hl', i, hi⟩ := hrp p hp'
        exact ⟨l', List.mem_cons_of_mem l hl', i, hi⟩
    · rw [List.map_append, tokenPositions, List.flatMap_cons]
      exact hs.append hrs

end YamlEdit.Forest
