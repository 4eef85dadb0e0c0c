import Mathlib.Data.List.TakeWhile
import YamlEdit.Line.Scan
import YamlEdit.Proofs.Forest

/-!
# The parent rule

The level table of the placement realises a rule that can be stated without it. Number the
scalars of a document in order, up to each line's first comment, and give each its *effective
level*: the line's level, raised by one for every mapping or sequence tag met on the line before
it after the line's first mapping tag. A scalar is *nested* when an earlier scalar stands on its
line and it stands at the line's own level. Then a nested scalar hangs off the first scalar of
its line; any other scalar at level `L` is a root when `L = 0`, and otherwise hangs off the most
recent earlier scalar that is not nested and stands below `L`, provided that one stands at
`L - 1`, and is a root if it does not.

The rule is `ruleParent`, over the list of `slots` of a document. The table, read at level `i`,
holds the most recent scalar that is not nested and stands at or below `i`, when it stands at
`i` (`lastBelow`); placing a scalar keeps this and gives it the rule's parent (`Agrees`). Within
a line the cursor keeps the level, flags and owner the rule reads off the tags met so far
(`LineInv`). The forest then has each node's children exactly the scalars the rule hangs off it,
and its roots exactly those the rule leaves without a parent.
-/

namespace YamlEdit.Forest

open Node

/-! ## The rule -/

/-- A scalar of a document as the parent rule sees it: its line, its token, its line's level and
its effective level. -/
structure Slot where
  row : Nat
  token : Nat
  base : Nat
  level : Nat
deriving DecidableEq, Repr

/-- The tags of a line that the rule reads, each with the index of its token: the tags of the
tokens in order, up to the line's first comment. -/
def tagStream (line : Line) : List (Nat × Tag) :=
  (line.tokens.zipIdx.flatMap fun p => p.1.tags.map fun t => (p.2, t)).takeWhile
    fun x => x.2 != .comment

/-- How far the tags met before a scalar raise it above its line's level: one for each mapping
or sequence tag after the line's first mapping tag. -/
def raises (pre : List Tag) : Nat :=
  ((pre.dropWhile (· != .mapping)).drop 1).countP fun t => t == .mapping || t == .sequence

/-- The slot of the tag at position `q.2` of the stream `st` of line `row`, if it is a
scalar. -/
def slotAt (row base : Nat) (st : List (Nat × Tag)) (q : (Nat × Tag) × Nat) : Option Slot :=
  if q.1.2 = .scalar then some ⟨row, q.1.1, base, base + raises ((st.take q.2).map Prod.snd)⟩
  else none

/-- The slots of a stream of tags of line `row`, of level `base`. -/
def slotsOf (row base : Nat) (st : List (Nat × Tag)) : List Slot :=
  st.zipIdx.filterMap (slotAt row base st)

/-- The slots of a document's lines, line by line. -/
def slots (lines : List Line) : List Slot :=
  lines.zipIdx.flatMap fun p => slotsOf p.2 p.1.level (tagStream p.1)

/-- Slot `k` is nested: an earlier slot stands on its line, and it stands at its line's
level. -/
def nested (S : List Slot) (k : Nat) : Bool :=
  match S[k]? with
  | some s => (S.take k).any (·.row == s.row) && s.level == s.base
  | none => false

/-- The most recent slot before `k` that is not nested and stands below level `L`. -/
def recentBelow (S : List Slot) : Nat → Nat → Option Nat
  | 0, _ => none
  | k + 1, L =>
    match S[k]? with
    | some s => if !nested S k && s.level < L then some k else recentBelow S k L
    | none => recentBelow S k L

/-- The slot the rule hangs slot `k` off, `none` for a root: the first slot of its line if it is
nested; otherwise none at level 0, and else the most recent earlier slot that is not nested and
stands below it, if that one stands exactly one level below it. -/
def ruleParent (S : List Slot) (k : Nat) : Option Nat :=
  match S[k]? with
  | none => none
  | some s =>
    if nested S k then S.findIdx? fun t => t.row == s.row
    else if s.level = 0 then none
    else match recentBelow S k s.level with
      | some j => if S[j]?.map Slot.level = some (s.level - 1) then some j else none
      | none => none

/-- What the level table holds at level `i` after the first `n` slots: the most recent slot that
is not nested and stands at or below `i`, when it stands at `i`. -/
def lastBelow (S : List Slot) (n i : Nat) : Option Nat :=
  match recentBelow S n (i + 1) with
  | some j => if S[j]?.map Slot.level = some i then some j else none
  | none => none

section Rule

variable {S : List Slot} {n : Nat} {s : Slot}

theorem recentBelow_succ (hs : S[n]? = some s) (L : Nat) :
    recentBelow S (n + 1) L = if !nested S n && s.level < L then some n else recentBelow S n L := by
  rw [recentBelow, hs]

/-- A nested slot leaves the table as it is. -/
theorem lastBelow_succ_of_nested (hs : S[n]? = some s) (hn : nested S n = true) (i : Nat) :
    lastBelow S (n + 1) i = lastBelow S n i := by
  unfold lastBelow
  rw [recentBelow_succ hs, hn]
  rfl

/-- Any other slot settles at its level: the levels below keep their slots, its level holds it
and nothing is left above. -/
theorem lastBelow_succ (hs : S[n]? = some s) (hn : nested S n = false) (i : Nat) :
    lastBelow S (n + 1) i =
      if i < s.level then lastBelow S n i else if i = s.level then some n else none := by
  unfold lastBelow
  rw [recentBelow_succ hs, hn]
  by_cases hi : i < s.level
  · rw [if_neg (by simp; omega), if_pos hi]
  · rw [if_pos (by simp; omega), if_neg hi]
    by_cases he : i = s.level
    · simp [hs, he]
    · simp [hs, if_neg he, Ne.symm he]

theorem ruleParent_of_nested (hs : S[n]? = some s) (hn : nested S n = true) :
    ruleParent S n = S.findIdx? fun t => t.row == s.row := by
  rw [ruleParent, hs]
  simp only [hn, if_true]

theorem ruleParent_of_not_nested (hs : S[n]? = some s) (hn : nested S n = false) :
    ruleParent S n = if s.level = 0 then none else lastBelow S n (s.level - 1) := by
  rw [ruleParent, hs]
  simp only [hn, Bool.false_eq_true, if_false]
  by_cases h0 : s.level = 0
  · rw [if_pos h0, if_pos h0]
  · rw [if_neg h0, if_neg h0, lastBelow, Nat.sub_add_cancel (by omega)]

end Rule

/-! ## Slots along a line -/

section Stream

theorem raises_cons_mapping (pre : List Tag) :
    raises (.mapping :: pre) = pre.countP fun t => t == .mapping || t == .sequence := by
  simp [raises]

theorem raises_cons_of_ne {t : Tag} (ht : t ≠ .mapping) (pre : List Tag) :
    raises (t :: pre) = raises pre := by
  simp [raises, ht]

/-- A tag raises the scalars after it when it is a mapping or sequence tag and a mapping tag came
before it. -/
theorem raises_snoc (pre : List Tag) (t : Tag) :
    raises (pre ++ [t]) =
      raises pre + if .mapping ∈ pre ∧ (t = .mapping ∨ t = .sequence) then 1 else 0 := by
  induction pre with
  | nil => cases t <;> simp [raises]
  | cons a pre ih =>
    by_cases ha : a = .mapping
    · subst ha
      rw [List.cons_append, raises_cons_mapping, raises_cons_mapping, List.countP_append]
      cases t <;> simp
    · have hmem : Tag.mapping ∈ a :: pre ↔ Tag.mapping ∈ pre := by
        rw [List.mem_cons, or_iff_right (Ne.symm ha)]
      rw [List.cons_append, raises_cons_of_ne ha, raises_cons_of_ne ha, ih]
      simp only [hmem]

theorem raises_le_snoc (pre : List Tag) (t : Tag) : raises pre ≤ raises (pre ++ [t]) := by
  rw [raises_snoc]
  omega

variable {row base : Nat}

/-- The slots of a longer stream extend those of a shorter one; each new scalar counts the
raises of the whole stream before it. -/
theorem slotsOf_append (pre rest : List (Nat × Tag)) :
    slotsOf row base (pre ++ rest) =
      slotsOf row base pre ++
        (rest.zipIdx pre.length).filterMap (slotAt row base (pre ++ rest)) := by
  unfold slotsOf
  rw [List.zipIdx_append, List.filterMap_append, Nat.zero_add]
  congr 1
  apply List.filterMap_congr
  rintro ⟨x, i⟩ hq
  have hi : i ≤ pre.length := Nat.le_of_lt (List.mem_zipIdx' hq).1
  simp only [slotAt, List.take_append_of_le_length hi]

theorem slotsOf_prefix (row base : Nat) (pre rest : List (Nat × Tag)) :
    ∃ M, slotsOf row base (pre ++ rest) = slotsOf row base pre ++ M :=
  ⟨_, slotsOf_append pre rest⟩

theorem slotsOf_snoc (pre : List (Nat × Tag)) (x : Nat × Tag) :
    slotsOf row base (pre ++ [x]) = slotsOf row base pre ++
      if x.2 = .scalar then [⟨row, x.1, base, base + raises (pre.map Prod.snd)⟩] else [] := by
  rw [slotsOf_append, List.zipIdx_singleton]
  by_cases hx : x.2 = .scalar <;> simp [slotAt, hx]

theorem row_of_mem_slotsOf {st : List (Nat × Tag)} {s : Slot} (hs : s ∈ slotsOf row base st) :
    s.row = row ∧ s.base = base := by
  obtain ⟨q, -, hq⟩ := List.mem_filterMap.1 hs
  unfold slotAt at hq
  split at hq
  · cases hq
    exact ⟨rfl, rfl⟩
  · cases hq

theorem slotsOf_eq_nil_iff (st : List (Nat × Tag)) :
    slotsOf row base st = [] ↔ .scalar ∉ st.map Prod.snd := by
  rw [slotsOf, List.filterMap_eq_nil_iff]
  constructor
  · intro h hmem
    obtain ⟨x, hx, hxs⟩ := List.mem_map.1 hmem
    obtain ⟨i, hi⟩ := List.mem_iff_getElem?.1 hx
    have := h (x, i) (List.mem_zipIdx_iff_getElem?.2 hi)
    simp [slotAt, hxs] at this
  · rintro h ⟨x, i⟩ hq
    have hx : x ∈ st := List.mem_of_getElem? (List.mem_zipIdx_iff_getElem?.1 hq)
    have hxs : x.2 ≠ .scalar := fun hxs => h (List.mem_map.2 ⟨x, hx, hxs⟩)
    simp [slotAt, hxs]

end Stream

/-! ## The table realises the rule -/

section Table

variable {S : List Slot}

/-- In `A ++ P ++ s :: R`, with the slots of `A` on earlier lines and those of `P` on the line of
`s`, slot `s` is nested exactly when `P` is not empty and `s` stands at its line's level. -/
theorem nested_split {A P R : List Slot} {s : Slot} (hS : S = A ++ P ++ s :: R)
    (hA : ∀ t ∈ A, t.row < s.row) (hP : ∀ t ∈ P, t.row = s.row) :
    nested S (A.length + P.length) = (!P.isEmpty && s.level == s.base) := by
  have hs : S[A.length + P.length]? = some s := by
    rw [hS, List.append_assoc, List.getElem?_append_right (by omega),
      List.getElem?_append_right (by omega)]
    simp
  have htake : S.take (A.length + P.length) = A ++ P := by
    rw [hS, List.append_assoc, List.take_append, List.take_of_length_le (by omega),
      Nat.add_sub_cancel_left, List.take_append_of_le_length (Nat.le_refl _), List.take_length]
  have hAny : A.any (·.row == s.row) = false := by
    rw [List.any_eq_false]
    intro t ht
    have := hA t ht
    simp only [beq_iff_eq]
    omega
  have hPny : P.any (·.row == s.row) = !P.isEmpty := by
    cases P with
    | nil => rfl
    | cons t P => simp [hP t (List.mem_cons_self ..)]
  unfold nested
  rw [hs, htake]
  simp only [List.any_append, hAny, hPny, Bool.false_or]

/-- The first slot on the line of `s` in `A ++ P ++ s :: R`, as above, is the first after `A`. -/
theorem findIdx?_row {A P R : List Slot} {s : Slot} (hS : S = A ++ P ++ s :: R)
    (hA : ∀ t ∈ A, t.row < s.row) (hP : ∀ t ∈ P, t.row = s.row) :
    S.findIdx? (fun t => t.row == s.row) = some A.length := by
  have hnone : A.findIdx? (fun t => t.row == s.row) = none := by
    rw [List.findIdx?_eq_none_iff]
    intro t ht
    have := hA t ht
    simp only [beq_eq_false_iff_ne]
    omega
  have hfirst : (P ++ s :: R).findIdx? (fun t => t.row == s.row) = some 0 := by
    cases P with
    | nil => simp [List.findIdx?_cons]
    | cons t P => simp [List.findIdx?_cons, hP t (List.mem_cons_self ..)]
  rw [hS, List.append_assoc, List.findIdx?_append, hnone, hfirst]
  simp

/-- The builder agrees with the rule on the slots placed so far: every entry has the rule's
parent and stands on its slot's token and line, and the table holds `lastBelow`. -/
structure Agrees (lines : List Line) (S : List Slot) (b : Builder) : Prop where
  parents : ∀ k < b.placed.length, parentIn b.placed k = ruleParent S k
  table : ∀ i, nodeAt b.table i = lastBelow S b.placed.length i
  positions : ∀ (k : Nat) (p : Entry × Option Nat), b.placed[k]? = some p →
    ∃ s : Slot, S[k]? = some s ∧
      p.1.tokenIndex = s.token ∧ lines[s.row]?.map Line.number = some p.1.startLine

theorem agrees_empty (lines : List Line) (S : List Slot) : Agrees lines S {} where
  parents := by simp
  table := by simp [nodeAt, lastBelow, recentBelow]
  positions := by simp

/-- Placing the next slot with the cursor at its level keeps the agreement, provided the cursor's
test for an inline value is the rule's test for a nested slot, and for a nested slot the table
holds the rule's parent at the cursor's level. -/
theorem Agrees.addScalar {lines : List Line} {b : Builder} (h : Agrees lines S b) {line : Line}
    {index : Nat} {c : Cursor} {s : Slot} (hs : S[b.placed.length]? = some s)
    (hline : lines[s.row]? = some line) (htoken : s.token = index) (hlevel : c.level = s.level)
    (hnested : (c.seenScalar && c.level == line.level) = nested S b.placed.length)
    (hown : nested S b.placed.length = true →
      ∃ f, nodeAt b.table c.level = some f ∧ ruleParent S b.placed.length = some f) :
    Agrees lines S (b.addScalar line index c) := by
  have hpos : ∀ par (k : Nat) (p : Entry × Option Nat),
      (b.placed ++ [(entryAt line index b.nextId c, par)])[k]? = some p →
      ∃ s : Slot, S[k]? = some s ∧ p.1.tokenIndex = s.token ∧
        lines[s.row]?.map Line.number = some p.1.startLine := by
    intro par k p hk
    rcases Nat.lt_or_ge k b.placed.length with hlt | hge
    · rw [List.getElem?_append_left hlt] at hk
      exact h.positions k p hk
    · rw [List.getElem?_append_right hge, List.getElem?_singleton] at hk
      split at hk
      · cases hk
        have hk : k = b.placed.length := by omega
        subst hk
        exact ⟨s, hs, htoken.symm, by simp [hline, entryAt]⟩
      · cases hk
  have hold : ∀ par, ∀ k < b.placed.length,
      parentIn (b.placed ++ [(entryAt line index b.nextId c, par)]) k = ruleParent S k :=
    fun par k hk => by rw [parentIn_append_of_lt _ hk, h.parents k hk]
  cases hN : nested S b.placed.length with
  | true =>
    obtain ⟨f, hf, hrule⟩ := hown hN
    have heq : b.addScalar line index c =
        { b with placed := b.placed ++ [(entryAt line index b.nextId c, some f)] } := by
      simp only [Builder.addScalar, hnested, hN, if_true, hf]
    rw [heq]
    refine ⟨fun k hk => ?_, fun i => ?_, hpos _⟩
    · rcases Nat.lt_succ_iff_lt_or_eq.1 (by simpa using hk) with hk | rfl
      · exact hold _ k hk
      · rw [parentIn_append_length, hrule]
    · simp only [List.length_append, List.length_singleton]
      rw [lastBelow_succ_of_nested hs hN, h.table i]
  | false =>
    have heq : b.addScalar line index c =
        { placed := b.placed ++ [(entryAt line index b.nextId c,
            if c.level = 0 then none else nodeAt (settle b.table c.level b.nextId) (c.level - 1))]
          table := settle b.table c.level b.nextId } := by
      simp only [Builder.addScalar, hnested, hN, Bool.false_eq_true, if_false]
      rfl
    have htab : ∀ i, nodeAt (settle b.table c.level b.nextId) i =
        lastBelow S (b.placed.length + 1) i := by
      intro i
      rw [nodeAt_settle, lastBelow_succ hs hN, hlevel, h.table i]
      rfl
    rw [heq]
    refine ⟨fun k hk => ?_, fun i => by simpa using htab i, hpos _⟩
    rcases Nat.lt_succ_iff_lt_or_eq.1 (by simpa using hk) with hk | rfl
    · exact hold _ k hk
    · rw [parentIn_append_length, ruleParent_of_not_nested hs hN]
      by_cases h0 : s.level = 0
      · rw [if_pos (by omega), if_pos h0]
      · rw [if_neg (by omega), if_neg h0, htab, lastBelow_succ hs hN, if_pos (by omega), hlevel]

end Table

/-! ## The placement of a line as a fold over its stream -/

section Fold

/-- One tag of a line's stream, as the placement reads it: a scalar is placed at the cursor; a
mapping tag raises the cursor once a mapping tag came before it, and else marks that one came; a
sequence tag raises the cursor once a mapping tag came. -/
def tagStep (line : Line) (cb : Cursor × Builder) (x : Nat × Tag) : Cursor × Builder :=
  match x.2 with
  | .scalar => ({ cb.1 with seenScalar := true }, cb.2.addScalar line x.1 cb.1)
  | .mapping =>
    (if cb.1.seenMapping then { cb.1 with level := cb.1.level + 1, flow := .mapping }
      else { cb.1 with seenMapping := true }, cb.2)
  | .sequence =>
    (if cb.1.seenMapping then { cb.1 with level := cb.1.level + 1, flow := .sequence } else cb.1,
      cb.2)
  | .comment => cb

/-- The tags of one token are the fold of `tagStep` up to the first comment; a comment ends the
line. -/
theorem placeTags_eq (line : Line) (index : Nat) :
    ∀ (tags : List Tag) (c : Cursor) (b : Builder),
      placeTags line index c b tags =
        (if .comment ∈ tags then none
          else some (((tags.map fun t => (index, t)).foldl (tagStep line) (c, b)).1),
         (((tags.map fun t => (index, t)).takeWhile fun x => x.2 != .comment).foldl
            (tagStep line) (c, b)).2)
  | [], c, b => by simp [placeTags]
  | .comment :: ts, c, b => by simp [placeTags]
  | .scalar :: ts, c, b => by
    rw [placeTags, placeTags_eq line index ts]
    simp [tagStep]
  | .mapping :: ts, c, b => by
    rw [placeTags, placeTags_eq line index ts]
    simp [tagStep]
  | .sequence :: ts, c, b => by
    rw [placeTags, placeTags_eq line index ts]
    simp [tagStep]

theorem placeTokens_eq (line : Line) :
    ∀ (index : Nat) (c : Cursor) (b : Builder) (ts : List Token),
      placeTokens line index c b ts =
        ((((ts.zipIdx index).flatMap fun p => p.1.tags.map fun t => (p.2, t)).takeWhile
          fun x => x.2 != .comment).foldl (tagStep line) (c, b)).2
  | _, _, b, [] => by simp [placeTokens]
  | index, c, b, t :: ts => by
    rw [List.zipIdx_cons, List.flatMap_cons, placeTokens, placeTags_eq]
    by_cases hc : Tag.comment ∈ t.tags
    · have hcut : ¬((t.tags.map fun u => (index, u)).takeWhile fun x => x.2 != .comment).length =
          (t.tags.map fun u => (index, u)).length := by
        intro hlen
        have hall := List.all_takeWhile (l := t.tags.map fun u => (index, u))
          (p := fun x => x.2 != .comment)
        rw [(List.takeWhile_prefix _).eq_of_length hlen, List.all_eq_true] at hall
        simpa using hall (index, .comment) (List.mem_map.2 ⟨_, hc, rfl⟩)
      rw [if_pos hc, List.takeWhile_append, if_neg hcut]
    · have hall : ∀ x ∈ t.tags.map (fun u => (index, u)), (x.2 != .comment) = true := by
        intro x hx
        obtain ⟨u, hu, rfl⟩ := List.mem_map.1 hx
        have hu' : u ≠ .comment := fun h => hc (h ▸ hu)
        simpa using hu'
      rw [if_neg hc, List.takeWhile_append_of_pos hall, List.foldl_append,
        List.takeWhile_eq_self_iff.2 hall]
      exact placeTokens_eq line (index + 1) _ _ ts

theorem placeLine_eq (b : Builder) (line : Line) :
    placeLine b line = ((tagStream line).foldl (tagStep line) ({ level := line.level }, b)).2 := by
  rw [placeLine, placeTokens_eq]
  rfl

end Fold

/-! ## Along a line -/

section Line

variable {lines : List Line} {S A B : List Slot} {line : Line} {row : Nat}

/-- Where the placement of a line stands after the tags `pre` of its stream, the slots of earlier
lines being `A`: the cursor stands at the level the tags raise it to and knows what they held;
the builder has placed their scalars in agreement with the rule; and once a scalar held the
line's own level, the table holds the line's first scalar there. -/
structure LineInv (lines : List Line) (S A : List Slot) (line : Line) (row : Nat)
    (pre : List (Nat × Tag)) (cb : Cursor × Builder) : Prop where
  level : cb.1.level = line.level + raises (pre.map Prod.snd)
  seenMapping : cb.1.seenMapping = decide (.mapping ∈ pre.map Prod.snd)
  seenScalar : cb.1.seenScalar = decide (.scalar ∈ pre.map Prod.snd)
  placed : cb.2.placed.length = A.length + (slotsOf row line.level pre).length
  agrees : Agrees lines S cb.2
  owner : .scalar ∈ pre.map Prod.snd → raises (pre.map Prod.snd) = 0 →
    lastBelow S cb.2.placed.length line.level = some A.length

theorem lineInv_start {b : Builder} (hb : Agrees lines S b) (hlen : b.placed.length = A.length) :
    LineInv lines S A line row [] ({ level := line.level }, b) :=
  ⟨by simp [raises], by simp, by simp, by simp [hlen, slotsOf], hb, by simp⟩

/-- A tag that is not a scalar places nothing; the invariant follows the cursor. -/
theorem LineInv.step_punct {pre : List (Nat × Tag)} {cb : Cursor × Builder} {x : Nat × Tag}
    (h : LineInv lines S A line row pre cb) (hx : x.2 ≠ .scalar)
    (hb : (tagStep line cb x).2 = cb.2)
    (hlevel : (tagStep line cb x).1.level =
      line.level + raises ((pre ++ [x]).map Prod.snd))
    (hmapping : (tagStep line cb x).1.seenMapping = decide (.mapping ∈ (pre ++ [x]).map Prod.snd))
    (hscalar : (tagStep line cb x).1.seenScalar = cb.1.seenScalar) :
    LineInv lines S A line row (pre ++ [x]) (tagStep line cb x) := by
  have hsl : slotsOf row line.level (pre ++ [x]) = slotsOf row line.level pre := by
    simp [slotsOf_snoc, hx]
  have hmem : Tag.scalar ∈ (pre ++ [x]).map Prod.snd ↔ Tag.scalar ∈ pre.map Prod.snd := by
    simp [Ne.symm hx]
  have hraises : raises (pre.map Prod.snd) ≤ raises ((pre ++ [x]).map Prod.snd) := by
    rw [List.map_append, List.map_singleton]
    exact raises_le_snoc _ _
  refine ⟨hlevel, hmapping, ?_, ?_, ?_, ?_⟩
  · rw [hscalar, h.seenScalar, decide_eq_decide]
    exact hmem.symm
  · rw [hb, hsl]
    exact h.placed
  · rw [hb]
    exact h.agrees
  · intro hs hr
    rw [hb]
    exact h.owner (hmem.1 hs) (by omega)

/-- A mapping or sequence tag raises the cursor when a mapping tag came before it; a first
mapping tag only marks that one came. -/
theorem LineInv.step_raise {pre : List (Nat × Tag)} {cb : Cursor × Builder}
    (h : LineInv lines S A line row pre cb) (index : Nat) {t : Tag}
    (ht : t = .mapping ∨ t = .sequence) :
    LineInv lines S A line row (pre ++ [(index, t)]) (tagStep line cb (index, t)) := by
  obtain ⟨c, b⟩ := cb
  have hm : c.seenMapping = decide (Tag.mapping ∈ pre.map Prod.snd) := h.seenMapping
  have hl : c.level = line.level + raises (pre.map Prod.snd) := h.level
  rcases ht with rfl | rfl
  all_goals
    refine h.step_punct (by simp) rfl ?_ ?_ ?_
    · rw [List.map_append, List.map_singleton, raises_snoc]
      by_cases hmp : Tag.mapping ∈ pre.map Prod.snd
      · simp [tagStep, hm, hmp, hl]
        omega
      · simp [tagStep, hm, hmp, hl]
    · by_cases hmp : Tag.mapping ∈ pre.map Prod.snd <;> simp [tagStep, hm, hmp]
    · by_cases hmp : Tag.mapping ∈ pre.map Prod.snd <;> simp [tagStep, hm, hmp]

section Step

variable {pre rest : List (Nat × Tag)} {cb : Cursor × Builder} {index : Nat}
  (hS : S = A ++ slotsOf row line.level (pre ++ (index, .scalar) :: rest) ++ B)
  (hA : ∀ t ∈ A, t.row < row) (hline : lines[row]? = some line)
include hS hA hline

/-- A scalar is placed as the rule says: the cursor's test for an inline value is the rule's
test for a nested slot, and an inline value's owner, the table's node at the line's level, is
the line's first slot. -/
theorem LineInv.step_scalar (h : LineInv lines S A line row pre cb) :
    LineInv lines S A line row (pre ++ [(index, .scalar)]) (tagStep line cb (index, .scalar)) := by
  obtain ⟨c, b⟩ := cb
  let s : Slot := ⟨row, index, line.level, line.level + raises (pre.map Prod.snd)⟩
  have hsl : slotsOf row line.level (pre ++ [(index, .scalar)]) =
      slotsOf row line.level pre ++ [s] := by
    simp [slotsOf_snoc, s]
  obtain ⟨M, hM⟩ := slotsOf_prefix row line.level (pre ++ [(index, .scalar)]) rest
  have hS' : S = A ++ slotsOf row line.level pre ++ s :: (M ++ B) := by
    rw [hS, show pre ++ (index, .scalar) :: rest = (pre ++ [(index, .scalar)]) ++ rest by simp,
      hM, hsl]
    simp
  have hP : ∀ t ∈ slotsOf row line.level pre, t.row = s.row :=
    fun t ht => (row_of_mem_slotsOf ht).1
  have hn : b.placed.length = A.length + (slotsOf row line.level pre).length := h.placed
  have hsS : S[b.placed.length]? = some s := by
    rw [hn, hS', List.append_assoc, List.getElem?_append_right (by omega),
      List.getElem?_append_right (by omega)]
    simp
  -- the slot is nested exactly when a scalar came before it on the line and nothing raised it
  have hnest : nested S b.placed.length =
      (decide (Tag.scalar ∈ pre.map Prod.snd) && decide (raises (pre.map Prod.snd) = 0)) := by
    have hempty :
        (slotsOf row line.level pre).isEmpty = !decide (Tag.scalar ∈ pre.map Prod.snd) := by
      by_cases hsc : Tag.scalar ∈ pre.map Prod.snd
      · have hne : slotsOf row line.level pre ≠ [] := fun he => (slotsOf_eq_nil_iff _).1 he hsc
        simp [hsc, hne]
      · simp [hsc, (slotsOf_eq_nil_iff _).2 hsc]
    rw [hn, nested_split hS' hA hP, hempty, Bool.eq_iff_iff]
    simp [s]
  have hflag : (c.seenScalar && c.level == line.level) = nested S b.placed.length := by
    rw [hnest, h.seenScalar, h.level, Bool.eq_iff_iff]
    simp
  have hown : nested S b.placed.length = true →
      ∃ f, nodeAt b.table c.level = some f ∧ ruleParent S b.placed.length = some f := by
    intro hN
    have hN' := hN
    rw [hnest, Bool.and_eq_true, decide_eq_true_eq, decide_eq_true_eq] at hN'
    refine ⟨A.length, ?_, ?_⟩
    · rw [h.level, hN'.2, Nat.add_zero, h.agrees.table]
      exact h.owner hN'.1 hN'.2
    · rw [ruleParent_of_nested hsS hN]
      exact findIdx?_row hS' hA hP
  have hraises :
      raises ((pre ++ [(index, Tag.scalar)]).map Prod.snd) = raises (pre.map Prod.snd) := by
    simp [raises_snoc]
  obtain ⟨par, hpar⟩ := b.addScalar_placed line index c
  refine ⟨?level, ?seenMapping, ?seenScalar, ?placed, ?agrees, ?owner⟩
  case level =>
    show c.level = _
    rw [hraises]
    exact h.level
  case seenMapping =>
    show c.seenMapping = _
    rw [h.seenMapping]
    simp
  case seenScalar => simp [tagStep]
  case placed =>
    show (b.addScalar line index c).placed.length = _
    rw [hpar, hsl, List.length_append, List.length_append, hn]
    rfl
  case agrees => exact h.agrees.addScalar hsS hline rfl h.level hflag hown
  case owner =>
    intro _ hr
    rw [hraises] at hr
    show lastBelow S (b.addScalar line index c).placed.length line.level = some A.length
    rw [hpar, List.length_append, List.length_singleton]
    cases hN : nested S b.placed.length with
    | true =>
      rw [hnest, Bool.and_eq_true, decide_eq_true_eq] at hN
      rw [lastBelow_succ_of_nested hsS (by rw [hnest]; simpa using hN)]
      exact h.owner hN.1 hr
    | false =>
      have hsc : Tag.scalar ∉ pre.map Prod.snd := by
        rw [hnest] at hN
        simpa [hr] using hN
      have hlen : b.placed.length = A.length := by
        rw [hn, (slotsOf_eq_nil_iff _).2 hsc]
        rfl
      rw [lastBelow_succ hsS hN, if_neg (by simp [s, hr]), if_pos (by simp [s, hr]), hlen]

end Step

/-- The invariant holds after the whole stream of a line. -/
theorem LineInv.run (hA : ∀ t ∈ A, t.row < row) (hline : lines[row]? = some line)
    (hS : S = A ++ slotsOf row line.level (tagStream line) ++ B) :
    ∀ (rest pre : List (Nat × Tag)) (cb : Cursor × Builder), pre ++ rest = tagStream line →
      LineInv lines S A line row pre cb →
      LineInv lines S A line row (tagStream line) (rest.foldl (tagStep line) cb)
  | [], pre, cb, hpre, h => by
    rw [List.append_nil] at hpre
    rw [← hpre]
    exact h
  | x :: rest, pre, cb, hpre, h => by
    have hx : x.2 ≠ .comment := by
      have hmem : x ∈ tagStream line := by
        rw [← hpre]
        simp
      unfold tagStream at hmem
      simpa using List.all_eq_true.1 List.all_takeWhile x hmem
    have hnext : LineInv lines S A line row (pre ++ [x]) (tagStep line cb x) := by
      obtain ⟨index, t⟩ := x
      cases t with
      | scalar => exact h.step_scalar (by rw [hpre]; exact hS) hA hline
      | mapping => exact h.step_raise index (.inl rfl)
      | sequence => exact h.step_raise index (.inr rfl)
      | comment => exact absurd rfl hx
    exact LineInv.run hA hline hS rest (pre ++ [x]) _ (by rw [← hpre]; simp) hnext

/-- Placing a line keeps the agreement and places the line's slots. -/
theorem placeLine_agrees (hA : ∀ t ∈ A, t.row < row) (hline : lines[row]? = some line)
    (hS : S = A ++ slotsOf row line.level (tagStream line) ++ B) {b : Builder}
    (hb : Agrees lines S b) (hlen : b.placed.length = A.length) :
    Agrees lines S (placeLine b line) ∧
      (placeLine b line).placed.length =
        A.length + (slotsOf row line.level (tagStream line)).length := by
  have h := LineInv.run hA hline hS (tagStream line) [] _ rfl (lineInv_start hb hlen)
  rw [placeLine_eq]
  exact ⟨h.agrees, h.placed⟩

end Line

/-- Placing the lines from row `r` on keeps the agreement, and places all the slots. -/
theorem foldl_placeLine_agrees {lines : List Line} {S : List Slot} :
    ∀ (rest : List Line) (r : Nat) (A : List Slot) (b : Builder),
      S = A ++ (rest.zipIdx r).flatMap (fun p => slotsOf p.2 p.1.level (tagStream p.1)) →
      (∀ t ∈ A, t.row < r) →
      (∀ i (l : Line), rest[i]? = some l → lines[r + i]? = some l) →
      Agrees lines S b → b.placed.length = A.length →
      Agrees lines S (rest.foldl placeLine b) ∧ (rest.foldl placeLine b).placed.length = S.length
  | [], r, A, b, hS, _, _, hb, hlen => by
    rw [List.zipIdx_nil, List.flatMap_nil, List.append_nil] at hS
    subst hS
    exact ⟨hb, hlen⟩
  | l :: rest, r, A, b, hS, hA, hlines, hb, hlen => by
    rw [List.zipIdx_cons, List.flatMap_cons] at hS
    have hS' := hS.trans (List.append_assoc _ _ _).symm
    obtain ⟨hb', hlen'⟩ := placeLine_agrees hA (hlines 0 l rfl) hS' hb hlen
    refine foldl_placeLine_agrees rest (r + 1) _ _ hS' ?_ ?_ hb' (by rw [hlen', List.length_append])
    · intro t ht
      rcases List.mem_append.1 ht with ht | ht
      · exact Nat.lt_succ_of_lt (hA t ht)
      · rw [(row_of_mem_slotsOf ht).1]
        exact Nat.lt_succ_self r
    · intro i l' hi
      have := hlines (i + 1) l' hi
      rwa [show r + (i + 1) = r + 1 + i by omega] at this

/-- The placements of a document agree with the rule on all its slots. -/
theorem placements_agree (lines : List Line) :
    Agrees lines (slots lines) (lines.foldl placeLine {}) ∧
      (placements lines).length = (slots lines).length :=
  foldl_placeLine_agrees lines 0 [] {} (by rw [slots, List.nil_append]) (by simp) (by simp)
    (agrees_empty _ _) rfl

/-! ## The forest follows the rule -/

section Links

variable {placed : List (Entry × Option Nat)}

/-- Every node of the finished trees has for children exactly the entries placed under it. -/
def Linked (placed : List (Entry × Option Nat)) (done : List (Option Nat × Node)) : Prop :=
  ∀ d ∈ done, ∀ n ∈ d.2.preorder, ∀ y,
    (∃ c ∈ n.children, c.id = y) ↔ parentIn placed y = some n.id

variable (hid : ∀ k (p : Entry × Option Nat), placed[k]? = some p → p.1.id = k)
  (hp : ParentsBefore placed) (hap : Apart placed)

include hid hp in
/-- Gathering entry `j` gives it for children the trees tagged with it, which are the entries
placed under it. -/
theorem Linked.gather {j : Nat} {p : Entry × Option Nat} (hpj : placed[j]? = some p)
    {done : List (Option Nat × Node)} (hg : Gathered placed (j + 1) done)
    (hl : Linked placed done) : Linked placed (Forest.gather p done) := by
  have hpid : p.1.id = j := hid j p hpj
  unfold Forest.gather
  dsimp only
  rw [hpid]
  rintro d (_ | ⟨_, hd⟩)
  · intro n hn y
    rw [preorder_mk, List.mem_cons] at hn
    rcases hn with rfl | hn
    · show (∃ c ∈ (done.filter fun d => d.1 == some j).map Prod.snd, c.id = y) ↔
        parentIn placed y = some j
      constructor
      · rintro ⟨c, hc, rfl⟩
        exact (hg.mem_children hc).1
      · exact hg.exists_child hp
    · obtain ⟨k, hk, hnk⟩ := mem_preorderAll.1 hn
      obtain ⟨-, d, hd, rfl⟩ := hg.mem_children hk
      exact hl d hd n hnk y
  · exact hl d (List.mem_filter.1 hd).1

include hid hp hap in
theorem linked_drop : ∀ k, k ≤ placed.length →
    Linked placed ((placed.drop (placed.length - k)).foldr gather [])
  | 0, _ => by simp [Linked]
  | k + 1, hk => by
    have hj : placed.length - (k + 1) < placed.length := by omega
    have hnext : placed.length - (k + 1) + 1 = placed.length - k := by omega
    have hg := gathered_drop hid hp hap k (by omega)
    have hl := linked_drop k (by omega)
    rw [← hnext] at hg hl
    rw [List.drop_eq_getElem_cons hj, List.foldr_cons]
    exact Linked.gather hid hp (List.getElem?_eq_getElem hj) hg hl

end Links

/-- In the assembled forest a node's children are the entries placed under it, and the roots are
the entries placed without a parent. -/
theorem assemble_links {b : Builder} (hb : b.Wf) :
    (∀ n ∈ preorderAll (assemble b.placed), ∀ y,
      (∃ c ∈ n.children, c.id = y) ↔ parentIn b.placed y = some n.id) ∧
    (∀ n ∈ preorderAll (assemble b.placed),
      n ∈ assemble b.placed ↔ parentIn b.placed n.id = none) := by
  have hnd := (assemble_assembledFrom hb).searchable.nodup
  have hg : Gathered b.placed 0 (b.placed.foldr gather []) := by
    simpa using gathered_drop hb.ids hb.parents hb.apart b.placed.length (Nat.le_refl _)
  have hl : Linked b.placed (b.placed.foldr gather []) := by
    simpa using linked_drop hb.ids hb.parents hb.apart b.placed.length (Nat.le_refl _)
  unfold assemble at hnd ⊢
  generalize b.placed.foldr gather [] = done at hg hl hnd ⊢
  have hroot : ∀ r ∈ (done.filter fun d => d.1.isNone).map Prod.snd,
      ∃ d ∈ done, d.2 = r ∧ parentIn b.placed r.id = none := by
    intro r hr
    obtain ⟨d, hd, rfl⟩ := List.mem_map.1 hr
    obtain ⟨hd, hnone⟩ := List.mem_filter.1 hd
    refine ⟨d, hd, rfl, ?_⟩
    rw [← hg.parent d hd]
    simpa using hnone
  refine ⟨fun n hn y => ?_, fun n hn => ⟨fun hr => ?_, fun hnone => ?_⟩⟩
  · obtain ⟨r, hr, hnr⟩ := mem_preorderAll.1 hn
    obtain ⟨d, hd, rfl, -⟩ := hroot r hr
    exact hl d hd n hnr y
  · obtain ⟨-, -, -, hnone⟩ := hroot n hr
    exact hnone
  · obtain ⟨r, hr, hnr⟩ := mem_preorderAll.1 hn
    obtain ⟨d, hd, rfl, -⟩ := hroot r hr
    have hdesc := (hg.below d hd n.id).1 (List.mem_map_of_mem hnr)
    rcases hdesc.up with hid | ⟨q, hq, -⟩
    · have hdn : d.2 ∈ preorderAll ((done.filter fun d => d.1.isNone).map Prod.snd) :=
        mem_preorderAll.2 ⟨d.2, hr, mem_preorder_self _⟩
      rw [List.inj_on_of_nodup_map hnd hn hdn hid]
      exact hr
    · rw [hnone] at hq
      cases hq

theorem parse_links (lines : List Line) :
    (∀ n ∈ preorderAll (Forest.parse lines), ∀ y,
      (∃ c ∈ n.children, c.id = y) ↔ parentIn (placements lines) y = some n.id) ∧
    (∀ n ∈ preorderAll (Forest.parse lines),
      n ∈ Forest.parse lines ↔ parentIn (placements lines) n.id = none) :=
  assemble_links (placements_wf lines)

theorem mem_preorder_of_mem_children {c n : Node} (h : c ∈ n.children) : c ∈ n.preorder := by
  obtain ⟨e, cs⟩ := n
  rw [preorder_mk]
  exact List.mem_cons_of_mem _ (mem_preorderAll.2 ⟨c, h, mem_preorder_self c⟩)

/-- The forest of a document's lines hangs every scalar where the parent rule says: its nodes are
the slots, each on its slot's token and line; its roots are the slots the rule leaves without a
parent; and a node's children are the slots the rule hangs off it. -/
theorem parse_follows_parent_rule (lines : List Line) :
    (∀ k, (∃ n ∈ preorderAll (Forest.parse lines), n.id = k) ↔ k < (slots lines).length) ∧
    (∀ n ∈ preorderAll (Forest.parse lines), ∃ s, (slots lines)[n.id]? = some s ∧
      n.entry.tokenIndex = s.token ∧ lines[s.row]?.map Line.number = some n.entry.startLine) ∧
    (∀ n ∈ preorderAll (Forest.parse lines),
      n ∈ Forest.parse lines ↔ ruleParent (slots lines) n.id = none) ∧
    (∀ n ∈ preorderAll (Forest.parse lines), ∀ c ∈ preorderAll (Forest.parse lines),
      c ∈ n.children ↔ ruleParent (slots lines) c.id = some n.id) := by
  obtain ⟨hag, hlen⟩ := placements_agree lines
  have ha := parse_assembledFrom lines
  obtain ⟨hkids, hroots⟩ := parse_links lines
  have hpar : ∀ n ∈ preorderAll (Forest.parse lines),
      parentIn (placements lines) n.id = ruleParent (slots lines) n.id :=
    fun n hn => hag.parents n.id ((ha.ids n.id).1 (List.mem_map_of_mem hn))
  refine ⟨fun k => ?_, fun n hn => ?_, fun n hn => ?_, fun n hn c hc => ?_⟩
  · rw [← hlen, ← ha.ids k, List.mem_map]
  · obtain ⟨p, hp, hentry⟩ := (ha.entries n hn).1
    obtain ⟨s, hs, htok, hrow⟩ := hag.positions n.id p hp
    refine ⟨s, hs, ?_, ?_⟩
    · rw [hentry]
      exact htok
    · rw [hentry]
      exact hrow
  · rw [← hpar n hn]
    exact hroots n hn
  · rw [← hpar c hc, ← hkids n hn c.id]
    constructor
    · intro h
      exact ⟨c, h, rfl⟩
    · -- a child with the id of `c` is `c`: the forest holds no id twice
      rintro ⟨c', hc', hid⟩
      have hc'n : c' ∈ preorderAll (Forest.parse lines) :=
        mem_preorderAll_trans _ hn (mem_preorder_of_mem_children hc')
      rwa [List.inj_on_of_nodup_map ha.searchable.nodup hc'n hc hid] at hc'

/-- A flow mapping nested in a flow mapping opens a root in the middle of the first line: the roots
are `a` and `c`, the slots the rule leaves without a parent. -/
theorem parse_follows_parent_rule_interleaved : ∃ lines,
    Line.scan {} "a: {b: {c: 1}}\n  d: 2" = .ok lines ∧
      (Forest.parse lines).map Node.id = [0, 2] ∧
      ∀ n ∈ preorderAll (Forest.parse lines),
        n ∈ Forest.parse lines ↔ ruleParent (slots lines) n.id = none := by
  have hroots : (Line.scan {} "a: {b: {c: 1}}\n  d: 2").toOption.map
      (fun lines => (Forest.parse lines).map Node.id) = some [0, 2] := by
    decide +kernel
  cases hs : Line.scan {} "a: {b: {c: 1}}\n  d: 2" with
  | error e =>
    rw [hs] at hroots
    cases hroots
  | ok lines =>
    rw [hs] at hroots
    exact ⟨lines, rfl, Option.some.inj hroots, (parse_follows_parent_rule lines).2.2.1⟩

/-- In a flow mapping nested in a flow mapping, `c` stands at level 3 while the most recent
shallower scalar, `b`, stands at level 1: `c` starts a root, and `1` hangs off it. -/
example : (Line.scan {} "a: {b: {c: 1}}\n  d: 2").toOption.map
    (fun lines => (List.range 6).map (ruleParent (slots lines))) =
      some [none, some 0, none, some 2, some 0, some 4] := by
  decide +kernel

end YamlEdit.Forest
