import Mathlib
import YamlEdit.Proofs.Ranges.Tiling
import YamlEdit.Proofs.Render.Order

/-!
# Splicing insertions into a token

`splice` writes a token's text with texts inserted at byte offsets. It takes the insertions in
offset order, those at one offset in their listed order, and each lands at its offset held
between the point where the one before it landed and the end of the text, or at the end when
that point falls inside a character. So the output is the text cut at the landing points
`a₀ = 0, a₁, …, aₖ` with the inserted texts between the pieces,
`base[a₀..a₁] ++ t₁ ++ base[a₁..a₂] ++ … ++ tₖ ++ base[aₖ..]` (`splice_interleaves`). Every
landing point is a character boundary and none comes before the one preceding it, so the pieces
put back together are the text: no byte of it is lost, repeated or moved, and the output has the
bytes of the text and of every inserted text.

The landing points are stated on the text as a string, in byte offsets, with
`String.Pos.Raw.IsValid` for a character boundary; `splice` walks the characters left after each
cut. `Splice.landing_cut` connects the two readings, one insertion at a time.
-/

namespace YamlEdit

namespace Splice

/-- `sorted` holds the insertions in offset order, those at one offset in their listed order: it
is what sorting them stably by offset gives. -/
structure OffsetSorted (inserts sorted : List (Nat × String)) : Prop where
  /-- Offsets do not decrease along the list. -/
  ordered : sorted.Pairwise fun a b => a.1 ≤ b.1
  /-- At every offset it holds the insertions given there, in their order. -/
  stable : ∀ offset, sorted.filter (·.1 == offset) = inserts.filter (·.1 == offset)

/-- Where an insertion at `offset` lands in `base` when the one before it landed at `position`:
the offset clamped to lie between `position` and the end, or the end when that is no character
boundary. -/
def landing (base : String) (position offset : Nat) : Nat :=
  let target := max position (min offset base.utf8ByteSize)
  if (⟨target⟩ : String.Pos.Raw).IsValid base then target else base.utf8ByteSize

/-- The points `a₀ = start, a₁, …, aₖ` where the insertions land, one after the other. -/
def landings (base : String) (start : Nat) (inserts : List (Nat × String)) : List Nat :=
  (inserts.map Prod.fst).scanl (landing base) start

/-- The stretches of `base` from each landing point to the next, and from the last to the end. -/
def gaps (base : String) (start : Nat) (inserts : List (Nat × String)) : List Span :=
  let points := landings base start inserts
  List.zipWith Span.mk points (points.tail ++ [base.utf8ByteSize])

/-- `base` cut at the landing points of the insertions, with their texts between the pieces:
`base[a₀..a₁] ++ t₁ ++ base[a₁..a₂] ++ … ++ tₖ ++ base[aₖ..]`. -/
def interleave (base : String) (inserts : List (Nat × String)) : String :=
  String.join (List.zipWith (fun r t => r.slice base ++ t) (gaps base 0 inserts)
    (inserts.map Prod.snd ++ [""]))

section Landings

variable {base : String}

@[simp] theorem landings_nil (start : Nat) : landings base start [] = [start] := rfl

@[simp] theorem landings_cons (start offset : Nat) (text : String) (more : List (Nat × String)) :
    landings base start ((offset, text) :: more) =
      start :: landings base (landing base start offset) more := by
  simp [landings]

/-- The first landing point is the point started from. -/
theorem landings_head (start : Nat) (inserts : List (Nat × String)) :
    ∃ later, landings base start inserts = start :: later := by
  cases inserts with
  | nil => exact ⟨[], rfl⟩
  | cons i more => exact ⟨_, landings_cons start i.1 i.2 more⟩

@[simp] theorem gaps_nil (start : Nat) :
    gaps base start [] = [⟨start, base.utf8ByteSize⟩] := rfl

theorem gaps_cons (start offset : Nat) (text : String) (more : List (Nat × String)) :
    gaps base start ((offset, text) :: more) =
      ⟨start, landing base start offset⟩ :: gaps base (landing base start offset) more := by
  obtain ⟨later, hlater⟩ : ∃ later, landings base (landing base start offset) more =
      landing base start offset :: later := landings_head _ _
  simp only [gaps, landings_cons, hlater, List.tail_cons, List.cons_append, List.zipWith_cons_cons]

/-- An insertion lands on a character boundary. -/
theorem landing_isValid (position offset : Nat) :
    (⟨landing base position offset⟩ : String.Pos.Raw).IsValid base := by
  unfold landing
  dsimp only
  split
  · assumption
  · exact String.Pos.Raw.isValid_rawEndPos

/-- An insertion never lands before the point where the one before it landed. -/
theorem le_landing {position : Nat} (h : position ≤ base.utf8ByteSize) (offset : Nat) :
    position ≤ landing base position offset := by
  unfold landing
  dsimp only
  split <;> omega

theorem le_of_mem_landings :
    ∀ {start : Nat} {inserts : List (Nat × String)}, start ≤ base.utf8ByteSize →
      ∀ a ∈ landings base start inserts, start ≤ a
  | _, [], _, a, ha => by simp_all
  | start, (offset, _) :: more, h, a, ha => by
    rw [landings_cons, List.mem_cons] at ha
    have hnext := le_landing h offset
    rcases ha with rfl | ha
    · exact le_rfl
    · exact hnext.trans (le_of_mem_landings (landing_isValid start offset).le_utf8ByteSize a ha)

/-- From a point within the text, the landing points do not decrease. -/
theorem landings_sorted :
    ∀ {start : Nat} {inserts : List (Nat × String)}, start ≤ base.utf8ByteSize →
      (landings base start inserts).Pairwise (· ≤ ·)
  | _, [], _ => List.pairwise_singleton _ _
  | start, (offset, _) :: more, h => by
    have hnext : landing base start offset ≤ base.utf8ByteSize :=
      (landing_isValid start offset).le_utf8ByteSize
    rw [landings_cons, List.pairwise_cons]
    exact ⟨fun a ha => (le_landing h offset).trans (le_of_mem_landings hnext a ha),
      landings_sorted hnext⟩

/-- From a character boundary, every landing point is a character boundary. -/
theorem landings_isValid :
    ∀ {start : Nat} {inserts : List (Nat × String)}, (⟨start⟩ : String.Pos.Raw).IsValid base →
      ∀ a ∈ landings base start inserts, (⟨a⟩ : String.Pos.Raw).IsValid base
  | _, [], h, a, ha => by simp_all
  | start, (offset, _) :: more, h, a, ha => by
    rw [landings_cons, List.mem_cons] at ha
    rcases ha with rfl | ha
    · exact h
    · exact landings_isValid (landing_isValid start offset) a ha

end Landings

/-! ## Character boundaries on characters -/

theorem byteLength_take_le (cs : List Char) (i : Nat) :
    byteLength (cs.take i) ≤ byteLength cs := by
  conv_rhs => rw [← List.take_append_drop i cs]
  rw [byteLength_append]
  omega

/-- A character boundary after `n` bytes is the end of some first characters. -/
theorem isBoundary_iff_take :
    ∀ {n : Nat} {cs : List Char}, isBoundary n cs = true ↔ ∃ i, n = byteLength (cs.take i)
  | 0, _ => by simpa [isBoundary] using ⟨0, by simp [byteLength]⟩
  | n + 1, [] => by simp [isBoundary, byteLength]
  | n + 1, c :: cs => by
    rw [isBoundary, Bool.and_eq_true, decide_eq_true_eq, isBoundary_iff_take]
    constructor
    · rintro ⟨hc, i, hi⟩
      exact ⟨i + 1, by rw [List.take_succ_cons, byteLength]; omega⟩
    · rintro ⟨_ | i, hi⟩
      · simp [byteLength] at hi
      · rw [List.take_succ_cons, byteLength] at hi
        exact ⟨by omega, i, by omega⟩

/-- Past the characters `pre`, a character boundary of `pre ++ rest` is one of `rest`. -/
theorem isValid_append_iff {pre rest : List Char} {n : Nat} :
    (⟨byteLength pre + n⟩ : String.Pos.Raw).IsValid (String.ofList (pre ++ rest)) ↔
      isBoundary n rest = true := by
  rw [String.Pos.Raw.isValid_ofList, isBoundary_iff_take]
  simp only [← byteLength_eq_utf8ByteSize, List.take_append, byteLength_append]
  constructor
  · rintro ⟨i, hi⟩
    refine ⟨i - pre.length, ?_⟩
    rcases Nat.lt_or_ge pre.length i with hlt | hge
    · rw [List.take_of_length_le hlt.le] at hi
      omega
    · -- a boundary inside `pre` is at most its end, so it is the start of `rest`
      have hle := byteLength_take_le pre i
      rw [Nat.sub_eq_zero_of_le hge, List.take_zero] at hi ⊢
      simp only [byteLength] at hi ⊢
      omega
  · rintro ⟨i, rfl⟩
    refine ⟨pre.length + i, ?_⟩
    rw [List.take_of_length_le (l := pre) (by omega), Nat.add_sub_cancel_left]

/-! ## One insertion -/

section Step

variable {base : String} {pre rest : List Char}

/-- The stretch of the text from the end of `pre` to the end of the text is `rest`. -/
theorem slice_rest (h : base.toList = pre ++ rest) :
    Span.slice ⟨byteLength pre, base.utf8ByteSize⟩ base = String.ofList rest := by
  have hsize : base.utf8ByteSize = byteLength pre + byteLength rest := by
    rw [← byteLength_append, ← h, byteLength_eq_utf8ByteSize, String.ofList_toList]
  rw [Span.slice, hsize]
  exact extract_append (by rw [h, List.append_nil])

/-- The landing point of an insertion, read on the characters left after the point before it,
is that point moved on by `insertStep`. -/
theorem landing_eq_insertStep (h : base.toList = pre ++ rest) (offset : Nat) :
    landing base (byteLength pre) offset =
      byteLength pre + insertStep (byteLength pre) offset rest := by
  have hbase : base = String.ofList (pre ++ rest) := by rw [← h, String.ofList_toList]
  have hsize : base.utf8ByteSize = byteLength pre + byteLength rest := by
    rw [hbase, ← byteLength_eq_utf8ByteSize, byteLength_append]
  -- the clamped offset is the point moved on by the step before its boundary check
  have htarget : max (byteLength pre) (min offset base.utf8ByteSize) =
      byteLength pre + min (offset - byteLength pre) (byteLength rest) := by
    omega
  unfold landing insertStep
  simp only [htarget]
  by_cases hb : isBoundary (min (offset - byteLength pre) (byteLength rest)) rest = true
  · rw [if_pos (hbase ▸ isValid_append_iff.2 hb), if_pos hb]
  · rw [if_neg (hbase ▸ mt isValid_append_iff.1 hb), if_neg hb, hsize]

/-- One insertion: splicing cuts `rest` in two, the insertion lands right after the first part,
and the stretch of the text between the two landing points is that part. -/
theorem landing_cut (h : base.toList = pre ++ rest) (offset : Nat) :
    let cut := cutBytes (insertStep (byteLength pre) offset rest) rest
    rest = cut.1 ++ cut.2 ∧ base.toList = (pre ++ cut.1) ++ cut.2 ∧
      landing base (byteLength pre) offset = byteLength (pre ++ cut.1) ∧
      Span.slice ⟨byteLength pre, landing base (byteLength pre) offset⟩ base =
        String.ofList cut.1 := by
  obtain ⟨-, happ, hlen⟩ := insertStep_cut (byteLength pre) offset rest
  have hland : landing base (byteLength pre) offset =
      byteLength pre + byteLength (cutBytes (insertStep (byteLength pre) offset rest) rest).1 := by
    rw [landing_eq_insertStep h, hlen]
  refine ⟨happ.symm, by rw [h, List.append_assoc, happ], by rw [hland, byteLength_append], ?_⟩
  rw [Span.slice, hland]
  exact extract_append (by rw [h, List.append_assoc, happ])

theorem spliceFrom_cons (position offset : Nat) (text : String) (more : List (Nat × String)) :
    spliceFrom position rest ((offset, text) :: more) =
      (cutBytes (insertStep position offset rest) rest).1 ++ text.toList ++
        spliceFrom (position + insertStep position offset rest)
          (cutBytes (insertStep position offset rest) rest).2 more := rfl

end Step

/-! ## All insertions -/

section Run

variable {base : String}

/-- From the end of `pre` on, splicing writes the rest of the text cut at the landing points, with
the inserted texts between the pieces. The induction runs over the insertions, with the point
reached as the end of a growing prefix of the text. -/
theorem spliceFrom_eq_join : ∀ (inserts : List (Nat × String)) {pre rest : List Char},
    base.toList = pre ++ rest →
      String.ofList (spliceFrom (byteLength pre) rest inserts) =
        String.join (List.zipWith (fun r t => r.slice base ++ t)
          (gaps base (byteLength pre) inserts) (inserts.map Prod.snd ++ [""]))
  | [], pre, rest, h => by
    simp [spliceFrom_nil, slice_rest h]
  | (offset, text) :: more, pre, rest, h => by
    obtain ⟨-, hnext, hland, hslice⟩ := landing_cut h offset
    have hpos := (landing_eq_insertStep h offset).symm.trans hland
    rw [spliceFrom_cons, hpos, gaps_cons, List.map_cons, List.cons_append, List.zipWith_cons_cons,
      String.join_cons, hslice, hland, ← spliceFrom_eq_join more hnext, String.ofList_append,
      String.ofList_append, String.ofList_toList, String.append_assoc]

/-- From the end of `pre` on, the stretches between the landing points put back together are
the rest of the text. -/
theorem join_gaps : ∀ (inserts : List (Nat × String)) {pre rest : List Char},
    base.toList = pre ++ rest →
      String.join ((gaps base (byteLength pre) inserts).map (·.slice base)) = String.ofList rest
  | [], pre, rest, h => by
    simp [slice_rest h]
  | (offset, _) :: more, pre, rest, h => by
    obtain ⟨hsplit, hnext, hland, hslice⟩ := landing_cut h offset
    rw [gaps_cons, List.map_cons, String.join_cons, hslice, hland, join_gaps more hnext,
      ← String.ofList_append, ← hsplit]

/-- Splicing writes the bytes of the text and of every inserted text. -/
theorem byteLength_spliceFrom :
    ∀ (position : Nat) (rest : List Char) (inserts : List (Nat × String)),
    byteLength (spliceFrom position rest inserts) =
      byteLength rest + (inserts.map fun i => i.2.utf8ByteSize).sum
  | _, rest, [] => by simp [spliceFrom_nil]
  | position, rest, (offset, text) :: more => by
    obtain ⟨-, happ, -⟩ := insertStep_cut position offset rest
    have htext : byteLength text.toList = text.utf8ByteSize := by
      rw [byteLength_eq_utf8ByteSize, String.ofList_toList]
    rw [spliceFrom_cons, byteLength_append, byteLength_append, byteLength_spliceFrom, htext,
      List.map_cons, List.sum_cons]
    conv_rhs => rw [← happ, byteLength_append]
    dsimp only
    omega

end Run

/-! ## The order of the insertions -/

section Order

theorem offset_le_trans (a b c : Nat × String) :
    decide (a.1 ≤ b.1) → decide (b.1 ≤ c.1) → decide (a.1 ≤ c.1) := by
  simp only [decide_eq_true_eq]
  exact Nat.le_trans

theorem offset_le_total (a b : Nat × String) : (decide (a.1 ≤ b.1) || decide (b.1 ≤ a.1)) := by
  simp only [Bool.or_eq_true, decide_eq_true_eq]
  exact Nat.le_total a.1 b.1

/-- The insertions sorted stably by offset are exactly what `splice` sorts them into: the list
it takes is one, and any one is that list. -/
theorem offsetSorted_iff {inserts sorted : List (Nat × String)} :
    OffsetSorted inserts sorted ↔ inserts.mergeSort (fun a b => a.1 ≤ b.1) = sorted := by
  constructor
  · intro h
    calc inserts.mergeSort (fun a b => a.1 ≤ b.1)
        = sorted.mergeSort (fun a b => a.1 ≤ b.1) :=
          Edit.mergeSort_offset_congr fun o => (h.stable o).symm
      _ = sorted := List.mergeSort_of_pairwise (h.ordered.imp fun hab => decide_eq_true hab)
  · rintro rfl
    have hordered := List.pairwise_mergeSort offset_le_trans offset_le_total inserts
    refine ⟨hordered.imp of_decide_eq_true,
      fun offset => filter_mergeSort_of_tied offset_le_trans offset_le_total ?_ inserts⟩
    intro a b ha hb
    simp only [beq_iff_eq] at ha hb
    simp [ha, hb]

end Order

end Splice

open Splice

theorem utf8ByteSize_splice (base : String) (inserts : List (Nat × String)) :
    (splice base inserts).utf8ByteSize =
      base.utf8ByteSize + (inserts.map fun i => i.2.utf8ByteSize).sum := by
  have hperm := (List.mergeSort_perm inserts fun a b => a.1 ≤ b.1).map fun i => i.2.utf8ByteSize
  rw [splice, ← byteLength_eq_utf8ByteSize, byteLength_spliceFrom, hperm.sum_eq,
    byteLength_eq_utf8ByteSize, String.ofList_toList]

/-- Splicing interleaves without loss: with the insertions sorted stably by offset, the output
is the text cut at their landing points with their texts between the pieces; the landing points
are character boundaries that do not decrease, the pieces put back together are the text, and
the output has the bytes of the text and of every inserted text. -/
theorem splice_interleaves (base : String) {inserts sorted : List (Nat × String)}
    (h : OffsetSorted inserts sorted) :
    splice base inserts = interleave base sorted ∧
      String.join ((gaps base 0 sorted).map (·.slice base)) = base ∧
      (landings base 0 sorted).Pairwise (· ≤ ·) ∧
      (∀ a ∈ landings base 0 sorted, (⟨a⟩ : String.Pos.Raw).IsValid base) ∧
      (splice base inserts).utf8ByteSize =
        base.utf8ByteSize + (inserts.map fun i => i.2.utf8ByteSize).sum := by
  have hbase : base.toList = [] ++ base.toList := rfl
  refine ⟨?_, ?_, landings_sorted (Nat.zero_le _), landings_isValid String.Pos.Raw.isValid_zero,
    utf8ByteSize_splice base inserts⟩
  · rw [splice, offsetSorted_iff.1 h]
    exact spliceFrom_eq_join sorted hbase
  · exact (join_gaps sorted hbase).trans String.ofList_toList

/-- Two insertions at the start keep their order and go before the text; one inside its first
character, a two-byte one, goes to the end. -/
theorem splice_moves_insertion_inside_character :
    OffsetSorted [(1, "a"), (0, "b"), (0, "c")] [(0, "b"), (0, "c"), (1, "a")] ∧
      splice "é]" [(1, "a"), (0, "b"), (0, "c")] = "bcé]a" := by
  have h : OffsetSorted [(1, "a"), (0, "b"), (0, "c")] [(0, "b"), (0, "c"), (1, "a")] := by
    refine ⟨by decide, fun offset => ?_⟩
    rcases offset with _ | _ | offset <;> simp
  exact ⟨h, (splice_interleaves "é]" h).1.trans (by decide)⟩

end YamlEdit
