import Mathlib
import YamlEdit.Proofs.Additions

/-!
# Copies and new siblings of block nodes

A copy or a new sibling of a node that starts its line is written as new lines after the node's
last line: a copy repeats the node's lines with its own token renamed, a sibling is one line that
repeats what stands before the node on its line. The renderer writes the lines added after one
source line in script order, and the script takes the targets by end line and, among those
ending on one line, by decreasing start line. So the additions after a line come deepest node
first, and each copy directly follows the block it copies. An added line takes the terminator of
the source line it follows, and the last line of the output ends as the text does.

The main statement, `block_additions_render`, gives the rendered lines of both mutations for
every parsed document and every list of targets that start their lines. It rests on two facts of
stable sorting, `filter_mergeSort_of_tied` and `eq_of_perm_of_classes`: sorting by end line and
then by decreasing start line, and keeping the targets that end on one line, is sorting those
targets by decreasing start line alone, with repeated targets in their listed order.
-/

namespace YamlEdit

open Node

/-! ## Stable sorting -/

section StableSort

variable {α : Type} {le : α → α → Bool}

/-- A stable sort keeps the listed order of elements it cannot tell apart. -/
theorem filter_mergeSort_of_tied (trans : ∀ a b c, le a b → le b c → le a c)
    (total : ∀ a b, le a b || le b a) {q : α → Bool} (hq : ∀ a b, q a → q b → le a b)
    (l : List α) : (l.mergeSort le).filter q = l.filter q := by
  have hpair : (l.filter q).Pairwise fun a b => le a b :=
    List.pairwise_of_forall_mem_list fun a ha b hb =>
      hq a b (List.mem_filter.1 ha).2 (List.mem_filter.1 hb).2
  -- the tied elements stay a sublist of the sorted list, and they are all it holds of them
  have hsub : List.Sublist (l.filter q) ((l.mergeSort le).filter q) := by
    have h := (List.sublist_mergeSort trans total hpair List.filter_sublist).filter q
    simpa only [List.filter_filter, Bool.and_self] using h
  have hperm : List.Perm ((l.mergeSort le).filter q) (l.filter q) := (List.mergeSort_perm l le).filter q
  exact (hsub.eq_of_length hperm.length_eq.symm).symm

/-- Two lists sorted by a total preorder are equal when they hold the same elements and list the
elements of every class of equivalent ones in the same order. -/
theorem eq_of_perm_of_classes (total : ∀ a b, le a b || le b a) :
    ∀ {l₁ l₂ : List α}, List.Perm l₁ l₂ → l₁.Pairwise (fun a b => le a b) →
      l₂.Pairwise (fun a b => le a b) →
      (∀ c, l₁.filter (fun b => le c b && le b c) = l₂.filter (fun b => le c b && le b c)) →
      l₁ = l₂
  | [], _, hp, _, _, _ => hp.nil_eq
  | _ :: _, [], hp, _, _, _ => hp.eq_nil
  | a :: l₁, b :: l₂, hp, h₁, h₂, hc => by
    have hrefl : ∀ x, le x x = true := fun x => by simpa using total x x
    have hab : le a b = true := by
      rcases List.mem_cons.1 (hp.mem_iff.2 List.mem_cons_self) with h | h
      · rw [← h]; exact hrefl b
      · exact List.rel_of_pairwise_cons h₁ h
    have hba : le b a = true := by
      rcases List.mem_cons.1 (hp.mem_iff.1 List.mem_cons_self) with h | h
      · rw [← h]; exact hrefl a
      · exact List.rel_of_pairwise_cons h₂ h
    have hhead := hc a
    simp only [List.filter_cons, hrefl a, hab, hba, Bool.and_self, if_true] at hhead
    obtain ⟨rfl, -⟩ := List.cons.inj hhead
    refine congrArg (a :: ·) (eq_of_perm_of_classes total hp.cons_inv h₁.of_cons h₂.of_cons
      fun c => ?_)
    have hcls := hc c
    simp only [List.filter_cons] at hcls
    split at hcls
    · exact (List.cons.inj hcls).2
    · exact hcls

/-- Sorting by a primary key and then by decreasing secondary key, and keeping the elements of
one primary key, sorts those elements by decreasing secondary key, stably. -/
theorem filter_mergeSort_lex (p s : α → Nat) (l : List α) (k : Nat) :
    (l.mergeSort fun a b => p a < p b || (p a == p b && s b ≤ s a)).filter (p · == k) =
      (l.filter (p · == k)).mergeSort fun a b => s b ≤ s a := by
  have trans₁ : ∀ a b c : α, (p a < p b || (p a == p b && s b ≤ s a)) →
      (p b < p c || (p b == p c && s c ≤ s b)) → (p a < p c || (p a == p c && s c ≤ s a)) := by
    intro a b c hab hbc
    simp only [Bool.or_eq_true, decide_eq_true_eq, Bool.and_eq_true, beq_iff_eq] at *
    omega
  have total₁ : ∀ a b : α,
      ((p a < p b || (p a == p b && s b ≤ s a)) || (p b < p a || (p b == p a && s a ≤ s b))) := by
    intro a b
    simp only [Bool.or_eq_true, decide_eq_true_eq, Bool.and_eq_true, beq_iff_eq]
    omega
  have trans₂ : ∀ a b c : α, decide (s b ≤ s a) → decide (s c ≤ s b) → decide (s c ≤ s a) := by
    intro a b c hab hbc
    simp only [decide_eq_true_eq] at *
    omega
  have total₂ : ∀ a b : α, (decide (s b ≤ s a) || decide (s a ≤ s b)) := by
    intro a b
    simp only [Bool.or_eq_true, decide_eq_true_eq]
    omega
  apply eq_of_perm_of_classes total₂
  · exact ((List.mergeSort_perm l _).filter _).trans (List.mergeSort_perm _ _).symm
  · refine ((List.pairwise_mergeSort trans₁ total₁ l).filter _).imp_of_mem ?_
    intro a b ha hb hab
    have hka := (List.mem_filter.1 ha).2
    have hkb := (List.mem_filter.1 hb).2
    simp only [Bool.or_eq_true, decide_eq_true_eq, Bool.and_eq_true, beq_iff_eq] at hab hka hkb ⊢
    omega
  · exact List.pairwise_mergeSort trans₂ total₂ _
  · intro c
    rw [List.filter_filter, filter_mergeSort_of_tied trans₁ total₁, filter_mergeSort_of_tied
      trans₂ total₂, List.filter_filter]
    all_goals
      intro a b ha hb
      simp only [Bool.or_eq_true, Bool.and_eq_true, decide_eq_true_eq, beq_iff_eq] at ha hb ⊢
      omega

end StableSort

/-! ## The lines a block addition writes -/

namespace Document

/-- The lines numbered `first` to `last`, in order. -/
def linesFrom (d : Document) (first last : Nat) : List Line :=
  d.lines.filter fun l => first ≤ l.number && l.number ≤ last

/-- The terminator of an output line written for the source line `l`: `l`'s own, or for a line
without one the document's first terminator, a line feed when it has none. -/
def endingFor (d : Document) (l : Line) : LineEnding :=
  if l.ending = .unterminated then separatorOf d.lines else l.ending

/-- The copy of a node under the name `w`: the node's lines, with its own token replaced by `w`. -/
def copyOf (d : Document) (w : String) (e : Entry) : List String :=
  (d.linesFrom e.startLine e.endLine).map fun l =>
    if l.number = e.startLine then String.join ((l.tokens.map Token.text).set e.tokenIndex w)
    else l.text

/-- A new sibling of a node, named `w`: one line with the text of the tokens before the node on
its line, then `w`, then a `:` when the node is a key other than a sequence item. -/
def siblingOf (d : Document) (w : String) (e : Entry) : List String :=
  (d.linesFrom e.startLine e.startLine).map fun l =>
    Token.join (l.tokens.take e.tokenIndex) ++ w ++
      if e.isKey && e.role != .sequenceItem then ":" else ""

/-- The existing targets that end on line `k`, in decreasing order of start line; the sort is
stable, so a repeated target keeps its listed order. -/
def endingOn (d : Document) (targets : List Nat) (k : Nat) : List Entry :=
  (((targets.filterMap d.find?).map Node.entry).filter (·.endLine == k)).mergeSort
    fun a b => b.startLine ≤ a.startLine

/-- The source lines, each followed by what `added` gives for the targets that end on it, every
output line with the terminator of the source line it is written for, and the last with the
text's last terminator. -/
def withAdditions (d : Document) (targets : List Nat) (added : Entry → List String) :
    List RenderedLine :=
  Edit.endWith (Edit.lastEnding d.lines) (d.lines.flatMap fun l =>
    (l.text :: (d.endingOn targets l.number).flatMap added).map fun s => ⟨s, d.endingFor l⟩)

namespace Parsed

variable {text : String} {d : Document} (hp : Parsed text d)
include hp

/-- The lines a parsed document has numbered `first` to `last` are those `line?` finds. -/
theorem filterMap_line?_range' (first last : Nat) :
    (List.range' first (last + 1 - first)).filterMap d.line? = d.linesFrom first last := by
  have : Std.Irrefl fun a b : Line => a.number < b.number := ⟨fun a => Nat.lt_irrefl _⟩
  refine List.Pairwise.eq_of_mem_iff (r := fun a b : Line => a.number < b.number) ?_ ?_ ?_
  · refine (List.pairwise_lt_range' (s := first) (n := last + 1 - first)).filterMap _ ?_
    intro a a' haa' b hb b' hb'
    rw [hp.number_of_line? hb, hp.number_of_line? hb']
    exact haa'
  · have hsorted : (d.lines.map Line.number).Pairwise (· < ·) := by
      rw [hp.scanned.numbers]
      exact List.pairwise_lt_range'
    exact (List.pairwise_map.1 hsorted).filter _
  · intro l
    simp only [List.mem_filterMap, List.mem_range'_1, linesFrom, List.mem_filter,
      Bool.and_eq_true, decide_eq_true_eq]
    constructor
    · rintro ⟨k, ⟨hk1, hk2⟩, hk⟩
      have hnum := hp.number_of_line? hk
      exact ⟨mem_of_line? hk, by omega, by omega⟩
    · rintro ⟨hl, hl1, hl2⟩
      exact ⟨l.number, ⟨hl1, by omega⟩, hp.line?_of_mem hl⟩

/-- A node's own line is the first of its lines. -/
theorem linesFrom_start {n : Node} (hn : n ∈ preorderAll d.roots) :
    ∃ l ∈ d.lines, d.line? n.entry.startLine = some l ∧ l.number = n.entry.startLine ∧
      d.linesFrom n.entry.startLine n.entry.endLine =
        l :: d.linesFrom (n.entry.startLine + 1) n.entry.endLine := by
  obtain ⟨l, hl, hln, -⟩ := hp.tokens n hn
  obtain ⟨h1, hse, -⟩ := hp.spans n hn
  have hline : d.line? n.entry.startLine = some l := hln ▸ hp.line?_of_mem hl
  refine ⟨l, hl, hline, hln, ?_⟩
  rw [← hp.filterMap_line?_range', ← hp.filterMap_line?_range',
    show n.entry.endLine + 1 - n.entry.startLine = (n.entry.endLine + 1 - (n.entry.startLine + 1)) + 1
      by omega, List.range'_succ, List.filterMap_cons, hline]

end Parsed

end Document

/-! ## The edits of a block addition -/

namespace Mutation

open Document

/-- A line with one token swapped out is the join of its token texts with that one set. -/
theorem withTokenReplaced_eq (line : Line) (i : Nat) (w : String) :
    withTokenReplaced line i w = String.join ((line.tokens.map Token.text).set i w) := by
  unfold withTokenReplaced
  congr 1
  apply List.ext_getElem (by simp)
  intro j h₁ h₂
  rw [List.getElem_map, List.getElem_zipIdx, List.getElem_set]
  by_cases hij : i = j
  · simp [hij]
  · simp [hij, Ne.symm hij]

section Block

variable {text : String} {d : Document} (hp : Document.Parsed text d) {n : Node}
  (hn : n ∈ preorderAll d.roots) (hb : n.entry.inline = false) (w : String)
include hp hn hb

/-- A copy of a block node is its lines, renamed, written after its last line. -/
theorem duplicateEdits_block :
    duplicateEdits d n.entry w = [.insertLines n.entry.endLine (d.copyOf w n.entry)] := by
  obtain ⟨l, hl, hline, hln, hlines⟩ := hp.linesFrom_start hn
  obtain ⟨h1, -, -⟩ := hp.spans n hn
  simp only [duplicateEdits, hline, hb, Bool.not_false, if_true, List.cons.injEq,
    Edit.insertLines.injEq, true_and, and_true]
  rw [copyOf, hlines, List.map_cons, if_pos hln, withTokenReplaced_eq,
    show n.entry.endLine - n.entry.startLine =
      n.entry.endLine + 1 - (n.entry.startLine + 1) by omega,
    ← List.map_filterMap, hp.filterMap_line?_range']
  congr 1
  refine List.map_congr_left fun l' hl' => ?_
  have : n.entry.startLine + 1 ≤ l'.number := by
    simp only [linesFrom, List.mem_filter, Bool.and_eq_true, decide_eq_true_eq] at hl'
    exact hl'.2.1
  rw [if_neg (by omega)]

/-- A new sibling of a block node is one line, written after the node's last line. -/
theorem insertEdits_block :
    insertEdits d n.entry w = [.insertLines n.entry.endLine (d.siblingOf w n.entry)] := by
  obtain ⟨l, hl, hline, hln, -⟩ := hp.linesFrom_start hn
  obtain ⟨h1, -, -⟩ := hp.spans n hn
  have hone : d.linesFrom n.entry.startLine n.entry.startLine = [l] := by
    rw [← hp.filterMap_line?_range', show n.entry.startLine + 1 - n.entry.startLine = 0 + 1
      by omega, List.range'_succ, List.filterMap_cons, hline]
    rfl
  simp [insertEdits, hline, hb, siblingOf, hone]

end Block

/-- The lines a script of line insertions writes after line `k`: those of the entries that end
on `k`, in script order. -/
theorem insertedAfter_flatMap {L : List Entry} {f : Entry → List Edit}
    {added : Entry → List String} (hf : ∀ e ∈ L, f e = [.insertLines e.endLine (added e)])
    (k : Nat) :
    Edit.insertedAfter (L.flatMap f) k = (L.filter (·.endLine == k)).flatMap added := by
  induction L with
  | nil => rfl
  | cons e L ih =>
    rw [List.flatMap_cons, hf e List.mem_cons_self]
    simp only [Edit.insertedAfter, List.flatMap_append] at ih ⊢
    rw [ih fun e' he' => hf e' (List.mem_cons_of_mem e he'), List.filter_cons]
    split <;> simp_all

/-- The targets an addition script takes that end on line `k`: by decreasing start line, and
repeated targets in their listed order. -/
theorem filter_insertionOrder (d : Document) (targets : List Nat) (k : Nat) :
    (insertionOrder d targets).filter (·.endLine == k) = d.endingOn targets k :=
  filter_mergeSort_lex Entry.endLine Entry.startLine _ k

end Mutation

namespace Document

section Render

variable {text : String} {d : Document} (hp : Parsed text d) (targets : List Nat)
  {added : Entry → List String} {f : Entry → List Edit}
include hp

/-- A script that adds lines after the lines its targets end on renders each source line as it
was read, followed by the additions of the targets ending on it. -/
theorem render_block_additions
    (hf : ∀ e ∈ Mutation.insertionOrder d targets, f e = [.insertLines e.endLine (added e)]) :
    d.render ((Mutation.insertionOrder d targets).flatMap f) = d.withAdditions targets added := by
  have hnone : ∀ x ∈ (Mutation.insertionOrder d targets).flatMap f, ∃ k ls, x = .insertLines k ls := by
    intro x hx
    obtain ⟨e, he, hx⟩ := List.mem_flatMap.1 hx
    rw [hf e he, List.mem_singleton] at hx
    exact ⟨_, _, hx⟩
  rw [render, hp.pendingEdits_eq_nil, List.nil_append, Edit.render_eq_endWith, withAdditions]
  congr 1
  refine List.flatMap_congr fun l _ => ?_
  have hdrop : Edit.isDropped ((Mutation.insertionOrder d targets).flatMap f) l.number = false := by
    refine Bool.eq_false_iff.2 fun h => ?_
    obtain ⟨_, _, hx, -⟩ := Edit.isDropped_iff.1 h
    obtain ⟨_, _, hx'⟩ := hnone _ hx
    cases hx'
  have htext : Edit.lineText ((Mutation.insertionOrder d targets).flatMap f) l = l.text :=
    Edit.lineText_of_untouched
      (fun _ _ hx => by obtain ⟨_, _, hx'⟩ := hnone _ hx; cases hx')
      (fun _ _ _ hx => by obtain ⟨_, _, hx'⟩ := hnone _ hx; cases hx')
  rw [Edit.renderLine, hdrop, htext, Mutation.insertedAfter_flatMap hf,
    Mutation.filter_insertionOrder]
  simp [endingFor]

end Render

/-- Copies and new siblings of nodes that start their lines, as rendered: for a freshly parsed
document and targets that start their lines, the output is the source lines unchanged, each
followed by the additions of the existing targets that end on it, deepest first and repeated
targets in their listed order. A copy repeats the node's lines with its own token replaced by
`w`; a sibling is the text before the node on its line, `w`, and a `:` for a key that is not a
sequence item. Every added line takes the terminator of the line it follows, a missing one
replaced by the text's first terminator, and the last output line ends as the text does. -/
theorem block_additions_render {rule : IndentRule} {t : String} {d : Document}
    (h : Document.parse rule t = .ok d) (targets : List Nat) (w : String)
    (hblock : ∀ n ∈ preorderAll d.roots, n.id ∈ targets → n.entry.inline = false) :
    ((Mutation.duplicate w).apply d targets).1.render ((Mutation.duplicate w).apply d targets).2 =
        d.withAdditions targets (d.copyOf w) ∧
      ((Mutation.insert w).apply d targets).1.render ((Mutation.insert w).apply d targets).2 =
        d.withAdditions targets (d.siblingOf w) := by
  have hp := parse_parsed h
  have htarget : ∀ e ∈ Mutation.insertionOrder d targets,
      ∃ n ∈ preorderAll d.roots, n.entry.inline = false ∧ e = n.entry := by
    intro e he
    obtain ⟨n, hn, hT, rfl⟩ := (Mutation.mem_insertionOrder hp.searchable).1 he
    exact ⟨n, hn, hblock n hn hT, rfl⟩
  constructor
  · refine render_block_additions hp targets fun e he => ?_
    obtain ⟨n, hn, hb, rfl⟩ := htarget e he
    exact Mutation.duplicateEdits_block hp hn hb w
  · refine render_block_additions hp targets fun e he => ?_
    obtain ⟨n, hn, hb, rfl⟩ := htarget e he
    exact Mutation.insertEdits_block hp hn hb w

/-- Copying both `a`s of a nested block, whose blocks end on one line: the document parses, and
both targets start their lines. -/
theorem block_additions_render_nested : ∃ d, Document.parse {} "a:\n  a:\n    b: 1\n" = .ok d ∧
    ((Mutation.duplicate "z").apply d [0, 1]).1.render ((Mutation.duplicate "z").apply d [0, 1]).2 =
        d.withAdditions [0, 1] (d.copyOf "z") ∧
      ((Mutation.insert "z").apply d [0, 1]).1.render ((Mutation.insert "z").apply d [0, 1]).2 =
        d.withAdditions [0, 1] (d.siblingOf "z") := by
  obtain ⟨d, hd⟩ := parse_ok_of_isSome
    (by decide : (Document.parse {} "a:\n  a:\n    b: 1\n").toOption.isSome = true)
  have hcheck : (Document.parse {} "a:\n  a:\n    b: 1\n").toOption.map
      (fun d => (preorderAll d.roots).all fun n => !decide (n.id ∈ [0, 1]) || !n.entry.inline) =
      some true := by
    decide +kernel
  rw [hd] at hcheck
  simp only [Except.toOption, Option.map_some, Option.some.injEq, List.all_eq_true] at hcheck
  exact ⟨d, hd, block_additions_render hd [0, 1] "z" fun n hn hT => by simpa [hT] using hcheck n hn⟩

end Document

end YamlEdit
