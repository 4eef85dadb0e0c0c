import YamlEdit.Proofs.Parsed
import YamlEdit.Proofs.RoundTrip

/-!
# Copies and new siblings of inline nodes

A copy or a new sibling of an inline node is written into the node's own line: an inline mapping
value becomes the flow sequence `[v, w]` by replacing its token, and any other inline node gets
its addition (`Mutation.inlineAddition`: the line's separator, the new name, and the copied value
or a colon for a flow mapping key) inserted at the end point of its flow entry. Both kinds of
edit are positioned by token of the source line, and the renderer splices a token's insertions
into the token's replacement when it has one. So every replaced mapping value renders as
`[v, w]` with the insertions that land on its token spliced in, at offsets computed in the source
text (`insertions_additions` gives those insertions exactly).
-/

namespace YamlEdit

open Node

theorem flatMap_ite_singleton {α β : Type} (p : α → Bool) (f : α → β) :
    ∀ xs : List α, (xs.flatMap fun x => if p x then [f x] else []) = (xs.filter p).map f
  | [] => rfl
  | x :: xs => by cases hx : p x <;> simp [hx, flatMap_ite_singleton p f xs]

theorem Edit.insertions_flatMap {α : Type} (xs : List α) (f : α → List Edit) (k i : Nat) :
    Edit.insertions (xs.flatMap f) k i = xs.flatMap fun x => Edit.insertions (f x) k i := by
  simp only [Edit.insertions, List.flatMap_assoc]

namespace Mutation

/-- The text a copy or a new sibling of an inline node other than a mapping value inserts at the
end point of the node's flow entry: the line's separator and the new name, then, for a key of a
flow mapping, the key's own value with the closers after it (a copy) or a colon (a new key). -/
def inlineAddition (line : Line) (e : Entry) : Mutation → String
  | .duplicate w => Flow.separator line ++ w ++
      if e.isKey && e.flow == .mapping then
        tokenTexts line (e.tokenIndex + 1) (Flow.entryEndPoint line e.tokenIndex).last ++
          (Flow.entryEndPoint line e.tokenIndex).closers
      else ""
  | .insert w => Flow.separator line ++ w ++ if e.isKey && e.flow == .mapping then ":" else ""
  | _ => ""

/-- The edits a copy or a new sibling adds for one entry. -/
def entryAdditions (d : Document) (e : Entry) : Mutation → List Edit
  | .duplicate w => duplicateEdits d e w
  | .insert w => insertEdits d e w
  | _ => []

/-- The edits a copy or a new sibling of one entry consists of: new lines for a node that
starts its line, `[v, w]` in place of an inline mapping value, and text at the end point of the
flow entry of any other inline node. -/
def AddedBy (d : Document) (w : String) (e : Entry) (x : Edit) : Prop :=
  (e.inline = false ∧ ∃ after ls, x = .insertLines after ls) ∨
  (e.inline = true ∧ e.role = .mappingValue ∧ ∃ line, d.line? e.startLine = some line ∧
    x = .replaceToken line.number e.tokenIndex ("[" ++ e.name ++ ", " ++ w ++ "]")) ∨
  (e.inline = true ∧ e.role ≠ .mappingValue ∧ ∃ line, d.line? e.startLine = some line ∧
    ∃ offset s, x = .insertText line.number (Flow.entryEndPoint line e.tokenIndex).token offset s)

variable {d : Document} {w : String} {e : Entry} {x : Edit}

theorem addedBy_of_mem_duplicateEdits (hx : x ∈ duplicateEdits d e w) : AddedBy d w e x := by
  unfold duplicateEdits at hx
  split at hx
  · cases hx
  rename_i line hline
  split at hx
  · rename_i hi
    rw [List.mem_singleton] at hx
    exact .inl ⟨by simpa using hi, _, _, hx⟩
  split at hx
  · rename_i hi hm
    rw [List.mem_singleton] at hx
    exact .inr (.inl ⟨by simpa using hi, by simpa using hm, line, hline, hx⟩)
  · rename_i hi hm
    rw [List.mem_singleton] at hx
    exact .inr (.inr ⟨by simpa using hi, by simpa using hm, line, hline, _, _, hx⟩)

theorem addedBy_of_mem_insertEdits (hx : x ∈ insertEdits d e w) : AddedBy d w e x := by
  unfold insertEdits at hx
  split at hx
  · cases hx
  rename_i line hline
  split at hx
  · rename_i hi
    rw [List.mem_singleton] at hx
    exact .inl ⟨by simpa using hi, _, _, hx⟩
  split at hx
  · rename_i hi hm
    rw [List.mem_singleton] at hx
    exact .inr (.inl ⟨by simpa using hi, by simpa using hm, line, hline, hx⟩)
  · rename_i hi hm
    rw [List.mem_singleton] at hx
    exact .inr (.inr ⟨by simpa using hi, by simpa using hm, line, hline, _, _, hx⟩)

section Inline

variable {line : Line} (hline : d.line? e.startLine = some line) (hi : e.inline = true)
include hline hi

theorem replaceToken_mem_duplicateEdits (hm : e.role = .mappingValue) :
    Edit.replaceToken line.number e.tokenIndex ("[" ++ e.name ++ ", " ++ w ++ "]") ∈
      duplicateEdits d e w := by
  simp [duplicateEdits, hline, hi, hm]
  rfl

theorem replaceToken_mem_insertEdits (hm : e.role = .mappingValue) :
    Edit.replaceToken line.number e.tokenIndex ("[" ++ e.name ++ ", " ++ w ++ "]") ∈
      insertEdits d e w := by
  simp [insertEdits, hline, hi, hm]
  rfl

theorem insertText_mem_duplicateEdits (hm : e.role ≠ .mappingValue) :
    ∃ s, Edit.insertText line.number (Flow.entryEndPoint line e.tokenIndex).token
      (Flow.entryEndPoint line e.tokenIndex).offset s ∈ duplicateEdits d e w := by
  simp [duplicateEdits, hline, hi, hm]

theorem insertText_mem_insertEdits (hm : e.role ≠ .mappingValue) :
    ∃ s, Edit.insertText line.number (Flow.entryEndPoint line e.tokenIndex).token
      (Flow.entryEndPoint line e.tokenIndex).offset s ∈ insertEdits d e w := by
  simp [insertEdits, hline, hi, hm]

end Inline

section Script

variable {targets : List Nat} {m : Mutation} (hm : m = .duplicate w ∨ m = .insert w)
include hm

/-- Each edit of a copy or sibling script is an addition of one of the targets. -/
theorem addedBy_of_mem_apply (hx : x ∈ (m.apply d targets).2) :
    ∃ e ∈ insertionOrder d targets, AddedBy d w e x := by
  rcases hm with rfl | rfl <;> obtain ⟨e, he, hx⟩ := List.mem_flatMap.1 hx
  · exact ⟨e, he, addedBy_of_mem_duplicateEdits hx⟩
  · exact ⟨e, he, addedBy_of_mem_insertEdits hx⟩

variable {line : Line} (he : e ∈ insertionOrder d targets) (hline : d.line? e.startLine = some line)
  (hi : e.inline = true)
include he hline hi

theorem replaceToken_mem_apply (hmv : e.role = .mappingValue) :
    Edit.replaceToken line.number e.tokenIndex ("[" ++ e.name ++ ", " ++ w ++ "]") ∈
      (m.apply d targets).2 := by
  rcases hm with rfl | rfl
  · exact List.mem_flatMap.2 ⟨e, he, replaceToken_mem_duplicateEdits hline hi hmv⟩
  · exact List.mem_flatMap.2 ⟨e, he, replaceToken_mem_insertEdits hline hi hmv⟩

theorem insertText_mem_apply (hmv : e.role ≠ .mappingValue) :
    ∃ s, Edit.insertText line.number (Flow.entryEndPoint line e.tokenIndex).token
      (Flow.entryEndPoint line e.tokenIndex).offset s ∈ (m.apply d targets).2 := by
  rcases hm with rfl | rfl
  · obtain ⟨s, hx⟩ := insertText_mem_duplicateEdits (w := w) hline hi hmv
    exact ⟨s, List.mem_flatMap.2 ⟨e, he, hx⟩⟩
  · obtain ⟨s, hx⟩ := insertText_mem_insertEdits (w := w) hline hi hmv
    exact ⟨s, List.mem_flatMap.2 ⟨e, he, hx⟩⟩

end Script

variable {m : Mutation} (hm : m = .duplicate w ∨ m = .insert w)
include hm

theorem apply_eq_flatMap (targets : List Nat) :
    (m.apply d targets).2 = (insertionOrder d targets).flatMap fun e => entryAdditions d e m := by
  rcases hm with rfl | rfl <;> rfl

/-- The insertions one entry's copy or sibling puts on token `i` of line `k`: its addition at the
end point of its flow entry, when it is an inline node other than a mapping value on that line
and the point lies in that token. -/
theorem insertions_entryAdditions {line : Line} (hline : d.line? e.startLine = some line)
    (k i : Nat) :
    Edit.insertions (entryAdditions d e m) k i =
      if e.inline = true ∧ e.role ≠ .mappingValue ∧ line.number = k ∧
          (Flow.entryEndPoint line e.tokenIndex).token = i
      then [((Flow.entryEndPoint line e.tokenIndex).offset, inlineAddition line e m)] else [] := by
  rcases hm with rfl | rfl <;> simp only [entryAdditions, duplicateEdits, insertEdits, hline]
  all_goals
    by_cases hi : e.inline = true
    · by_cases hmv : e.role = .mappingValue
      · simp [hi, hmv, Edit.insertions]
      · simp [hi, hmv, Edit.insertions, inlineAddition]
    · simp [hi, Edit.insertions]

end Mutation

namespace Document

section Additions

variable {text : String} {d : Document} (hp : Parsed text d) (targets : List Nat) (w : String)
  {m : Mutation} (hm : m = .duplicate w ∨ m = .insert w)
include hp hm

/-- The replacements of a copy or sibling script write `[v, w]` on the token of each inline
mapping value target, `v` being its name. -/
theorem replaceToken_mem_additions {k i : Nat} {s : String} :
    Edit.replaceToken k i s ∈ (m.apply d targets).2 ↔
      ∃ n ∈ preorderAll d.roots, n.id ∈ targets ∧ n.entry.inline = true ∧
        n.entry.role = .mappingValue ∧ n.entry.startLine = k ∧ n.entry.tokenIndex = i ∧
        s = "[" ++ n.entry.name ++ ", " ++ w ++ "]" := by
  constructor
  · intro hx
    obtain ⟨e, he, hadd⟩ := Mutation.addedBy_of_mem_apply hm hx
    obtain ⟨n, hn, hT, rfl⟩ := (Mutation.mem_insertionOrder hp.searchable).1 he
    rcases hadd with ⟨-, _, _, hx⟩ | ⟨hi, hmv, line, hline, hx⟩ | ⟨-, -, _, _, _, _, hx⟩
    · cases hx
    · simp only [Edit.replaceToken.injEq] at hx
      obtain ⟨hk, hidx, hs⟩ := hx
      refine ⟨n, hn, hT, hi, hmv, ?_, hidx.symm, hs⟩
      rw [hk, hp.number_of_line? hline]
    · cases hx
  · rintro ⟨n, hn, hT, hi, hmv, rfl, rfl, rfl⟩
    obtain ⟨l, hl, hln, -⟩ := hp.tokens n hn
    have hline : d.line? n.entry.startLine = some l := hln ▸ hp.line?_of_mem hl
    have he := (Mutation.mem_insertionOrder hp.searchable).2 ⟨n, hn, hT, rfl⟩
    have hx := Mutation.replaceToken_mem_apply hm he hline hi hmv
    rwa [hln] at hx

/-- The insertions a copy or sibling script puts on a token of a source line: for each target, in
the script's order, that is an inline node other than a mapping value whose flow entry ends in
the token, the target's addition at the entry's end point. -/
theorem insertions_additions {l : Line} (hl : l ∈ d.lines) (i : Nat) :
    Edit.insertions (m.apply d targets).2 l.number i =
      ((Mutation.insertionOrder d targets).filter fun e => e.inline && e.role != .mappingValue &&
          e.startLine == l.number && (Flow.entryEndPoint l e.tokenIndex).token == i).map
        fun e => ((Flow.entryEndPoint l e.tokenIndex).offset, Mutation.inlineAddition l e m) := by
  rw [Mutation.apply_eq_flatMap hm, Edit.insertions_flatMap, ← flatMap_ite_singleton]
  apply List.flatMap_congr
  intro e he
  obtain ⟨n, hn, -, rfl⟩ := (Mutation.mem_insertionOrder hp.searchable).1 he
  obtain ⟨l₀, hl₀, hnum, -⟩ := hp.tokens n hn
  have hline : d.line? n.entry.startLine = some l₀ := hnum ▸ hp.line?_of_mem hl₀
  rw [Mutation.insertions_entryAdditions hm hline]
  by_cases hll : l₀.number = l.number
  · obtain rfl := hp.line_eq hl₀ hl hll
    simp [hnum, and_assoc]
  · have hstart : n.entry.startLine ≠ l.number := hnum ▸ hll
    simp [hll, hstart]

/-- A token of a source line is replaced, by `[v, w]` with `v` its own text, exactly when an
inline mapping value target stands on it. -/
theorem replacement?_additions {l : Line} (hl : l ∈ d.lines) {i : Nat} {tk : Token}
    (htk : l.tokens[i]? = some tk) :
    Edit.replacement? (m.apply d targets).2 l.number i =
      if ∃ n ∈ preorderAll d.roots, n.id ∈ targets ∧ n.entry.inline = true ∧
          n.entry.role = .mappingValue ∧ n.entry.startLine = l.number ∧ n.entry.tokenIndex = i
      then some ("[" ++ tk.text ++ ", " ++ w ++ "]") else none := by
  have hw : ∀ s, Edit.replaceToken l.number i s ∈ (m.apply d targets).2 →
      s = "[" ++ tk.text ++ ", " ++ w ++ "]" := by
    intro s hx
    obtain ⟨n, hn, -, -, -, hk, hidx, rfl⟩ := (replaceToken_mem_additions hp targets w hm).1 hx
    obtain ⟨l', hl', hl'n, tk', htk', hname⟩ := hp.tokens n hn
    have hll : l' = l := hp.line_eq hl' hl (hl'n.trans hk)
    subst hll
    rw [hidx, htk, Option.some.injEq] at htk'
    rw [hname, htk']
  split
  · rename_i hex
    obtain ⟨n, hn, hT, hi, hmv, hk, hidx⟩ := hex
    exact Edit.replacement?_of_uniform hw
      ⟨_, (replaceToken_mem_additions hp targets w hm).2 ⟨n, hn, hT, hi, hmv, hk, hidx, rfl⟩⟩
  · rename_i hex
    refine Edit.replacement?_eq_none.2 fun s hx => hex ?_
    obtain ⟨n, hn, hT, hi, hmv, hk, hidx, -⟩ := (replaceToken_mem_additions hp targets w hm).1 hx
    exact ⟨n, hn, hT, hi, hmv, hk, hidx⟩

omit hp in
theorem isDropped_additions (k : Nat) : Edit.isDropped (m.apply d targets).2 k = false := by
  apply Bool.eq_false_iff.2
  intro hk
  obtain ⟨_, _, hx, -⟩ := Edit.isDropped_iff.1 hk
  obtain ⟨e, -, hadd⟩ := Mutation.addedBy_of_mem_apply hm hx
  rcases hadd with ⟨-, _, _, hx⟩ | ⟨-, -, _, _, hx⟩ | ⟨-, -, _, _, _, _, hx⟩ <;> cases hx

/-- Each source line renders token by token: an inline mapping value target as `[v, w]`, any
other token as its own text, each with the insertions that land on it spliced in. -/
theorem lineText_additions {l : Line} (hl : l ∈ d.lines) :
    Edit.lineText (m.apply d targets).2 l = String.join (l.tokens.zipIdx.map fun (tk, i) =>
      splice (if ∃ n ∈ preorderAll d.roots, n.id ∈ targets ∧ n.entry.inline = true ∧
          n.entry.role = .mappingValue ∧ n.entry.startLine = l.number ∧ n.entry.tokenIndex = i
        then "[" ++ tk.text ++ ", " ++ w ++ "]" else tk.text)
        (Edit.insertions (m.apply d targets).2 l.number i)) := by
  unfold Edit.lineText
  congr 1
  apply List.map_congr_left
  rintro ⟨tk, i⟩ hmem
  have htk : l.tokens[i]? = some tk := List.mem_zipIdx_iff_getElem?.1 hmem
  dsimp only
  rw [replacement?_additions hp targets w hm hl htk]
  split <;> rfl

end Additions

/-- Copies and new siblings of inline nodes, as rendered: the document renders the script over
its source lines and drops none of them; each source line renders token by token, an inline
mapping value target as `[v, w]` and every other token as its own text, each with the
insertions that land on it spliced in at their offsets. The insertions on a token are, for each
inline target other than a mapping value whose flow entry ends in that token, its addition (the
separator, `w`, and the copied value or a colon for a flow mapping key) at the entry's end point,
an offset counted in the token's source text. So a mapping value target renders as the
contiguous `[v, w]` exactly when no such entry ends on its token; when one does, as for a flow
key whose own value is also a target, the key's addition is spliced into `[v, w]` at the end of
the value's source text. -/
theorem inline_additions_render {rule : IndentRule} {t : String} {d : Document}
    (h : Document.parse rule t = .ok d) (targets : List Nat) (w : String) {m : Mutation}
    (hm : m = .duplicate w ∨ m = .insert w) :
    (m.apply d targets).1.render (m.apply d targets).2 = Edit.render (m.apply d targets).2 d.lines ∧
      (∀ l ∈ d.lines, Edit.isDropped (m.apply d targets).2 l.number = false) ∧
      (∀ l ∈ d.lines, Edit.lineText (m.apply d targets).2 l =
        String.join (l.tokens.zipIdx.map fun (tk, i) =>
          splice (if ∃ n ∈ preorderAll d.roots, n.id ∈ targets ∧ n.entry.inline = true ∧
              n.entry.role = .mappingValue ∧ n.entry.startLine = l.number ∧ n.entry.tokenIndex = i
            then "[" ++ tk.text ++ ", " ++ w ++ "]" else tk.text)
            (Edit.insertions (m.apply d targets).2 l.number i))) ∧
      (∀ l ∈ d.lines, ∀ i, Edit.insertions (m.apply d targets).2 l.number i =
        ((Mutation.insertionOrder d targets).filter fun e => e.inline &&
            e.role != .mappingValue && e.startLine == l.number &&
            (Flow.entryEndPoint l e.tokenIndex).token == i).map
          fun e => ((Flow.entryEndPoint l e.tokenIndex).offset, Mutation.inlineAddition l e m)) := by
  have hp := parse_parsed h
  have hdoc : (m.apply d targets).1 = d := by
    rcases hm with rfl | rfl <;> rfl
  refine ⟨?_, fun l _ => isDropped_additions targets w hm l.number,
    fun l hl => lineText_additions hp targets w hm hl,
    fun l hl i => insertions_additions hp targets w hm hl i⟩
  rw [hdoc, render, hp.pendingEdits_eq_nil, List.nil_append]

/-- Copying a flow key and its own value: the value's token becomes `[spam, w]`, and the key's
addition `, w: spam`, placed at the end of the value's source text, is spliced into it. -/
theorem inline_additions_splice_into_value : ∃ d,
    Document.parse {} "- beans: {spam: spam}\n" = .ok d ∧ ∃ l ∈ d.lines,
      Edit.lineText ((Mutation.duplicate "w").apply d [1, 2]).2 l =
        "- beans: {spam: [spa, w: spamm, w]}" := by
  obtain ⟨d, hd⟩ := parse_ok_of_isSome
    (by decide : (Document.parse {} "- beans: {spam: spam}\n").toOption.isSome = true)
  obtain ⟨-, -, hline, hins⟩ := inline_additions_render hd [1, 2] "w" (.inl rfl)
  have hcheck : (Document.parse {} "- beans: {spam: spam}\n").toOption.map (fun d =>
      decide ((([1, 2].filterMap d.find?).map Node.entry).Pairwise (fun a b =>
          (a.endLine < b.endLine || (a.endLine == b.endLine && b.startLine ≤ a.startLine)) = true) ∧
        d.lines ≠ [] ∧ ∀ l ∈ d.lines, String.join (l.tokens.zipIdx.map fun (tk, i) =>
          splice (if ∃ n ∈ preorderAll d.roots, n.id ∈ [1, 2] ∧ n.entry.inline = true ∧
              n.entry.role = .mappingValue ∧ n.entry.startLine = l.number ∧ n.entry.tokenIndex = i
            then "[" ++ tk.text ++ ", " ++ "w" ++ "]" else tk.text)
            (((([1, 2].filterMap d.find?).map Node.entry).filter fun e => e.inline &&
                e.role != .mappingValue && e.startLine == l.number &&
                (Flow.entryEndPoint l e.tokenIndex).token == i).map
              fun e => ((Flow.entryEndPoint l e.tokenIndex).offset,
                Mutation.inlineAddition l e (.duplicate "w")))) =
          "- beans: {spam: [spa, w: spamm, w]}")) = some true := by
    decide +kernel
  rw [hd] at hcheck
  simp only [Except.toOption, Option.map_some, Option.some.injEq, decide_eq_true_eq] at hcheck
  obtain ⟨hsorted, hne, hrender⟩ := hcheck
  have horder : Mutation.insertionOrder d [1, 2] = ([1, 2].filterMap d.find?).map Node.entry :=
    List.mergeSort_of_pairwise hsorted
  obtain ⟨l, hl⟩ := List.exists_mem_of_ne_nil _ hne
  refine ⟨d, hd, l, hl, ?_⟩
  rw [hline l hl, ← hrender l hl]
  simp only [hins l hl, horder]

end Document

end YamlEdit
