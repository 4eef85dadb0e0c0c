import Mathlib.Data.List.Nodup
import YamlEdit.Mutation
import YamlEdit.Proofs.Tree

/-!
# Lookup and marking in a document

A document looks a node up by searching, in id order, the trees whose root id does not exceed
the id sought, and changes an entry in the first of them that holds it. In a searchable forest
that tree is the only one holding the id, so a change of entry `i` changes that entry and no
other, and marking a list of targets marks exactly the nodes whose ids are listed, however often
they are listed; ids that name no node are passed over.
-/

namespace YamlEdit

open Node

namespace Node

theorem map_id_eq (ns : List Node) : ns.map Node.id = (ns.map Node.entry).map Entry.id := by
  rw [List.map_map]
  rfl

theorem map_changedAt (i : Nat) (f : Entry → Entry) (ns : List Node) :
    ns.map (changedAt i f) = (ns.map Node.entry).map fun e => if e.id = i then f e else e := by
  rw [List.map_map]
  rfl

section Keep

variable {i : Nat} {f : Entry → Entry} (hf : ∀ e, (f e).id = e.id)
include hf

theorem id_update (n : Node) : (update i f n).id = n.id := by
  obtain ⟨e, cs⟩ := n
  unfold update
  split
  · exact hf e
  · rfl

theorem id_changedAt (m : Node) : (changedAt i f m).id = m.id := by
  unfold changedAt
  split
  · exact hf _
  · rfl

/-- An update that keeps ids keeps the ids of an ordered tree, in pre-order. -/
theorem ids_update {n : Node} (hn : n.Ordered) : (update i f n).ids = n.ids := by
  unfold ids
  rw [map_id_eq, preorder_update i f n hn, List.map_map, map_id_eq, List.map_map]
  exact List.map_congr_left fun m _ => id_changedAt hf m

theorem ordered_update {n : Node} (hn : n.Ordered) : (update i f n).Ordered := by
  unfold Ordered
  rw [ids_update hf hn]
  exact hn

end Keep

namespace Searchable

variable {r : Node} {rs : List Node}

theorem tail (h : Searchable (r :: rs)) : Searchable rs where
  sorted := (List.pairwise_cons.1 h.sorted).2
  ordered s hs := h.ordered s (List.mem_cons_of_mem r hs)
  nodup := by
    have hn := h.nodup
    rw [preorderAll_cons, List.map_append, List.nodup_append] at hn
    exact hn.2.1

/-- Trees of a searchable forest share no id. -/
theorem head_ne (h : Searchable (r :: rs)) : ∀ a ∈ preorder r, ∀ b ∈ preorderAll rs, a.id ≠ b.id := by
  have hn := h.nodup
  rw [preorderAll_cons, List.map_append, List.nodup_append] at hn
  intro a ha b hb
  exact hn.2.2 _ (List.mem_map_of_mem ha) _ (List.mem_map_of_mem hb)

/-- The first root of a searchable forest has its least id. -/
theorem head_le (h : Searchable (r :: rs)) : ∀ m ∈ preorderAll (r :: rs), r.id ≤ m.id := by
  intro m hm
  rw [preorderAll_cons, List.mem_append] at hm
  rcases hm with hm | hm
  · exact (h.ordered r List.mem_cons_self).root_le m hm
  · obtain ⟨s, hs, hms⟩ := mem_preorderAll.1 hm
    have hrs : r.id < s.id := (List.pairwise_cons.1 h.sorted).1 _ (List.mem_map_of_mem hs)
    exact Nat.le_of_lt (Nat.lt_of_lt_of_le hrs ((h.ordered s (List.mem_cons_of_mem r hs)).root_le m hms))

end Searchable

end Node

namespace Document

/-- The entries of a document's nodes, in pre-order. -/
def entries (d : Document) : List Entry :=
  (preorderAll d.roots).map Node.entry

theorem find?_eq_none {d : Document} {i : Nat} (h : ∀ n ∈ preorderAll d.roots, n.id ≠ i) :
    d.find? i = none := by
  unfold find?
  rw [List.findSome?_eq_none_iff]
  intro r hr
  have hr := (List.takeWhile_sublist _).subset hr
  exact find?_eq_none_of_ids r.preorder fun m hm => h m (mem_preorderAll.2 ⟨r, hr, hm⟩)

/-- A root of id at most `i` in a sorted forest is among the roots searched for `i`. -/
theorem mem_takeWhile_of_sorted {i : Nat} {r : Node} :
    ∀ {roots : List Node}, (roots.map Node.id).Pairwise (· < ·) → r ∈ roots → r.id ≤ i →
      r ∈ roots.takeWhile fun s => s.id ≤ i
  | [], _, hr, _ => by cases hr
  | s :: rs, hs, hr, hri => by
    rw [List.map_cons, List.pairwise_cons] at hs
    rcases List.mem_cons.1 hr with rfl | hr
    · simp [hri]
    · have hsr : s.id < r.id := hs.1 _ (List.mem_map_of_mem hr)
      rw [List.takeWhile_cons, if_pos (by simp; omega)]
      exact List.mem_cons_of_mem s (mem_takeWhile_of_sorted hs.2 hr hri)

/-- In a searchable forest, lookup finds the node with the id sought, when there is one. -/
theorem find?_eq_some_iff {d : Document} (hs : Searchable d.roots) {i : Nat} {n : Node} :
    d.find? i = some n ↔ n ∈ preorderAll d.roots ∧ n.id = i := by
  have hsound : ∀ {m : Node}, d.find? i = some m → m ∈ preorderAll d.roots ∧ m.id = i := by
    intro m hm
    obtain ⟨r, hr, hrm⟩ := List.exists_of_findSome?_eq_some hm
    have hmr : m ∈ r.preorder := List.mem_of_find?_eq_some hrm
    have hmi : m.id = i := by simpa using List.find?_some hrm
    exact ⟨mem_preorderAll.2 ⟨r, (List.takeWhile_sublist _).subset hr, hmr⟩, hmi⟩
  refine ⟨hsound, fun ⟨hn, hni⟩ => ?_⟩
  obtain ⟨r, hr, hnr⟩ := mem_preorderAll.1 hn
  have hri : r.id ≤ i := hni ▸ (hs.ordered r hr).root_le n hnr
  have hfound : (r.find? i).isSome := by
    unfold Node.find?
    exact List.find?_isSome.2 ⟨n, hnr, by simp [hni]⟩
  cases hm : d.find? i with
  | none =>
    unfold find? at hm
    rw [List.findSome?_eq_none_iff] at hm
    rw [hm r (mem_takeWhile_of_sorted hs.sorted hr hri)] at hfound
    cases hfound
  | some m =>
    obtain ⟨hm', hmi⟩ := hsound hm
    rw [List.inj_on_of_nodup_map hs.nodup hm' hn (hmi.trans hni.symm)]

section Update

variable (i : Nat) (f : Entry → Entry)

theorem updateRoots_of_absent :
    ∀ roots : List Node, (∀ n ∈ preorderAll roots, n.id ≠ i) → update.updateRoots i f roots = roots
  | [], _ => rfl
  | r :: rs, h => by
    have hr : Node.locate i r = none :=
      locate_eq_none_of_ids i r fun m hm => h m (by simp [hm])
    unfold update.updateRoots
    split
    · rw [hr, Option.isSome_none, if_neg Bool.false_ne_true,
        updateRoots_of_absent rs fun m hm => h m (by simp [hm])]
    · rfl

theorem update_of_absent {d : Document} (h : ∀ n ∈ preorderAll d.roots, n.id ≠ i) :
    d.update i f = d := by
  unfold update
  rw [updateRoots_of_absent i f d.roots h]

theorem mem_updateRoots {r' : Node} :
    ∀ {roots : List Node}, r' ∈ update.updateRoots i f roots →
      ∃ r ∈ roots, r' = r ∨ r' = Node.update i f r
  | [], h => by cases h
  | r :: rs, h => by
    unfold update.updateRoots at h
    split at h
    · split at h
      · rcases List.mem_cons.1 h with rfl | h
        · exact ⟨r, List.mem_cons_self, .inr rfl⟩
        · exact ⟨r', List.mem_cons_of_mem r h, .inl rfl⟩
      · rcases List.mem_cons.1 h with rfl | h
        · exact ⟨r', List.mem_cons_self, .inl rfl⟩
        · obtain ⟨s, hs, he⟩ := mem_updateRoots h
          exact ⟨s, List.mem_cons_of_mem r hs, he⟩
    · exact ⟨r', h, .inl rfl⟩

/-- In a searchable forest, a change of entry `i` changes that entry and nothing else. -/
theorem preorderAll_updateRoots : ∀ {roots : List Node}, Searchable roots →
    (preorderAll (update.updateRoots i f roots)).map Node.entry =
      (preorderAll roots).map (changedAt i f)
  | [], _ => rfl
  | r :: rs, h => by
    have hr := h.ordered r List.mem_cons_self
    unfold update.updateRoots
    by_cases hri : r.id ≤ i
    · rw [if_pos hri]
      by_cases hl : (Node.locate i r).isSome
      · obtain ⟨m, hm⟩ := Option.isSome_iff_exists.1 hl
        rw [locate_eq_find? i r hr] at hm
        have hmr : m ∈ preorder r := List.mem_of_find?_eq_some hm
        have hmi : m.id = i := by simpa using List.find?_some hm
        rw [if_pos hl, preorderAll_cons, preorderAll_cons, List.map_append, List.map_append,
          preorder_update i f r hr, map_changedAt_of_ids (preorderAll rs) f fun b hb =>
            hmi ▸ (h.head_ne m hmr b hb).symm]
      · have hnone : ∀ m ∈ preorder r, m.id ≠ i := by
          have h0 : Node.locate i r = none := by simpa using hl
          rw [locate_eq_find? i r hr] at h0
          intro m hm hmi
          exact absurd (List.find?_eq_none.1 h0 m hm) (by simp [hmi])
        rw [if_neg hl, preorderAll_cons, preorderAll_cons, List.map_append, List.map_append,
          preorderAll_updateRoots h.tail, map_changedAt_of_ids (preorder r) f hnone]
    · rw [if_neg hri, map_changedAt_of_ids (preorderAll (r :: rs)) f fun m hm => by
        have := h.head_le m hm; omega]

section Keep

variable {i f} (hf : ∀ e, (f e).id = e.id)
include hf

theorem map_id_updateRoots :
    ∀ roots : List Node, (update.updateRoots i f roots).map Node.id = roots.map Node.id
  | [] => rfl
  | r :: rs => by
    unfold update.updateRoots
    split
    · split
      · rw [List.map_cons, List.map_cons, id_update hf]
      · rw [List.map_cons, List.map_cons, map_id_updateRoots rs]
    · rfl

/-- A change that keeps ids keeps a forest searchable. -/
theorem searchable_updateRoots {roots : List Node} (h : Searchable roots) :
    Searchable (update.updateRoots i f roots) where
  sorted := by
    rw [map_id_updateRoots hf]
    exact h.sorted
  ordered r' hr' := by
    obtain ⟨r, hr, he | he⟩ := mem_updateRoots i f hr'
    · rw [he]
      exact h.ordered r hr
    · rw [he]
      exact ordered_update hf (h.ordered r hr)
  nodup := by
    have hids : ((preorderAll roots).map (changedAt i f)).map Entry.id =
        (preorderAll roots).map Node.id := by
      rw [List.map_map]
      exact List.map_congr_left fun m _ => id_changedAt hf m
    rw [map_id_eq, preorderAll_updateRoots i f h, hids]
    exact h.nodup

end Keep

/-- In a searchable forest, a change of entry `i` changes the entry with that id, wherever it
is, and no other. -/
theorem entries_update {d : Document} (h : Searchable d.roots) :
    (d.update i f).entries = d.entries.map fun e => if e.id = i then f e else e := by
  unfold entries update
  rw [preorderAll_updateRoots i f h, map_changedAt]

@[simp] theorem lines_update (d : Document) : (d.update i f).lines = d.lines := rfl

end Update

end Document

namespace Mutation

/-- The entry a node has once the listed nodes are marked. -/
def marked (targets : List Nat) (mark : Mark) (e : Entry) : Entry :=
  if e.id ∈ targets then { e with mark } else e

variable (mark : Mark)

theorem marked_eq (targets : List Nat) (e : Entry) :
    marked targets mark e = { e with mark := if e.id ∈ targets then mark else e.mark } := by
  unfold marked
  split <;> rfl

/-- Marking keeps a forest searchable and marks exactly the listed nodes: a node listed twice
is marked once, and an id that names no node marks nothing. -/
theorem markAll_spec : ∀ (targets : List Nat) {d : Document}, Searchable d.roots →
    Searchable (markAll d targets mark).roots ∧
      (markAll d targets mark).entries = d.entries.map (marked targets mark)
  | [], d, h => ⟨h, by
    unfold marked
    simp [markAll]⟩
  | t :: ts, d, h => by
    have hf : ∀ e : Entry, ({ e with mark } : Entry).id = e.id := fun _ => rfl
    obtain ⟨hs, he⟩ := markAll_spec ts (d := d.update t fun e => { e with mark })
      (Document.searchable_updateRoots hf h)
    refine ⟨hs, ?_⟩
    show (markAll (d.update t fun e => { e with mark }) ts mark).entries = _
    rw [he, Document.entries_update t _ h, List.map_map]
    apply List.map_congr_left
    intro e _
    by_cases het : e.id = t <;> by_cases hets : e.id ∈ ts <;> simp [marked, het, hets]

/-- The entries after marking are those before, each marked if listed. -/
theorem mem_entries_markAll {targets : List Nat} {d : Document} (h : Searchable d.roots)
    {e : Entry} :
    e ∈ (markAll d targets mark).entries ↔ ∃ n ∈ preorderAll d.roots, e = marked targets mark n.entry := by
  rw [(markAll_spec mark targets h).2, Document.entries, List.map_map, List.mem_map]
  constructor
  · rintro ⟨n, hn, rfl⟩
    exact ⟨n, hn, rfl⟩
  · rintro ⟨n, hn, rfl⟩
    exact ⟨n, hn, rfl⟩

@[simp] theorem lines_markAll (targets : List Nat) (d : Document) :
    (markAll d targets mark).lines = d.lines := by
  induction targets generalizing d with
  | nil => rfl
  | cons t ts ih => exact ih _

@[simp] theorem line?_markAll (targets : List Nat) (d : Document) (k : Nat) :
    (markAll d targets mark).line? k = d.line? k := by
  unfold Document.line?
  rw [lines_markAll]

theorem markAll_of_absent {targets : List Nat} {d : Document}
    (h : ∀ i ∈ targets, ∀ n ∈ preorderAll d.roots, n.id ≠ i) : markAll d targets mark = d := by
  induction targets with
  | nil => rfl
  | cons t ts ih =>
    show markAll (d.update t fun e => { e with mark }) ts mark = d
    rw [Document.update_of_absent t _ (h t List.mem_cons_self)]
    exact ih fun i hi => h i (List.mem_cons_of_mem t hi)

/-- The entries a mutation adds after are those of the existing targets. -/
theorem mem_insertionOrder {targets : List Nat} {d : Document} (hs : Searchable d.roots)
    {e : Entry} :
    e ∈ insertionOrder d targets ↔ ∃ n ∈ preorderAll d.roots, n.id ∈ targets ∧ e = n.entry := by
  unfold insertionOrder
  rw [List.mem_mergeSort, List.mem_map]
  constructor
  · rintro ⟨n, hn, rfl⟩
    obtain ⟨i, hi, hfind⟩ := List.mem_filterMap.1 hn
    obtain ⟨hn, rfl⟩ := (Document.find?_eq_some_iff hs).1 hfind
    exact ⟨n, hn, hi, rfl⟩
  · rintro ⟨n, hn, hT, rfl⟩
    exact ⟨n, List.mem_filterMap.2 ⟨n.id, hT, (Document.find?_eq_some_iff hs).2 ⟨hn, rfl⟩⟩, rfl⟩

theorem insertionOrder_of_absent {targets : List Nat} {d : Document}
    (h : ∀ i ∈ targets, ∀ n ∈ preorderAll d.roots, n.id ≠ i) : insertionOrder d targets = [] := by
  unfold insertionOrder
  rw [List.filterMap_eq_nil_iff.2 fun i hi => Document.find?_eq_none (h i hi), List.map_nil,
    List.mergeSort_nil]

/-- A mutation of targets that name no node leaves the document as it is and adds nothing. -/
theorem apply_of_absent (m : Mutation) {targets : List Nat} {d : Document}
    (h : ∀ i ∈ targets, ∀ n ∈ preorderAll d.roots, n.id ≠ i) : m.apply d targets = (d, []) := by
  cases m <;> simp [apply, markAll_of_absent _ h, insertionOrder_of_absent h]

end Mutation

end YamlEdit
