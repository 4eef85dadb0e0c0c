import YamlEdit.Node

/-!
# Lookup and update by descent

`Node.locate` and `Node.update` descend, at each node, into the last child whose id does not
exceed the one sought. In a tree whose pre-order is increasing in id that child is the only one
that can hold the id, so the descent finds what a search of the pre-order finds, and an update
changes the entry with that id and nothing else. A forest with its roots in increasing id order,
ordered trees and no id twice keeps these properties under any update that keeps ids.
-/

namespace YamlEdit.Node

/-- The ids of a tree, in pre-order. -/
def ids (n : Node) : List Nat :=
  n.preorder.map Node.id

/-- The pre-order of the tree is increasing in id. -/
def Ordered (n : Node) : Prop :=
  n.ids.Pairwise (· < ·)

/-- The pre-order of the trees is increasing in id. -/
def OrderedAll (ns : List Node) : Prop :=
  ((preorderAll ns).map Node.id).Pairwise (· < ·)

@[simp] theorem preorder_mk (e : Entry) (cs : List Node) :
    preorder ⟨e, cs⟩ = ⟨e, cs⟩ :: preorderAll cs := by
  simp [preorder]

@[simp] theorem preorderAll_nil : preorderAll [] = [] := by
  simp [preorderAll]

@[simp] theorem preorderAll_cons (n : Node) (ns : List Node) :
    preorderAll (n :: ns) = preorder n ++ preorderAll ns := by
  simp [preorderAll]

theorem preorderAll_eq_flatMap (ns : List Node) : preorderAll ns = ns.flatMap preorder := by
  induction ns with
  | nil => simp
  | cons n ns ih => simp [ih]

theorem mem_preorderAll {m : Node} {ns : List Node} :
    m ∈ preorderAll ns ↔ ∃ n ∈ ns, m ∈ n.preorder := by
  simp [preorderAll_eq_flatMap]

theorem mem_preorder_self (n : Node) : n ∈ n.preorder := by
  cases n
  simp

@[simp] theorem id_mk (e : Entry) (cs : List Node) : (⟨e, cs⟩ : Node).id = e.id := rfl

theorem ids_mk (e : Entry) (cs : List Node) :
    ids ⟨e, cs⟩ = e.id :: (preorderAll cs).map Node.id := by
  simp [ids]

theorem ordered_mk {e : Entry} {cs : List Node} :
    Ordered ⟨e, cs⟩ ↔ (∀ m ∈ preorderAll cs, e.id < m.id) ∧ OrderedAll cs := by
  simp [Ordered, ids, OrderedAll, List.pairwise_cons]

theorem orderedAll_cons {n : Node} {ns : List Node} :
    OrderedAll (n :: ns) ↔
      n.Ordered ∧ OrderedAll ns ∧ ∀ a ∈ preorder n, ∀ b ∈ preorderAll ns, a.id < b.id := by
  simp [OrderedAll, Ordered, ids, List.pairwise_append]

/-- The root of an ordered tree has the least id. -/
theorem Ordered.root_le {n : Node} (h : n.Ordered) : ∀ m ∈ n.preorder, n.id ≤ m.id := by
  obtain ⟨e, cs⟩ := n
  intro m hm
  rw [preorder_mk, List.mem_cons] at hm
  rcases hm with rfl | hm
  · exact Nat.le_refl _
  · exact Nat.le_of_lt ((ordered_mk.1 h).1 m hm)

/-- The first root of ordered trees has the least id. -/
theorem OrderedAll.head_le {n : Node} {ns : List Node} (h : OrderedAll (n :: ns)) :
    ∀ m ∈ preorderAll (n :: ns), n.id ≤ m.id := by
  obtain ⟨hn, -, hsep⟩ := orderedAll_cons.1 h
  intro m hm
  rw [preorderAll_cons, List.mem_append] at hm
  rcases hm with hm | hm
  · exact hn.root_le m hm
  · exact Nat.le_of_lt (hsep n (mem_preorder_self n) m hm)

mutual

theorem mem_preorder_trans {m k : Node} :
    ∀ n : Node, m ∈ preorder n → k ∈ preorder m → k ∈ preorder n
  | ⟨e, cs⟩, hm, hk => by
    rw [preorder_mk, List.mem_cons] at hm
    rcases hm with rfl | hm
    · exact hk
    · exact List.mem_cons_of_mem _ (mem_preorderAll_trans cs hm hk)

theorem mem_preorderAll_trans {m k : Node} :
    ∀ ns : List Node, m ∈ preorderAll ns → k ∈ preorder m → k ∈ preorderAll ns
  | [], hm, _ => by simp at hm
  | c :: cs, hm, hk => by
    rw [preorderAll_cons, List.mem_append] at hm ⊢
    rcases hm with hm | hm
    · exact .inl (mem_preorder_trans c hm hk)
    · exact .inr (mem_preorderAll_trans cs hm hk)

end

theorem find?_eq_none_of_ids (ns : List Node) {i : Nat} (h : ∀ m ∈ ns, m.id ≠ i) :
    ns.find? (fun m => m.id == i) = none := by
  rw [List.find?_eq_none]
  intro m hm
  simpa using h m hm

mutual

/-- In an ordered tree, lookup by descent finds what a search of the pre-order finds. -/
theorem locate_eq_find? (i : Nat) : ∀ n : Node, n.Ordered → locate i n = n.find? i
  | ⟨e, cs⟩, h => by
    unfold locate find?
    rw [preorder_mk, List.find?_cons]
    by_cases he : e.id = i
    · simp [he]
    · have hne : (e.id == i) = false := by simpa using he
      rw [id_mk, hne, if_neg (by simp)]
      exact locateAmong_eq_find? i cs (ordered_mk.1 h).2

/-- Among ordered trees, descent into the last tree whose root id does not exceed `i` finds what
a search of their pre-order finds. -/
theorem locateAmong_eq_find? (i : Nat) :
    ∀ ns : List Node, OrderedAll ns → locateAmong i ns = (preorderAll ns).find? (·.id == i)
  | [], _ => by simp [locateAmong]
  | [c], h => by
    have hc := (orderedAll_cons.1 h).1
    unfold locateAmong
    rw [preorderAll_cons, preorderAll_nil, List.append_nil]
    split
    · exact locate_eq_find? i c hc
    · rename_i hci
      exact (find?_eq_none_of_ids c.preorder fun m hm => by
        have := hc.root_le m hm; omega).symm
  | c :: d :: rest, h => by
    obtain ⟨hc, hrest, hsep⟩ := orderedAll_cons.1 h
    have hd : d ∈ preorderAll (d :: rest) := by simp [mem_preorder_self]
    unfold locateAmong
    rw [preorderAll_cons, List.find?_append]
    by_cases hci : c.id ≤ i
    · rw [if_pos hci]
      by_cases hdi : d.id ≤ i
      · rw [if_pos hdi, locateAmong_eq_find? i (d :: rest) hrest,
          find?_eq_none_of_ids c.preorder fun m hm => by
            have := hsep m hm d hd; omega]
        rfl
      · rw [if_neg hdi, locate_eq_find? i c hc,
          find?_eq_none_of_ids (preorderAll (d :: rest)) fun m hm => by
            have := hrest.head_le m hm; omega]
        simp [find?]
    · rw [if_neg hci, find?_eq_none_of_ids c.preorder fun m hm => by
          have := hc.root_le m hm; omega,
        find?_eq_none_of_ids (preorderAll (d :: rest)) fun m hm => by
          have := hrest.head_le m hm
          have := hsep c (mem_preorder_self c) d hd
          omega]
      rfl

end

/-- A forest that lookup by id can search: roots in increasing id order, each tree with an
increasing pre-order, and no id twice. -/
structure Searchable (roots : List Node) : Prop where
  sorted : (roots.map Node.id).Pairwise (· < ·)
  ordered : ∀ r ∈ roots, r.Ordered
  nodup : ((preorderAll roots).map Node.id).Nodup

/-- The entry a node has after the entry with id `i` is changed by `f`. -/
def changedAt (i : Nat) (f : Entry → Entry) (m : Node) : Entry :=
  if m.id = i then f m.entry else m.entry

theorem map_changedAt_of_ids (ms : List Node) {i : Nat} (f : Entry → Entry)
    (h : ∀ m ∈ ms, m.id ≠ i) : ms.map (changedAt i f) = ms.map Node.entry := by
  apply List.map_congr_left
  intro m hm
  simp [changedAt, h m hm]

section Update

variable (i : Nat) (f : Entry → Entry)

mutual

/-- In an ordered tree, an update changes the entry with id `i` and nothing else. -/
theorem preorder_update : ∀ n : Node, n.Ordered →
    (preorder (update i f n)).map Node.entry = (preorder n).map (changedAt i f)
  | ⟨e, cs⟩, h => by
    have hcs := ordered_mk.1 h
    unfold update
    by_cases he : e.id = i
    · rw [if_pos (by simpa using he), preorder_mk, preorder_mk, List.map_cons, List.map_cons,
        map_changedAt_of_ids _ f fun m hm => by have := hcs.1 m hm; omega]
      simp [changedAt, he]
    · rw [if_neg (by simpa using he), preorder_mk, preorder_mk, List.map_cons, List.map_cons,
        preorderAll_updateAmong cs hcs.2]
      simp [changedAt, he]

/-- Among ordered trees, an update changes the entry with id `i` and nothing else. -/
theorem preorderAll_updateAmong : ∀ ns : List Node, OrderedAll ns →
    (preorderAll (updateAmong i f ns)).map Node.entry = (preorderAll ns).map (changedAt i f)
  | [], _ => by simp [updateAmong]
  | [c], h => by
    have hc := (orderedAll_cons.1 h).1
    unfold updateAmong
    split
    · simpa using preorder_update c hc
    · rename_i hci
      rw [map_changedAt_of_ids _ f fun m hm => by
        have := OrderedAll.head_le h m hm; omega]
  | c :: d :: rest, h => by
    obtain ⟨hc, hrest, hsep⟩ := orderedAll_cons.1 h
    have hd : d ∈ preorderAll (d :: rest) := by simp [mem_preorder_self]
    unfold updateAmong
    by_cases hci : c.id ≤ i
    · rw [if_pos hci]
      by_cases hdi : d.id ≤ i
      · rw [if_pos hdi, preorderAll_cons c, preorderAll_cons c, List.map_append, List.map_append,
          preorderAll_updateAmong (d :: rest) hrest,
          map_changedAt_of_ids (preorder c) f fun m hm => by
            have := hsep m hm d hd; omega]
      · rw [if_neg hdi, preorderAll_cons _ (d :: rest), preorderAll_cons c, List.map_append,
          List.map_append, preorder_update c hc,
          map_changedAt_of_ids (preorderAll (d :: rest)) f fun m hm => by
            have := hrest.head_le m hm; omega]
    · rw [if_neg hci, map_changedAt_of_ids _ f fun m hm => by
        have := OrderedAll.head_le h m hm; omega]

end

end Update

mutual

/-- Descent finds nothing in a tree that has no node with the id sought. -/
theorem locate_eq_none_of_ids (i : Nat) :
    ∀ n : Node, (∀ m ∈ preorder n, m.id ≠ i) → locate i n = none
  | ⟨e, cs⟩, h => by
    unfold locate
    rw [if_neg (by simpa using h _ (mem_preorder_self _))]
    exact locateAmong_eq_none_of_ids i cs fun m hm => h m (by simp [hm])

theorem locateAmong_eq_none_of_ids (i : Nat) :
    ∀ ns : List Node, (∀ m ∈ preorderAll ns, m.id ≠ i) → locateAmong i ns = none
  | [], _ => by simp [locateAmong]
  | [c], h => by
    unfold locateAmong
    split
    · exact locate_eq_none_of_ids i c fun m hm => h m (by simp [hm])
    · rfl
  | c :: d :: rest, h => by
    unfold locateAmong
    split
    · split
      · exact locateAmong_eq_none_of_ids i (d :: rest) fun m hm => h m (by simp_all)
      · exact locate_eq_none_of_ids i c fun m hm => h m (by simp [hm])
    · rfl

end

end YamlEdit.Node
