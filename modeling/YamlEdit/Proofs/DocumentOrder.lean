import YamlEdit.Selector
import YamlEdit.Proofs.Forest.WellFormed

/-!
# Lookup and listing in document order

The nodes of a parsed document carry the ids `0, 1, …` up to their number, one each. Lookup by
descent, which tries the trees whose root id does not exceed the id sought and goes down, at
each node, into the last child whose id does not exceed it, therefore finds the node a linear
search of all nodes finds, and finds nothing exactly past the last id (`locate_eq_linear`).

Listing is another matter. The nodes sorted by id are the document order, but a flow collection
nested in a flow collection can open a root whose ids fall between the nodes of an earlier tree.
The selector without predicates lists the trees one after the other, each in pre-order: every
node once, in document order exactly when each tree lies wholly before the next root
(`select_empty_lists_trees`).
-/

namespace YamlEdit

open Node

namespace Node

/-- Among nodes with distinct ids, a linear search by id finds the node with that id. -/
theorem find?_id_eq_some_iff {ns : List Node} (hnd : (ns.map Node.id).Nodup) {i : Nat}
    {n : Node} : ns.find? (·.id == i) = some n ↔ n ∈ ns ∧ n.id = i := by
  constructor
  · intro h
    exact ⟨List.mem_of_find?_eq_some h, by simpa using List.find?_some h⟩
  · rintro ⟨hn, rfl⟩
    have hfound : (ns.find? (·.id == n.id)).isSome := List.find?_isSome.2 ⟨n, hn, by simp⟩
    obtain ⟨m, hm⟩ := Option.isSome_iff_exists.1 hfound
    have hmn : m.id = n.id := by simpa using List.find?_some hm
    rw [hm, List.inj_on_of_nodup_map hnd (List.mem_of_find?_eq_some hm) hn hmn]

/-- Trees that each have an increasing pre-order, and each lie wholly before the next root, have
an increasing pre-order together. -/
theorem orderedAll_of_pairwise : ∀ {ns : List Node}, (∀ n ∈ ns, n.Ordered) →
    ns.Pairwise (fun a b => ∀ m ∈ a.preorder, m.id < b.id) → OrderedAll ns
  | [], _, _ => by simp [OrderedAll]
  | n :: ns, hord, hpw => by
    obtain ⟨hn, hrest⟩ := List.pairwise_cons.1 hpw
    refine orderedAll_cons.2 ⟨hord n List.mem_cons_self,
      orderedAll_of_pairwise (fun r hr => hord r (List.mem_cons_of_mem n hr)) hrest, ?_⟩
    intro a ha b hb
    -- `b` lies in the tree of a later root `r`, whose root id is its least
    obtain ⟨r, hr, hbr⟩ := mem_preorderAll.1 hb
    exact Nat.lt_of_lt_of_le (hn r hr a ha)
      ((hord r (List.mem_cons_of_mem n hr)).root_le b hbr)

/-- Trees that each have an increasing pre-order have one together exactly when each lies wholly
before the next root. -/
theorem orderedAll_iff_pairwise {ns : List Node} (hord : ∀ n ∈ ns, n.Ordered) :
    OrderedAll ns ↔ ns.Pairwise fun a b => ∀ m ∈ a.preorder, m.id < b.id :=
  ⟨OrderedAll.pairwise, orderedAll_of_pairwise hord⟩

end Node

/-- Sorting by a key that no two elements share leaves the keys strictly increasing. -/
theorem pairwise_lt_mergeSort {α : Type} (key : α → Nat) {l : List α} (hnd : (l.map key).Nodup) :
    ((l.mergeSort fun a b => key a ≤ key b).map key).Pairwise (· < ·) := by
  have hle : (l.mergeSort fun a b => key a ≤ key b).Pairwise fun a b => decide (key a ≤ key b) :=
    List.pairwise_mergeSort (fun a b c hab hbc => by simp only [decide_eq_true_eq] at *; omega)
      (fun a b => by simp only [Bool.or_eq_true, decide_eq_true_eq]; omega) l
  have hne : (l.mergeSort fun a b => key a ≤ key b).Pairwise fun a b => key a ≠ key b :=
    List.pairwise_map.1 (((List.mergeSort_perm l _).map key).nodup_iff.2 hnd)
  exact List.pairwise_map.2 ((hle.and hne).imp fun ⟨hab, hne⟩ => by
    simp only [decide_eq_true_eq] at hab
    omega)

namespace Document

/-- Lookup by descent in trees with increasing pre-order tries the same trees as the search in
pre-order, with the same outcome in each. -/
theorem findSome?_locate {i : Nat} : ∀ {rs : List Node}, (∀ r ∈ rs, r.Ordered) →
    rs.findSome? (fun r => r.locate i) = rs.findSome? (fun r => r.find? i)
  | [], _ => rfl
  | r :: rs, h => by
    rw [List.findSome?_cons, List.findSome?_cons, locate_eq_find? i r (h r List.mem_cons_self),
      findSome?_locate fun s hs => h s (List.mem_cons_of_mem r hs)]

section Searchable

variable {d : Document} (hs : Searchable d.roots)
include hs

theorem descent_eq_find? (i : Nat) : d.locate i = d.find? i :=
  findSome?_locate fun r hr => hs.ordered r ((List.takeWhile_sublist _).subset hr)

/-- In a searchable forest, lookup finds what a linear search of all nodes finds. -/
theorem find?_eq_linear (i : Nat) : d.find? i = (preorderAll d.roots).find? (·.id == i) := by
  apply Option.ext
  intro n
  rw [find?_eq_some_iff hs, find?_id_eq_some_iff hs.nodup]

end Searchable

/-- The ids of a parsed document's nodes are the numbers below the node count. -/
theorem exists_id_iff {rule : IndentRule} {text : String} {d : Document}
    (h : Document.parse rule text = .ok d) (i : Nat) :
    (∃ n ∈ preorderAll d.roots, n.id = i) ↔ i < (preorderAll d.roots).length := by
  obtain ⟨-, hroots, -⟩ := scan_of_parse h
  have ha := Forest.parse_assembledFrom d.lines
  rw [← hroots] at ha
  have hperm : ((preorderAll d.roots).map Node.id).Perm
      (List.range (Forest.placements d.lines).length) :=
    (List.perm_ext_iff_of_nodup ha.searchable.nodup List.nodup_range).2 fun y => by
      rw [ha.ids, List.mem_range]
  have hlen := hperm.length_eq
  rw [List.length_map, List.length_range] at hlen
  rw [← List.mem_map, ha.ids, hlen]

/-- Lookup by descent in a parsed document finds what a search of each tree in pre-order and a
linear search of all nodes find: the node with the id sought. It finds nothing exactly when the
id is at least the number of nodes. -/
theorem locate_eq_linear {rule : IndentRule} {text : String} {d : Document}
    (h : Document.parse rule text = .ok d) (i : Nat) :
    d.locate i = (preorderAll d.roots).find? (·.id == i) ∧
      d.find? i = (preorderAll d.roots).find? (·.id == i) ∧
      (∀ n, d.locate i = some n ↔ n ∈ preorderAll d.roots ∧ n.id = i) ∧
      (d.locate i = none ↔ (preorderAll d.roots).length ≤ i) := by
  have hs := (parse_parsed h).searchable
  have hfind := find?_eq_linear hs i
  have hlocate : d.locate i = (preorderAll d.roots).find? (·.id == i) := by
    rw [descent_eq_find? hs, hfind]
  have hsome : ∀ n, d.locate i = some n ↔ n ∈ preorderAll d.roots ∧ n.id = i := fun n => by
    rw [hlocate, find?_id_eq_some_iff hs.nodup]
  refine ⟨hlocate, hfind, hsome, ?_⟩
  rw [← Nat.not_lt, ← exists_id_iff h, Option.eq_none_iff_forall_ne_some]
  simp only [ne_eq, hsome, not_exists, not_and]

/-- In the document whose flow mappings open a root between the nodes of the first tree, lookup
by descent finds `d` (id 4) on line 2 and nothing at id 6, past the last node. -/
theorem locate_eq_linear_interleaved : ∃ d, Document.parse {} "a: {b: {c: 1}}\n  d: 2" = .ok d ∧
    (d.locate 4).map (·.entry.startLine) = some 2 ∧ d.locate 6 = none := by
  obtain ⟨d, hd⟩ := parse_ok_of_isSome
    (by decide : (Document.parse {} "a: {b: {c: 1}}\n  d: 2").toOption.isSome = true)
  have hfour : (Document.parse {} "a: {b: {c: 1}}\n  d: 2").toOption.map (fun d =>
      ((preorderAll d.roots).find? (·.id == 4)).map (·.entry.startLine)) = some (some 2) := by
    decide +kernel
  have hcount : (Document.parse {} "a: {b: {c: 1}}\n  d: 2").toOption.map (fun d =>
      (preorderAll d.roots).length) = some 6 := by
    decide +kernel
  rw [hd] at hfour hcount
  simp only [Except.toOption, Option.map_some, Option.some.injEq] at hfour hcount
  refine ⟨d, hd, ?_, ?_⟩
  · rw [(locate_eq_linear hd 4).1, hfour]
  · exact (locate_eq_linear hd 6).2.2.2.2 (by omega)

/-- The nodes sorted by id are the pre-order of the trees exactly when that pre-order is
increasing in id. -/
theorem descendants_eq_iff {d : Document} (hs : Searchable d.roots) :
    d.descendants = preorderAll d.roots ↔ OrderedAll d.roots := by
  unfold descendants OrderedAll
  constructor
  · intro heq
    have hlt := pairwise_lt_mergeSort Node.id hs.nodup
    rwa [heq] at hlt
  · intro hlt
    exact List.mergeSort_of_pairwise (List.pairwise_map.1 hlt |>.imp fun hab => by
      simp only [decide_eq_true_eq]
      omega)

end Document

namespace Selector

/-- The selector without predicates lists every node of a parsed document exactly once, tree
after tree in pre-order. That is a reordering of the nodes sorted by id, and it is that order
exactly when each tree lies wholly before the next root, which a flow collection opening a root
inside an earlier tree breaks. -/
theorem select_empty_lists_trees {rule : IndentRule} {text : String} {d : Document}
    (h : Document.parse rule text = .ok d) :
    Selector.select {} d.roots = preorderAll d.roots ∧
      ((Selector.select {} d.roots).map Node.id).Nodup ∧
      (Selector.select {} d.roots).Perm d.descendants ∧
      (Selector.select {} d.roots = d.descendants ↔
        d.roots.Pairwise fun a b => ∀ m ∈ a.preorder, m.id < b.id) := by
  have hs := (Document.parse_parsed h).searchable
  have hselect : Selector.select {} d.roots = preorderAll d.roots := rfl
  rw [hselect]
  refine ⟨rfl, hs.nodup, (List.mergeSort_perm _ _).symm, ?_⟩
  rw [eq_comm, Document.descendants_eq_iff hs, orderedAll_iff_pairwise hs.ordered]

/-- The document whose flow mappings open the root `c` between `b` and `d`, both of `a`: the
selector without predicates lists `d` and its value before `c`, out of id order. -/
theorem select_empty_lists_trees_interleaved :
    ∃ d, Document.parse {} "a: {b: {c: 1}}\n  d: 2" = .ok d ∧
      (Selector.select {} d.roots).map Node.id = [0, 1, 4, 5, 2, 3] ∧
      Selector.select {} d.roots ≠ d.descendants := by
  obtain ⟨d, hd⟩ := Document.parse_ok_of_isSome
    (by decide : (Document.parse {} "a: {b: {c: 1}}\n  d: 2").toOption.isSome = true)
  have hids : (Document.parse {} "a: {b: {c: 1}}\n  d: 2").toOption.map (fun d =>
      (preorderAll d.roots).map Node.id) = some [0, 1, 4, 5, 2, 3] := by
    decide +kernel
  have hapart : (Document.parse {} "a: {b: {c: 1}}\n  d: 2").toOption.map (fun d =>
      decide (d.roots.Pairwise fun a b => ∀ m ∈ a.preorder, m.id < b.id)) = some false := by
    decide +kernel
  rw [hd] at hids hapart
  simp only [Except.toOption, Option.map_some, Option.some.injEq, decide_eq_false_iff_not] at hids hapart
  obtain ⟨hselect, -, -, horder⟩ := select_empty_lists_trees hd
  exact ⟨d, hd, by rw [hselect, hids], fun heq => hapart (horder.1 heq)⟩

end Selector

end YamlEdit
