import YamlEdit.Selector
import YamlEdit.Proofs.Relabel

/-!
# Selection reads ids, names and the shape of the forest

A selector looks at a node's id, its name, its depth and its children, and at nothing else of
its entry. Relabelling every entry of a forest in a way that keeps ids and names, as marking
does, therefore relabels the selected nodes the same way: the same nodes are selected, in the
same order (`Selector.select_mapEntries`).
-/

namespace YamlEdit

open Node

namespace Node

mutual

theorem preorder_mapEntries (g : Entry → Entry) :
    ∀ n : Node, preorder (mapEntries g n) = (preorder n).map (mapEntries g)
  | ⟨e, cs⟩ => by
    rw [mapEntries_mk, preorder_mk, preorder_mk, List.map_cons, preorderAll_mapEntries g cs,
      mapEntries_mk]

theorem preorderAll_mapEntries (g : Entry → Entry) :
    ∀ ns : List Node, preorderAll (ns.map (mapEntries g)) = (preorderAll ns).map (mapEntries g)
  | [] => rfl
  | n :: ns => by
    rw [List.map_cons, preorderAll_cons, preorderAll_cons, List.map_append,
      preorder_mapEntries g n, preorderAll_mapEntries g ns]

end

@[simp] theorem children_mapEntries (g : Entry → Entry) (n : Node) :
    (mapEntries g n).children = n.children.map (mapEntries g) := by
  cases n
  simp

end Node

namespace Selection

/-- A visit with its node relabelled. -/
def Visit.relabel (g : Entry → Entry) (v : Visit) : Visit :=
  ⟨mapEntries g v.node, v.depth⟩

@[simp] theorem Visit.relabel_node (g : Entry → Entry) (v : Visit) :
    (v.relabel g).node = mapEntries g v.node := rfl

@[simp] theorem Visit.relabel_depth (g : Entry → Entry) (v : Visit) :
    (v.relabel g).depth = v.depth := rfl

mutual

theorem walkNode_mapEntries (g : Entry → Entry) (limit : Option Nat) :
    ∀ (depth : Nat) (n : Node),
      walkNode limit depth (mapEntries g n) = (walkNode limit depth n).map (Visit.relabel g)
  | depth, ⟨e, cs⟩ => by
    rw [mapEntries_mk, walkNode, walkNode]
    split
    · rfl
    · rw [walkAll_mapEntries g limit (depth + 1) cs, List.map_cons, Visit.relabel, mapEntries_mk]

theorem walkAll_mapEntries (g : Entry → Entry) (limit : Option Nat) :
    ∀ (depth : Nat) (ns : List Node),
      walkAll limit depth (ns.map (mapEntries g)) = (walkAll limit depth ns).map (Visit.relabel g)
  | _, [] => rfl
  | depth, n :: ns => by
    rw [List.map_cons, walkAll, walkAll, List.map_append, walkNode_mapEntries g limit depth n,
      walkAll_mapEntries g limit depth ns]

end

section Relabel

variable {g : Entry → Entry}

theorem walk_relabel (limit : Option Nat) (working : List Visit) :
    walk limit (working.map (Visit.relabel g)) = (walk limit working).map (Visit.relabel g) := by
  simp only [walk, List.flatMap_map, List.map_flatMap, Visit.relabel_node, Visit.relabel_depth,
    walkNode_mapEntries]

/-- A predicate that a relabelling does not change keeps, of relabelled visits, the
relabelled visits it kept. -/
theorem filter_relabel {p : Visit → Bool} (hp : ∀ v, p (v.relabel g) = p v) (vs : List Visit) :
    (vs.map (Visit.relabel g)).filter p = (vs.filter p).map (Visit.relabel g) := by
  rw [List.filter_map]
  congr 2
  funext v
  exact hp v

theorem stage_relabel {α : Type} (ps : List α) {run : List Visit → List Visit}
    (hrun : ∀ w, run (w.map (Visit.relabel g)) = (run w).map (Visit.relabel g))
    (working : List Visit) :
    stage ps run (working.map (Visit.relabel g)) = (stage ps run working).map (Visit.relabel g) := by
  unfold stage
  split
  · rfl
  · exact hrun working

variable (hid : ∀ e, (g e).id = e.id)
include hid

theorem keepFirst_relabel : ∀ (seen : List Nat) (vs : List Visit),
    keepFirst seen (vs.map (Visit.relabel g)) = (keepFirst seen vs).map (Visit.relabel g)
  | _, [] => rfl
  | seen, v :: vs => by
    have hv : (v.relabel g).node.id = v.node.id := by simp [Node.id, hid]
    rw [List.map_cons, keepFirst, keepFirst, hv]
    split
    · exact keepFirst_relabel seen vs
    · rw [keepFirst_relabel (v.node.id :: seen) vs, List.map_cons]

theorem normalize_relabel (vs : List Visit) :
    normalize (vs.map (Visit.relabel g)) = (normalize vs).map (Visit.relabel g) := by
  unfold normalize
  rw [keepFirst_relabel hid, List.map_mergeSort]
  intro a _ b _
  simp only [Visit.relabel_node, Node.id, mapEntries_entry, hid]
  rfl

theorem matching_relabel {p : Visit → Bool} (hp : ∀ v, p (v.relabel g) = p v)
    (limit : Option Nat) (working : List Visit) :
    matching p limit (working.map (Visit.relabel g)) =
      (matching p limit working).map (Visit.relabel g) := by
  unfold matching
  rw [walk_relabel, filter_relabel hp, normalize_relabel hid]

theorem childrenOf_relabel {p : Visit → Bool} (hp : ∀ v, p (v.relabel g) = p v)
    (limit : Option Nat) (working : List Visit) :
    childrenOf p limit (working.map (Visit.relabel g)) =
      (childrenOf p limit working).map (Visit.relabel g) := by
  unfold childrenOf
  rw [walk_relabel, filter_relabel hp, ← normalize_relabel hid]
  simp only [List.flatMap_map, List.map_flatMap, Visit.relabel_node, Visit.relabel_depth,
    children_mapEntries, List.map_map]
  rfl

/-- Narrowing a relabelled forest visits the relabelled nodes, when the relabelling keeps
names. -/
theorem narrow_relabel (hname : ∀ e, (g e).name = e.name) (s : Selector) (roots : List Node) :
    narrow s (roots.map (mapEntries g)) = (narrow s roots).map (Visit.relabel g) := by
  have hstart : (roots.map (mapEntries g)).map (fun r => (⟨r, 0⟩ : Visit)) =
      (roots.map fun r => ⟨r, 0⟩).map (Visit.relabel g) := by
    simp [Visit.relabel]
  -- the stages run innermost first; each predicate reads a visit's depth and name only
  unfold narrow
  dsimp only
  rw [hstart, stage_relabel _ (childrenOf_relabel hid _ none),
    stage_relabel _ (childrenOf_relabel hid _ _), stage_relabel _ (matching_relabel hid _ _),
    stage_relabel _ (matching_relabel hid _ none), stage_relabel _ (matching_relabel hid _ none)]
  all_goals
    intro v
    simp [Entry.matchesName, hname]

end Relabel

end Selection

namespace Selector

variable {g : Entry → Entry} (hid : ∀ e, (g e).id = e.id) (hname : ∀ e, (g e).name = e.name)
include hid hname

/-- From a forest relabelled without a change of ids or names, a selector picks the relabelled
nodes it picks from the forest. -/
theorem select_mapEntries (s : Selector) (roots : List Node) :
    s.select (roots.map (mapEntries g)) = (s.select roots).map (mapEntries g) := by
  unfold select
  split
  · exact preorderAll_mapEntries g roots
  · rw [Selection.narrow_relabel hid hname, List.map_map, List.map_map]
    rfl

/-- So it selects the same ids. -/
theorem map_id_select_mapEntries (s : Selector) (roots : List Node) :
    (s.select (roots.map (mapEntries g))).map Node.id = (s.select roots).map Node.id := by
  rw [select_mapEntries hid hname, List.map_map]
  apply List.map_congr_left
  intro n _
  simp [Node.id, hid]

end Selector

end YamlEdit
