import Mathlib.Data.Set.Defs
import YamlEdit.Proofs.DocumentOrder

/-!
# Selection with predicates follows the staged set semantics

A selector narrows the forest in five stages, each over the set the one before produced: the
children of the named parents, the children of the parents named at a depth, the nodes named at
a depth, the nodes matching a name, and the nodes containing a fragment. `Selector.staged` states
these stages on sets of nodes, with depths as distances from the roots (`Node.Reaches`) and no
limit on how deep a stage looks.

Selection runs the stages on lists of visits, each a node with its depth. The invariant
`Represents` ties a list to a set: every visit carries its node's depth, the visited nodes are the
set, and the ids increase. Walking the subtrees of a represented set visits exactly the nodes
below it with their depths; a stage that asks for depths stops below the deepest one it asks for,
where its predicate holds of nothing, so the limit changes nothing; and sorting the first visit of
each node by id gives back a represented set. Hence every stage keeps the invariant
(`Represents.byParents` to `Represents.byFragments`), and a selector with a predicate selects
exactly the staged set, sorted by id (`select_eq_staged`).
-/

namespace YamlEdit

open Node

namespace Node

/-- `n.Reaches m k`: the node `m` stands `k` levels below `n` in `n`'s tree. -/
inductive Reaches : Node → Node → Nat → Prop where
  /-- A node stands no level below itself. -/
  | refl (n : Node) : Reaches n n 0
  /-- What stands below a child stands one level further below its parent. -/
  | child {n c m : Node} {k : Nat} : c ∈ n.children → Reaches c m k → Reaches n m (k + 1)

theorem reaches_iff {n m : Node} {k : Nat} :
    n.Reaches m k ↔ (m = n ∧ k = 0) ∨ ∃ c ∈ n.children, ∃ j, c.Reaches m j ∧ k = j + 1 := by
  constructor
  · rintro (_ | ⟨hc, hcm⟩)
    · exact .inl ⟨rfl, rfl⟩
    · exact .inr ⟨_, hc, _, hcm, rfl⟩
  · rintro (⟨rfl, rfl⟩ | ⟨c, hc, j, hcj, rfl⟩)
    · exact .refl _
    · exact .child hc hcj

theorem Reaches.trans {n m p : Node} {k j : Nat} (hnm : n.Reaches m k) (hmp : m.Reaches p j) :
    n.Reaches p (j + k) := by
  induction hnm with
  | refl => exact hmp
  | child hc _ ih => exact .child hc (ih hmp)

theorem Reaches.snoc {n m c : Node} {k : Nat} (h : n.Reaches m k) (hc : c ∈ m.children) :
    n.Reaches c (k + 1) := by
  induction h with
  | refl => exact .child hc (.refl c)
  | child hn _ ih => exact .child hn (ih hc)

theorem Reaches.mem_preorder {n m : Node} {k : Nat} (h : n.Reaches m k) : m ∈ n.preorder := by
  induction h with
  | refl => exact mem_preorder_self _
  | @child n c m k hc _ ih =>
    obtain ⟨e, cs⟩ := n
    rw [preorder_mk]
    exact List.mem_cons_of_mem _ (mem_preorderAll.2 ⟨c, hc, ih⟩)

end Node

namespace Selection

/-! ## The staged sets -/

/-- `Depth roots m k`: the node `m` stands `k` levels below a root of the forest. -/
def Depth (roots : List Node) (m : Node) (k : Nat) : Prop :=
  ∃ r ∈ roots, r.Reaches m k

/-- The nodes of the subtrees rooted in `W`. -/
def subtrees (W : Set Node) : Set Node :=
  {m | ∃ w ∈ W, ∃ k, w.Reaches m k}

/-- The children of the nodes of `W` that satisfy `P`. -/
def childrenWhere (W : Set Node) (P : Node → Prop) : Set Node :=
  {c | ∃ m ∈ W, P m ∧ c ∈ m.children}

/-- A stage: `f W`, or `W` itself when the stage has no predicates. -/
def stageSet {α : Type} (ps : List α) (f : Set Node → Set Node) (W : Set Node) : Set Node :=
  if ps = [] then W else f W

end Selection

namespace Selector

open Selection

/-- What a selector picks, stage by stage, as sets of nodes of the forest `roots`: the roots;
the children of the nodes below them literally named as a parent; the children of the nodes
below those named literally as a parent at their depth; the nodes below those matching a name
at their depth; the nodes below those matching a name; the nodes below those whose literal name
contains a fragment. A stage without predicates passes its set on. -/
def staged (s : Selector) (roots : List Node) : Set Node :=
  let w0 : Set Node := {r | r ∈ roots}
  let w1 := stageSet s.parents (fun W => childrenWhere (subtrees W)
    fun m => m.entry.name ∈ s.parents) w0
  let w2 := stageSet s.parentsAtLevel (fun W => childrenWhere (subtrees W)
    fun m => ∃ p ∈ s.parentsAtLevel, m.entry.name = p.1 ∧ Depth roots m p.2) w1
  let w3 := stageSet s.namesAtLevel (fun W => {m | m ∈ subtrees W ∧
    ∃ p ∈ s.namesAtLevel, Depth roots m p.2 ∧ m.entry.matchesName p.1 = true}) w2
  let w4 := stageSet s.names (fun W => {m | m ∈ subtrees W ∧
    ∃ n ∈ s.names, m.entry.matchesName n = true}) w3
  stageSet s.fragments (fun W => {m | m ∈ subtrees W ∧
    ∃ f ∈ s.fragments, f.toList <:+: m.entry.name.toList}) w4

end Selector

/-- The substring test is the infix relation on characters. -/
theorem hasInfix_iff (needle : List Char) : ∀ hay : List Char,
    hasInfix needle hay = true ↔ needle <:+: hay
  | [] => by simp [hasInfix]
  | c :: cs => by
    rw [hasInfix, Bool.or_eq_true, List.isPrefixOf_iff_prefix, hasInfix_iff needle cs,
      List.infix_cons_iff]

namespace Selection

/-! ## Walking the working subtrees -/

theorem isBelow_of_le {limit : Option Nat} {d d' : Nat} (h : isBelow limit d = true)
    (hle : d ≤ d') : isBelow limit d' = true := by
  cases limit with
  | none => cases h
  | some l =>
    simp only [isBelow, decide_eq_true_eq] at h ⊢
    omega

mutual

/-- A walk from a node at depth `d` visits the nodes of its tree with their depths, down to the
limit. -/
theorem mem_walkNode (limit : Option Nat) : ∀ (d : Nat) (n : Node) (v : Visit),
    v ∈ walkNode limit d n ↔
      ∃ k, n.Reaches v.node k ∧ v.depth = d + k ∧ isBelow limit v.depth = false
  | d, ⟨e, cs⟩, v => by
    rw [walkNode]
    split
    · rename_i hbelow
      simp only [List.not_mem_nil, false_iff, not_exists, not_and]
      intro k _ hd
      rw [hd, isBelow_of_le hbelow (Nat.le_add_right d k)]
      simp
    · rename_i hbelow
      rw [List.mem_cons, mem_walkAll limit (d + 1) cs v]
      constructor
      · rintro (rfl | ⟨c, hc, k, hck, hd, hb⟩)
        · exact ⟨0, .refl _, rfl, by simpa using hbelow⟩
        · exact ⟨k + 1, .child hc hck, by omega, hb⟩
      · rintro ⟨k, hk, hd, hb⟩
        rcases reaches_iff.1 hk with ⟨hm, rfl⟩ | ⟨c, hc, j, hcj, rfl⟩
        · obtain ⟨m, dv⟩ := v
          simp only at hm hd
          exact .inl (by rw [hm, hd]; rfl)
        · exact .inr ⟨c, hc, j, hcj, by omega, hb⟩

/-- A walk from trees at depth `d` visits the nodes of each with their depths, down to the
limit. -/
theorem mem_walkAll (limit : Option Nat) : ∀ (d : Nat) (ns : List Node) (v : Visit),
    v ∈ walkAll limit d ns ↔
      ∃ n ∈ ns, ∃ k, n.Reaches v.node k ∧ v.depth = d + k ∧ isBelow limit v.depth = false
  | _, [], v => by simp [walkAll]
  | d, n :: ns, v => by
    rw [walkAll, List.mem_append, mem_walkNode limit d n v, mem_walkAll limit d ns v]
    simp only [List.mem_cons, exists_eq_or_imp]

end

mutual

/-- Without a limit, a walk visits the whole tree in pre-order. -/
theorem map_node_walkNode : ∀ (d : Nat) (n : Node),
    (walkNode none d n).map Visit.node = n.preorder
  | d, ⟨e, cs⟩ => by
    rw [walkNode, if_neg (by simp [isBelow]), List.map_cons, map_node_walkAll (d + 1) cs,
      preorder_mk]

theorem map_node_walkAll : ∀ (d : Nat) (ns : List Node),
    (walkAll none d ns).map Visit.node = preorderAll ns
  | _, [] => by simp [walkAll]
  | d, n :: ns => by
    rw [walkAll, List.map_append, map_node_walkNode d n, map_node_walkAll d ns, preorderAll_cons]

end

theorem mem_walk {limit : Option Nat} {W : List Visit} {v : Visit} :
    v ∈ walk limit W ↔
      ∃ w ∈ W, ∃ k, w.node.Reaches v.node k ∧ v.depth = w.depth + k ∧
        isBelow limit v.depth = false := by
  simp only [walk, List.mem_flatMap, mem_walkNode]

section Depth

variable {roots : List Node} {m p : Node} {k j : Nat}

theorem Depth.mem (h : Depth roots m k) : m ∈ preorderAll roots := by
  obtain ⟨r, hr, hrm⟩ := h
  exact mem_preorderAll.2 ⟨r, hr, hrm.mem_preorder⟩

theorem Depth.reaches (h : Depth roots m k) (hmp : m.Reaches p j) : Depth roots p (j + k) := by
  obtain ⟨r, hr, hrm⟩ := h
  exact ⟨r, hr, hrm.trans hmp⟩

theorem Depth.child (h : Depth roots m k) (hc : p ∈ m.children) : Depth roots p (k + 1) := by
  obtain ⟨r, hr, hrm⟩ := h
  exact ⟨r, hr, hrm.snoc hc⟩

/-- In a forest without an id twice, a node has one depth. -/
theorem Depth.unique (hnd : ((preorderAll roots).map Node.id).Nodup) {m : Node} {k k' : Nat}
    (hk : Depth roots m k) (hk' : Depth roots m k') : k = k' := by
  -- both depths are visits of the unlimited walk, whose node ids are distinct
  have hvisit : ∀ {j}, Depth roots m j → (⟨m, j⟩ : Visit) ∈ walkAll none 0 roots := by
    rintro j ⟨r, hr, hrm⟩
    exact (mem_walkAll none 0 roots _).2 ⟨r, hr, j, hrm, by simp, rfl⟩
  have hids : ((walkAll none 0 roots).map fun v => v.node.id).Nodup := by
    have hmap : (walkAll none 0 roots).map (fun v => v.node.id) =
        ((walkAll none 0 roots).map Visit.node).map Node.id := by
      rw [List.map_map]
      rfl
    rw [hmap, map_node_walkAll]
    exact hnd
  have heq := List.inj_on_of_nodup_map hids (hvisit hk) (hvisit hk') rfl
  exact (Visit.mk.inj heq).2

/-- Two nodes of a forest without an id twice are one when their ids are. -/
theorem Depth.eq_of_id (hnd : ((preorderAll roots).map Node.id).Nodup) {m m' : Node} {k k' : Nat}
    (hk : Depth roots m k) (hk' : Depth roots m' k') (hid : m.id = m'.id) : m = m' :=
  List.inj_on_of_nodup_map hnd hk.mem hk'.mem hid

end Depth

/-! ## One visit per node, sorted by id -/

theorem mem_of_mem_keepFirst : ∀ {seen : List Nat} {vs : List Visit} {v : Visit},
    v ∈ keepFirst seen vs → v ∈ vs ∧ v.node.id ∉ seen
  | _, [], _, h => by simp [keepFirst] at h
  | seen, u :: us, v, h => by
    unfold keepFirst at h
    split at h
    · have := mem_of_mem_keepFirst h
      exact ⟨List.mem_cons_of_mem u this.1, this.2⟩
    · rename_i hu
      rcases List.mem_cons.1 h with rfl | h
      · exact ⟨List.mem_cons_self, by simpa using hu⟩
      · have := mem_of_mem_keepFirst h
        exact ⟨List.mem_cons_of_mem u this.1, fun hs => this.2 (List.mem_cons_of_mem _ hs)⟩

theorem exists_mem_keepFirst : ∀ {seen : List Nat} {vs : List Visit} {v : Visit},
    v ∈ vs → v.node.id ∉ seen → ∃ v' ∈ keepFirst seen vs, v'.node.id = v.node.id
  | _, [], _, h, _ => by cases h
  | seen, u :: us, v, h, hv => by
    unfold keepFirst
    split
    · rename_i hu
      have hvu : v ≠ u := fun hvu => hv (by rw [hvu]; simpa using hu)
      exact exists_mem_keepFirst ((List.mem_cons.1 h).resolve_left hvu) hv
    · by_cases hid : v.node.id = u.node.id
      · exact ⟨u, List.mem_cons_self, hid.symm⟩
      · rcases List.mem_cons.1 h with rfl | h
        · exact absurd rfl hid
        · have hnew : v.node.id ∉ u.node.id :: seen := by simp [hid, hv]
          obtain ⟨v', hv', hid'⟩ := exists_mem_keepFirst h hnew
          exact ⟨v', List.mem_cons_of_mem u hv', hid'⟩

theorem keepFirst_nodup : ∀ (seen : List Nat) (vs : List Visit),
    ((keepFirst seen vs).map fun v => v.node.id).Nodup
  | _, [] => by simp [keepFirst]
  | seen, u :: us => by
    unfold keepFirst
    split
    · exact keepFirst_nodup seen us
    · rw [List.map_cons, List.nodup_cons]
      refine ⟨fun hu => ?_, keepFirst_nodup _ us⟩
      obtain ⟨w, hw, hwu⟩ := List.mem_map.1 hu
      exact (mem_of_mem_keepFirst hw).2 (by rw [hwu]; exact List.mem_cons_self)

theorem mem_of_mem_normalize {vs : List Visit} {v : Visit} (h : v ∈ normalize vs) : v ∈ vs :=
  (mem_of_mem_keepFirst (List.mem_mergeSort.1 h)).1

theorem exists_mem_normalize {vs : List Visit} {v : Visit} (h : v ∈ vs) :
    ∃ v' ∈ normalize vs, v'.node.id = v.node.id := by
  obtain ⟨v', hv', hid⟩ := exists_mem_keepFirst h (List.not_mem_nil)
  exact ⟨v', List.mem_mergeSort.2 hv', hid⟩

theorem normalize_sorted (vs : List Visit) :
    ((normalize vs).map fun v => v.node.id).Pairwise (· < ·) :=
  pairwise_lt_mergeSort (fun v : Visit => v.node.id) (keepFirst_nodup [] vs)

/-! ## The invariant of the stages -/

/-- A list of visits stands for a set of nodes of the forest: every visit carries its node's
depth, the visited nodes are the set, and the ids increase along the list. -/
structure Represents (roots : List Node) (W : List Visit) (S : Set Node) : Prop where
  depth : ∀ v ∈ W, Depth roots v.node v.depth
  nodes : ∀ n, n ∈ S ↔ ∃ v ∈ W, v.node = n
  sorted : (W.map fun v => v.node.id).Pairwise (· < ·)

section Stages

variable {roots : List Node} {W : List Visit} {S : Set Node}

theorem represents_roots (hsorted : (roots.map Node.id).Pairwise (· < ·)) :
    Represents roots (roots.map fun r => ⟨r, 0⟩) {r | r ∈ roots} where
  depth v hv := by
    obtain ⟨r, hr, rfl⟩ := List.mem_map.1 hv
    exact ⟨r, hr, .refl r⟩
  nodes n := by
    constructor
    · intro hn
      exact ⟨⟨n, 0⟩, List.mem_map_of_mem hn, rfl⟩
    · rintro ⟨v, hv, rfl⟩
      obtain ⟨r, hr, rfl⟩ := List.mem_map.1 hv
      exact hr
  sorted := by
    rw [List.map_map]
    exact hsorted

/-- Walking the subtrees of a represented set visits the nodes below it with their depths. -/
theorem Represents.mem_walk (h : Represents roots W S) {limit : Option Nat} {v : Visit}
    (hv : v ∈ walk limit W) : v.node ∈ subtrees S ∧ Depth roots v.node v.depth := by
  obtain ⟨w, hw, k, hwk, hd, -⟩ := Selection.mem_walk.1 hv
  refine ⟨⟨w.node, (h.nodes _).2 ⟨w, hw, rfl⟩, k, hwk⟩, ?_⟩
  rw [hd, Nat.add_comm]
  exact (h.depth w hw).reaches hwk

/-- Every node below a represented set is visited, at its depth, by a walk whose limit does not
cut it off. -/
theorem Represents.walk_of_subtrees (h : Represents roots W S) {m : Node} (hm : m ∈ subtrees S) :
    ∃ k, Depth roots m k ∧ ∀ limit, isBelow limit k = false → (⟨m, k⟩ : Visit) ∈ walk limit W := by
  obtain ⟨n, hn, j, hnm⟩ := hm
  obtain ⟨w, hw, rfl⟩ := (h.nodes n).1 hn
  refine ⟨w.depth + j, by rw [Nat.add_comm]; exact (h.depth w hw).reaches hnm, ?_⟩
  intro limit hlim
  exact Selection.mem_walk.2 ⟨w, hw, j, hnm, rfl, hlim⟩

variable (hnd : ((preorderAll roots).map Node.id).Nodup)
include hnd

/-- A matching stage keeps the invariant: it stands for the nodes below the set that satisfy the
stage's predicate, when the predicate on visits reads the predicate on nodes and holds of no
visit the limit cuts off. -/
theorem Represents.matching (h : Represents roots W S) {p : Visit → Bool} {P : Node → Prop}
    {limit : Option Nat} (hp : ∀ v, Depth roots v.node v.depth → (p v = true ↔ P v.node))
    (hlim : ∀ v, p v = true → isBelow limit v.depth = false) :
    Represents roots (Selection.matching p limit W) {m | m ∈ subtrees S ∧ P m} where
  depth v hv := (h.mem_walk (List.mem_filter.1 (mem_of_mem_normalize hv)).1).2
  nodes m := by
    constructor
    · rintro ⟨hm, hPm⟩
      obtain ⟨k, hk, hwalk⟩ := h.walk_of_subtrees hm
      have hpk : p ⟨m, k⟩ = true := (hp ⟨m, k⟩ hk).2 hPm
      obtain ⟨v', hv', hid⟩ := exists_mem_normalize
        (List.mem_filter.2 ⟨hwalk limit (hlim _ hpk), hpk⟩)
      have hdv' := (h.mem_walk (List.mem_filter.1 (mem_of_mem_normalize hv')).1).2
      exact ⟨v', hv', Depth.eq_of_id hnd hdv' hk hid⟩
    · rintro ⟨v, hv, rfl⟩
      obtain ⟨hwalk, hpv⟩ := List.mem_filter.1 (mem_of_mem_normalize hv)
      obtain ⟨hsub, hdepth⟩ := h.mem_walk hwalk
      exact ⟨hsub, (hp v hdepth).1 hpv⟩
  sorted := normalize_sorted _

/-- A children stage keeps the invariant: it stands for the children of the nodes below the set
that satisfy the stage's predicate, under the same conditions. -/
theorem Represents.childrenOf (h : Represents roots W S) {p : Visit → Bool} {P : Node → Prop}
    {limit : Option Nat} (hp : ∀ v, Depth roots v.node v.depth → (p v = true ↔ P v.node))
    (hlim : ∀ v, p v = true → isBelow limit v.depth = false) :
    Represents roots (Selection.childrenOf p limit W) (childrenWhere (subtrees S) P) := by
  have hchild : ∀ {v : Visit}, v ∈ ((walk limit W).filter p).flatMap (fun u =>
      u.node.children.map fun c => (⟨c, u.depth + 1⟩ : Visit)) →
      ∃ u : Visit, u.node ∈ subtrees S ∧ Depth roots u.node u.depth ∧ P u.node ∧
        v.node ∈ u.node.children ∧ v.depth = u.depth + 1 := by
    intro v hv
    obtain ⟨u, hu, hvu⟩ := List.mem_flatMap.1 hv
    obtain ⟨hwalk, hpu⟩ := List.mem_filter.1 hu
    obtain ⟨c, hc, rfl⟩ := List.mem_map.1 hvu
    obtain ⟨hsub, hdepth⟩ := h.mem_walk hwalk
    exact ⟨u, hsub, hdepth, (hp u hdepth).1 hpu, hc, rfl⟩
  refine ⟨fun v hv => ?_, fun c => ⟨?_, ?_⟩, normalize_sorted _⟩
  · obtain ⟨u, -, hdepth, -, hc, hd⟩ := hchild (mem_of_mem_normalize hv)
    rw [hd]
    exact hdepth.child hc
  · rintro ⟨m, hm, hPm, hc⟩
    obtain ⟨k, hk, hwalk⟩ := h.walk_of_subtrees hm
    have hpk : p ⟨m, k⟩ = true := (hp ⟨m, k⟩ hk).2 hPm
    have hmem : (⟨c, k + 1⟩ : Visit) ∈ ((walk limit W).filter p).flatMap (fun u =>
        u.node.children.map fun c => (⟨c, u.depth + 1⟩ : Visit)) :=
      List.mem_flatMap.2 ⟨⟨m, k⟩, List.mem_filter.2 ⟨hwalk limit (hlim _ hpk), hpk⟩,
        List.mem_map.2 ⟨c, hc, rfl⟩⟩
    obtain ⟨v', hv', hid⟩ := exists_mem_normalize hmem
    obtain ⟨u, -, hdepth, -, hc', hd⟩ := hchild (mem_of_mem_normalize hv')
    have hdv' : Depth roots v'.node v'.depth := by
      rw [hd]
      exact hdepth.child hc'
    exact ⟨v', hv', Depth.eq_of_id hnd hdv' (hk.child hc) hid⟩
  · rintro ⟨v, hv, rfl⟩
    obtain ⟨u, hsub, -, hPu, hc, -⟩ := hchild (mem_of_mem_normalize hv)
    exact ⟨u.node, hsub, hPu, hc⟩

omit hnd in
theorem Represents.stage {α : Type} (ps : List α) {run : List Visit → List Visit}
    {f : Set Node → Set Node} (h : Represents roots W S) (hrun : Represents roots (run W) (f S)) :
    Represents roots (Selection.stage ps run W) (stageSet ps f S) := by
  unfold Selection.stage stageSet
  cases ps with
  | nil => simpa using h
  | cons q qs => simpa using hrun

/-! ## The five stages -/

/-- A visit at its node's depth stands at a depth `l` exactly when `l` is its depth. -/
theorem depth_eq_iff {v : Visit} (hv : Depth roots v.node v.depth) (l : Nat) :
    v.depth = l ↔ Depth roots v.node l :=
  ⟨fun h => h ▸ hv, fun hl => Depth.unique hnd hv hl⟩

omit hnd in
/-- The deepest depth asked for lies at or above every depth asked for. -/
theorem isBelow_limitOf {ps : List (String × Nat)} {q : String × Nat} (hq : q ∈ ps) :
    isBelow (limitOf ps) q.2 = false := by
  unfold limitOf
  cases hmax : (ps.map Prod.snd).max? with
  | none => rfl
  | some l =>
    have hle := (List.max?_eq_some_iff.1 hmax).2 q.2 (List.mem_map_of_mem hq)
    simp only [isBelow, decide_eq_false_iff_not, Nat.not_lt]
    exact hle

omit hnd in
/-- A visit at one of the depths asked for is not cut off by the deepest of them. -/
theorem isBelow_limitOf_any {ps : List (String × Nat)} {v : Visit} {X : String × Nat → Bool}
    (hv : (ps.any fun p => v.depth == p.2 && X p) = true) :
    isBelow (limitOf ps) v.depth = false := by
  obtain ⟨q, hq, hqv⟩ := List.any_eq_true.1 hv
  simp only [Bool.and_eq_true, beq_iff_eq] at hqv
  rw [hqv.1]
  exact isBelow_limitOf hq

theorem Represents.byParents (h : Represents roots W S) (names : List String) :
    Represents roots
      (Selection.stage names (Selection.childrenOf
        (fun v => names.contains v.node.entry.name) none) W)
      (stageSet names (fun W => childrenWhere (subtrees W)
        fun m => m.entry.name ∈ names) S) :=
  h.stage names (h.childrenOf hnd (fun _ _ => List.contains_iff_mem) fun _ _ => rfl)

theorem Represents.byParentsAtLevel (h : Represents roots W S) (ps : List (String × Nat)) :
    Represents roots
      (Selection.stage ps (Selection.childrenOf (fun v => ps.any fun p =>
        v.depth == p.2 && v.node.entry.name == p.1) (limitOf ps)) W)
      (stageSet ps (fun W => childrenWhere (subtrees W)
        fun m => ∃ p ∈ ps, m.entry.name = p.1 ∧ Depth roots m p.2) S) := by
  refine h.stage ps (h.childrenOf hnd (fun v hv => ?_) fun _ hv => isBelow_limitOf_any hv)
  simp only [List.any_eq_true, Bool.and_eq_true, beq_iff_eq]
  exact exists_congr fun p => and_congr_right fun _ => by
    rw [depth_eq_iff hnd hv]
    exact and_comm

theorem Represents.byNamesAtLevel (h : Represents roots W S) (ps : List (String × Nat)) :
    Represents roots
      (Selection.stage ps (Selection.matching (fun v => ps.any fun p =>
        v.depth == p.2 && v.node.entry.matchesName p.1) (limitOf ps)) W)
      (stageSet ps (fun W => {m | m ∈ subtrees W ∧
        ∃ p ∈ ps, Depth roots m p.2 ∧ m.entry.matchesName p.1 = true}) S) := by
  refine h.stage ps (h.matching hnd (fun v hv => ?_) fun _ hv => isBelow_limitOf_any hv)
  simp only [List.any_eq_true, Bool.and_eq_true, beq_iff_eq]
  exact exists_congr fun p => and_congr_right fun _ => by rw [depth_eq_iff hnd hv]

theorem Represents.byNames (h : Represents roots W S) (names : List String) :
    Represents roots
      (Selection.stage names (Selection.matching (fun v => names.any fun n =>
        v.node.entry.matchesName n) none) W)
      (stageSet names (fun W => {m | m ∈ subtrees W ∧
        ∃ n ∈ names, m.entry.matchesName n = true}) S) :=
  h.stage names (h.matching hnd (fun _ _ => List.any_eq_true) fun _ _ => rfl)

theorem Represents.byFragments (h : Represents roots W S) (fragments : List String) :
    Represents roots
      (Selection.stage fragments (Selection.matching (fun v => fragments.any fun f =>
        hasInfix f.toList v.node.entry.name.toList) none) W)
      (stageSet fragments (fun W => {m | m ∈ subtrees W ∧
        ∃ f ∈ fragments, f.toList <:+: m.entry.name.toList}) S) := by
  refine h.stage fragments (h.matching hnd (fun v _ => ?_) fun _ _ => rfl)
  simp only [List.any_eq_true, hasInfix_iff]

end Stages

/-- Narrowing a searchable forest stands for the staged set of the selector. -/
theorem narrow_represents {roots : List Node} (hs : Searchable roots) (s : Selector) :
    Represents roots (narrow s roots) (s.staged roots) := by
  unfold narrow Selector.staged
  exact ((((represents_roots hs.sorted |>.byParents hs.nodup s.parents).byParentsAtLevel hs.nodup
    s.parentsAtLevel).byNamesAtLevel hs.nodup s.namesAtLevel).byNames hs.nodup s.names).byFragments
    hs.nodup s.fragments

end Selection

namespace Selector

/-- A selector with at least one predicate selects, from a parsed document, exactly the nodes of
its staged set, each once and sorted by id. -/
theorem select_eq_staged {rule : IndentRule} {text : String} {d : Document}
    (h : Document.parse rule text = .ok d) (s : Selector) (hs : s.isEmpty = false) :
    ((s.select d.roots).map Node.id).Pairwise (· < ·) ∧
      ∀ n, n ∈ s.select d.roots ↔ n ∈ s.staged d.roots := by
  have hr := Selection.narrow_represents (Document.parse_parsed h).searchable s
  have hselect : s.select d.roots = (Selection.narrow s d.roots).map Selection.Visit.node := by
    unfold select
    rw [if_neg (by simp [hs])]
  rw [hselect, List.map_map]
  refine ⟨hr.sorted, fun n => ?_⟩
  rw [hr.nodes n, List.mem_map]

/-- Parents are searched in the whole forest, below nodes already matched too: in `a:\n  a:\n
b: 1`, the children of the nodes named `a` are the inner `a` and `b`, selected by id. -/
theorem select_eq_staged_nested_parents :
    ∃ d, Document.parse {} "a:\n  a:\n    b: 1" = .ok d ∧
      (({} : Selector).withParents ["a"]).isEmpty = false ∧
      (((({} : Selector).withParents ["a"]).select d.roots).map Node.id).Pairwise (· < ·) ∧
      ∀ n, n ∈ (({} : Selector).withParents ["a"]).select d.roots ↔
        n ∈ (({} : Selector).withParents ["a"]).staged d.roots := by
  obtain ⟨d, hd⟩ := Document.parse_ok_of_isSome
    (by decide : (Document.parse {} "a:\n  a:\n    b: 1").toOption.isSome = true)
  have hne : (({} : Selector).withParents ["a"]).isEmpty = false := by decide
  exact ⟨d, hd, hne, select_eq_staged hd _ hne⟩

end Selector

end YamlEdit
