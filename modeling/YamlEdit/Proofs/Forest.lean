import Mathlib.Data.List.Nodup
import YamlEdit.Proofs.Placement
import YamlEdit.Proofs.Tree

/-!
# The assembled forest

`assemble` builds the trees from right to left: every entry collects the finished trees that
name it as parent. When sibling subtrees are apart, as placements guarantee, each tree that
comes out has an increasing pre-order, the roots come out in increasing id order, every entry
becomes exactly one node, and every node keeps its placed entry with the greatest start line of
its subtree as end line.
-/

namespace YamlEdit.Forest

open Node

section Assembly

variable {placed : List (Entry × Option Nat)}

/-- Entry `k` is the top of a tree among the entries from `j` on: its parent, if any, comes
before `j`. -/
def topFrom (placed : List (Entry × Option Nat)) (j k : Nat) : Bool :=
  (parentIn placed k).all (· < j)

/-- A node carries the entry placed with its id, apart from its end line. -/
def Assembled (placed : List (Entry × Option Nat)) (n : Node) : Prop :=
  ∃ p, placed[n.id]? = some p ∧ n.entry = { p.1 with endLine := n.entry.endLine }

/-- A node's end line is the greatest start line of its subtree. -/
def LastLine (n : Node) : Prop :=
  (∀ m ∈ n.preorder, m.entry.startLine ≤ n.entry.endLine) ∧
    ∃ m ∈ n.preorder, m.entry.startLine = n.entry.endLine

/-- What the finished trees satisfy once the entries from `j` on have been gathered. -/
structure Gathered (placed : List (Entry × Option Nat)) (j : Nat)
    (done : List (Option Nat × Node)) : Prop where
  /-- The finished trees are those of the tops from `j` on, in increasing id order. -/
  tops : done.map (·.2.id) = (List.range' j (placed.length - j)).filter (topFrom placed j)
  /-- Each finished tree is tagged with its root's parent. -/
  parent : ∀ d ∈ done, d.1 = parentIn placed d.2.id
  /-- Each finished tree has an increasing pre-order. -/
  ordered : ∀ d ∈ done, d.2.Ordered
  /-- A finished tree holds exactly the entries below its root. -/
  below : ∀ d ∈ done, ∀ y, y ∈ d.2.ids ↔ Descends placed d.2.id y
  /-- Every node carries its placed entry and the last start line of its subtree. -/
  entries : ∀ d ∈ done, ∀ n ∈ d.2.preorder, Assembled placed n ∧ LastLine n

theorem gathered_length : Gathered placed placed.length [] :=
  ⟨by simp, by simp, by simp, by simp, by simp⟩

/-- The largest of a start value and some values: at least each of them, and one of them. -/
theorem foldl_max_spec (g : α → Nat) (xs : List α) (a : Nat) :
    a ≤ xs.foldl (fun m x => max m (g x)) a ∧
      (∀ x ∈ xs, g x ≤ xs.foldl (fun m x => max m (g x)) a) ∧
      (xs.foldl (fun m x => max m (g x)) a = a ∨
        ∃ x ∈ xs, xs.foldl (fun m x => max m (g x)) a = g x) := by
  induction xs generalizing a with
  | nil => simp
  | cons x xs ih =>
    obtain ⟨h1, h2, h3⟩ := ih (max a (g x))
    simp only [List.foldl_cons, List.mem_cons, forall_eq_or_imp, exists_eq_or_imp]
    refine ⟨by omega, ⟨by omega, h2⟩, ?_⟩
    rcases h3 with h3 | ⟨y, hy, h3⟩
    · rw [h3]
      rcases Nat.le_total a (g x) with h | h
      · exact .inr (.inl (Nat.max_eq_right h))
      · exact .inl (Nat.max_eq_left h)
    · exact .inr (.inr ⟨y, hy, h3⟩)

/-- A node whose end line is the largest of its start line and its children's end lines ends at
the last start line of its subtree. -/
theorem lastLine_mk {e : Entry} {kids : List Node} (hkids : ∀ k ∈ kids, LastLine k)
    (he : e.endLine = kids.foldl (fun m k => max m k.entry.endLine) e.startLine) :
    LastLine ⟨e, kids⟩ := by
  obtain ⟨hstart, hkid, hmax⟩ := foldl_max_spec (fun k => k.entry.endLine) kids e.startLine
  rw [← he] at hstart hkid hmax
  refine ⟨?_, ?_⟩
  · intro m hm
    rw [preorder_mk, List.mem_cons] at hm
    rcases hm with rfl | hm
    · exact hstart
    · obtain ⟨k, hk, hmk⟩ := mem_preorderAll.1 hm
      exact Nat.le_trans ((hkids k hk).1 m hmk) (hkid k hk)
  · rcases hmax with h | ⟨k, hk, h⟩
    · exact ⟨⟨e, kids⟩, mem_preorder_self _, h.symm⟩
    · obtain ⟨m, hm, hml⟩ := (hkids k hk).2
      refine ⟨m, ?_, hml.trans h.symm⟩
      exact List.mem_cons_of_mem _ (mem_preorderAll.2 ⟨k, hk, hm⟩)

/-- Children of one entry, in increasing id order and each holding what lies below it, have an
increasing pre-order together: sibling subtrees are apart. -/
theorem orderedAll_of_siblings (hp : ParentsBefore placed) (hap : Apart placed) {j : Nat}
    {kids : List Node} (hsorted : (kids.map Node.id).Pairwise (· < ·))
    (hpar : ∀ k ∈ kids, parentIn placed k.id = some j) (hord : ∀ k ∈ kids, k.Ordered)
    (hbelow : ∀ k ∈ kids, ∀ y, y ∈ k.ids → Descends placed k.id y) : OrderedAll kids := by
  unfold OrderedAll
  rw [preorderAll_eq_flatMap, List.map_flatMap, List.pairwise_flatMap]
  refine ⟨fun k hk => hord k hk, ?_⟩
  rw [List.pairwise_map] at hsorted
  refine hsorted.imp_of_mem fun ha hb hab x hx y hy => ?_
  have hxa : Descends placed _ x := hbelow _ ha x hx
  have hyb : Descends placed _ y := hbelow _ hb y hy
  exact Nat.lt_of_lt_of_le (hap _ _ j x (hpar _ ha) (hpar _ hb) hab hxa) (hyb.le hp)

/-- Gathering entry `j` takes its children out of the finished trees and puts its own tree first;
the tops from `j` on are `j` and the old tops that are not its children. -/
theorem tops_gather (hp : ParentsBefore placed) {j : Nat} (hj : j < placed.length)
    {done : List (Option Nat × Node)}
    (htops : done.map (·.2.id) =
      (List.range' (j + 1) (placed.length - (j + 1))).filter (topFrom placed (j + 1)))
    (hparent : ∀ d ∈ done, d.1 = parentIn placed d.2.id) :
    j :: (done.filter fun d => d.1 != some j).map (·.2.id) =
      (List.range' j (placed.length - j)).filter (topFrom placed j) := by
  have hlen : placed.length - j = placed.length - (j + 1) + 1 := by omega
  have htop : topFrom placed j j = true := by
    unfold topFrom
    cases hq : parentIn placed j with
    | none => rfl
    | some q => simpa using hp j q hq
  rw [hlen, List.range'_succ, List.filter_cons_of_pos htop]
  congr 1
  calc (done.filter fun d => d.1 != some j).map (·.2.id)
      = (done.filter ((fun k => parentIn placed k != some j) ∘ (·.2.id))).map (·.2.id) := by
        congr 1
        apply List.filter_congr
        intro d hd
        simp [hparent d hd]
    _ = (done.map (·.2.id)).filter fun k => parentIn placed k != some j := List.filter_map.symm
    _ = (List.range' (j + 1) (placed.length - (j + 1))).filter (topFrom placed j) := by
        rw [htops, List.filter_filter]
        apply List.filter_congr
        intro k hk
        rw [List.mem_range'_1] at hk
        unfold topFrom
        cases parentIn placed k with
        | none => rfl
        | some q =>
          rw [Bool.eq_iff_iff]
          simp only [Option.all_some, Bool.and_eq_true, decide_eq_true_eq, bne_iff_ne, ne_eq,
            Option.some.injEq]
          omega

section Children

variable {j : Nat} {done : List (Option Nat × Node)} (hg : Gathered placed (j + 1) done)
include hg

/-- A finished tree tagged with `j` is rooted at a child of `j`. -/
theorem Gathered.mem_children {k : Node}
    (hk : k ∈ (done.filter fun d => d.1 == some j).map Prod.snd) :
    parentIn placed k.id = some j ∧ ∃ d ∈ done, d.2 = k := by
  obtain ⟨d, hd, rfl⟩ := List.mem_map.1 hk
  obtain ⟨hdone, hdj⟩ := List.mem_filter.1 hd
  refine ⟨?_, d, hdone, rfl⟩
  rw [← hg.parent d hdone]
  simpa using hdj

/-- Every child of `j` roots a finished tree tagged with `j`. -/
theorem Gathered.exists_child (hp : ParentsBefore placed) {c : Nat}
    (hc : parentIn placed c = some j) :
    ∃ k ∈ (done.filter fun d => d.1 == some j).map Prod.snd, k.id = c := by
  have hjc := hp c j hc
  have hcn := parentIn_lt_length hc
  have hctop : c ∈ done.map (·.2.id) := by
    rw [hg.tops, List.mem_filter, List.mem_range'_1]
    refine ⟨by omega, ?_⟩
    simp [topFrom, hc]
  obtain ⟨d, hd, hdc⟩ := List.mem_map.1 hctop
  refine ⟨d.2, List.mem_map.2 ⟨d, List.mem_filter.2 ⟨hd, ?_⟩, rfl⟩, hdc⟩
  rw [hg.parent d hd, hdc, hc]
  simp

theorem Gathered.children_sorted :
    (((done.filter fun d => d.1 == some j).map Prod.snd).map Node.id).Pairwise (· < ·) := by
  have hall : (done.map (·.2.id)).Pairwise (· < ·) := by
    rw [hg.tops]
    exact List.Pairwise.filter _ List.pairwise_lt_range'
  rw [List.map_map]
  exact hall.sublist (List.filter_sublist.map _)

/-- A tree rooted at `j` over the trees of its children holds `j` and what lies below them. -/
theorem Gathered.mem_ids_mk (hp : ParentsBefore placed) {e : Entry} (heid : e.id = j) (y : Nat) :
    y ∈ ids ⟨e, (done.filter fun d => d.1 == some j).map Prod.snd⟩ ↔ Descends placed j y := by
  rw [ids_mk]
  simp only [heid, List.mem_cons, List.mem_map]
  constructor
  · rintro (rfl | ⟨m, hm, rfl⟩)
    · exact .refl _
    · obtain ⟨k, hk, hmk⟩ := mem_preorderAll.1 hm
      obtain ⟨hkj, d, hd, rfl⟩ := hg.mem_children hk
      exact .child hkj ((hg.below d hd m.id).1 (List.mem_map_of_mem hmk))
  · intro hd
    cases hd with
    | refl => exact .inl rfl
    | @child _ c _ hc hcy =>
      obtain ⟨k, hk, rfl⟩ := hg.exists_child hp hc
      obtain ⟨-, d, hd, rfl⟩ := hg.mem_children hk
      obtain ⟨m, hm, rfl⟩ := List.mem_map.1 ((hg.below d hd y).2 hcy)
      exact .inr ⟨m, mem_preorderAll.2 ⟨d.2, hk, hm⟩, rfl⟩

/-- A tree rooted at `j` over the trees of its children has an increasing pre-order: the
children's subtrees come after `j` and are apart from each other. -/
theorem Gathered.ordered_mk (hp : ParentsBefore placed) (hap : Apart placed) {e : Entry}
    (heid : e.id = j) : (Node.mk e ((done.filter fun d => d.1 == some j).map Prod.snd)).Ordered := by
  refine Node.ordered_mk.2 ⟨?_, ?_⟩
  · intro m hm
    obtain ⟨k, hk, hmk⟩ := mem_preorderAll.1 hm
    obtain ⟨hkj, d, hd, rfl⟩ := hg.mem_children hk
    have hkm : Descends placed d.2.id m.id := (hg.below d hd m.id).1 (List.mem_map_of_mem hmk)
    rw [heid]
    exact Nat.lt_of_lt_of_le (hp _ _ hkj) (hkm.le hp)
  · refine orderedAll_of_siblings hp hap hg.children_sorted (fun k hk => (hg.mem_children hk).1)
      ?_ ?_
    · intro k hk
      obtain ⟨-, d, hd, rfl⟩ := hg.mem_children hk
      exact hg.ordered d hd
    · intro k hk y hy
      obtain ⟨-, d, hd, rfl⟩ := hg.mem_children hk
      exact (hg.below d hd y).1 hy

end Children

section Step

variable (hid : ∀ k (p : Entry × Option Nat), placed[k]? = some p → p.1.id = k)
  (hp : ParentsBefore placed) (hap : Apart placed)
include hid hp hap

/-- Gathering entry `j` onto the trees finished from `j + 1` on keeps the invariant. -/
theorem Gathered.gather {j : Nat} {p : Entry × Option Nat} (hpj : placed[j]? = some p)
    {done : List (Option Nat × Node)} (hg : Gathered placed (j + 1) done) :
    Gathered placed j (Forest.gather p done) := by
  have hj : j < placed.length := (List.getElem?_eq_some_iff.1 hpj).1
  have hpid : p.1.id = j := hid j p hpj
  have hpar : parentIn placed j = p.2 := by simp [parentIn, hpj]
  unfold Forest.gather
  dsimp only
  generalize hK : (done.filter fun d => d.1 == some p.1.id).map Prod.snd = kids
  generalize hE : kids.foldl (fun m k => max m k.entry.endLine) p.1.startLine = E
  generalize hen : ({ p.1 with endLine := E } : Entry) = e
  have heid : e.id = j := by rw [← hen, ← hpid]
  have hstart : e.startLine = p.1.startLine := by rw [← hen]
  have hend : e.endLine = E := by rw [← hen]
  rw [hpid] at hK ⊢
  subst hK
  have hrest : ∀ d ∈ done.filter (fun d => d.1 != some j), d ∈ done :=
    fun d hd => (List.mem_filter.1 hd).1
  refine ⟨?tops, ?parent, ?ordered, ?below, ?entries⟩
  case tops =>
    rw [List.map_cons, id_mk, heid]
    exact tops_gather hp hj hg.tops hg.parent
  case parent =>
    rintro d (_ | ⟨_, hd⟩)
    · rw [id_mk, heid, hpar]
    · exact hg.parent d (hrest d hd)
  case ordered =>
    rintro d (_ | ⟨_, hd⟩)
    · exact hg.ordered_mk hp hap heid
    · exact hg.ordered d (hrest d hd)
  case below =>
    rintro d (_ | ⟨_, hd⟩)
    · rw [id_mk, heid]
      exact hg.mem_ids_mk hp heid
    · exact hg.below d (hrest d hd)
  case entries =>
    rintro d (_ | ⟨_, hd⟩)
    · intro n hn
      rw [preorder_mk, List.mem_cons] at hn
      rcases hn with rfl | hn
      · refine ⟨⟨p, by rw [id_mk, heid, hpj], by rw [← hen]⟩, lastLine_mk ?_ ?_⟩
        · intro k hk
          obtain ⟨-, d, hd, rfl⟩ := hg.mem_children hk
          exact (hg.entries d hd d.2 (mem_preorder_self _)).2
        · rw [hend, hstart, hE]
      · obtain ⟨k, hk, hnk⟩ := mem_preorderAll.1 hn
        obtain ⟨-, d, hd, rfl⟩ := hg.mem_children hk
        exact hg.entries d hd n hnk
    · exact hg.entries d (hrest d hd)

/-- Gathering the last `k` entries, from right to left, leaves the trees of their tops. -/
theorem gathered_drop : ∀ k, k ≤ placed.length →
    Gathered placed (placed.length - k) ((placed.drop (placed.length - k)).foldr gather [])
  | 0, _ => by simpa using gathered_length
  | k + 1, hk => by
    have hj : placed.length - (k + 1) < placed.length := by omega
    have hnext : placed.length - (k + 1) + 1 = placed.length - k := by omega
    have hg := gathered_drop k (by omega)
    rw [← hnext] at hg
    rw [List.drop_eq_getElem_cons hj, List.foldr_cons]
    exact Gathered.gather hid hp hap (List.getElem?_eq_getElem hj) hg

end Step

/-- Every entry lies below an entry without a parent. -/
theorem exists_root (hp : ParentsBefore placed) (y : Nat) :
    ∃ r, parentIn placed r = none ∧ Descends placed r y := by
  induction y using Nat.strongRecOn with
  | _ y ih =>
    cases hq : parentIn placed y with
    | none => exact ⟨y, hq, .refl y⟩
    | some q =>
      obtain ⟨r, hr, hrq⟩ := ih q (hp y q hq)
      exact ⟨r, hr, hrq.down hq⟩

/-- An entry lies below only one entry without a parent. -/
theorem root_unique (hp : ParentsBefore placed) {a b y : Nat} (ha : parentIn placed a = none)
    (hb : parentIn placed b = none) (hay : Descends placed a y) (hby : Descends placed b y) :
    a = b := by
  induction y using Nat.strongRecOn generalizing a b with
  | _ y ih =>
    rcases hay.up with rfl | ⟨q, hq, haq⟩
    · rcases hby.up with rfl | ⟨q, hq, -⟩
      · rfl
      · rw [ha] at hq
        cases hq
    · rcases hby.up with rfl | ⟨q', hq', hbq⟩
      · rw [hb] at hq
        cases hq
      · rw [hq] at hq'
        cases hq'
        exact ih q (hp y q hq) ha hb haq hbq

/-- What the forest assembled from placed entries satisfies. -/
structure AssembledFrom (placed : List (Entry × Option Nat)) (roots : List Node) : Prop where
  searchable : Searchable roots
  /-- The nodes are the placed entries. -/
  ids : ∀ y, y ∈ (preorderAll roots).map Node.id ↔ y < placed.length
  /-- Every node carries its placed entry and the last start line of its subtree. -/
  entries : ∀ n ∈ preorderAll roots, Assembled placed n ∧ LastLine n

theorem assemble_assembledFrom {b : Builder} (hb : b.Wf) :
    AssembledFrom b.placed (assemble b.placed) := by
  have hg : Gathered b.placed 0 (b.placed.foldr gather []) := by
    simpa using gathered_drop hb.ids hb.parents hb.apart b.placed.length (Nat.le_refl _)
  have hp := hb.parents
  unfold assemble
  generalize b.placed.foldr gather [] = done at hg ⊢
  have hroot : ∀ r ∈ (done.filter fun d => d.1.isNone).map Prod.snd,
      ∃ d ∈ done, d.2 = r ∧ parentIn b.placed r.id = none := by
    intro r hr
    obtain ⟨d, hd, rfl⟩ := List.mem_map.1 hr
    obtain ⟨hd, hnone⟩ := List.mem_filter.1 hd
    refine ⟨d, hd, rfl, ?_⟩
    rw [← hg.parent d hd]
    simpa using hnone
  have hall : (done.map (·.2.id)).Pairwise (· < ·) := by
    rw [hg.tops]
    exact List.Pairwise.filter _ List.pairwise_lt_range'
  have hsorted : (((done.filter fun d => d.1.isNone).map Prod.snd).map Node.id).Pairwise (· < ·) := by
    rw [List.map_map]
    exact hall.sublist (List.filter_sublist.map _)
  refine ⟨⟨hsorted, ?ordered, ?nodup⟩, ?ids, ?entries⟩
  case ordered =>
    intro r hr
    obtain ⟨d, hd, rfl, -⟩ := hroot r hr
    exact hg.ordered d hd
  case nodup =>
    rw [preorderAll_eq_flatMap, List.map_flatMap, List.nodup_flatMap]
    refine ⟨fun r hr => ?_, ?_⟩
    · obtain ⟨d, hd, rfl, -⟩ := hroot r hr
      exact (hg.ordered d hd).nodup
    · rw [List.pairwise_map] at hsorted
      refine hsorted.imp_of_mem fun hr hs hlt y hyr hys => ?_
      obtain ⟨d, hd, rfl, hdr⟩ := hroot _ hr
      obtain ⟨d', hd', rfl, hdr'⟩ := hroot _ hs
      have := root_unique hp hdr hdr' ((hg.below d hd y).1 hyr) ((hg.below d' hd' y).1 hys)
      omega
  case ids =>
    intro y
    constructor
    · intro hy
      obtain ⟨n, hn, rfl⟩ := List.mem_map.1 hy
      obtain ⟨r, hr, hnr⟩ := mem_preorderAll.1 hn
      obtain ⟨d, hd, rfl, -⟩ := hroot r hr
      have hrlt : d.2.id < b.placed.length := by
        have h := List.mem_map_of_mem (f := (·.2.id)) hd
        rw [hg.tops, List.mem_filter, List.mem_range'_1] at h
        omega
      exact ((hg.below d hd n.id).1 (List.mem_map_of_mem hnr)).lt_length hrlt
    · intro hy
      obtain ⟨r, hr, hry⟩ := exists_root hp y
      have hrtop : r ∈ done.map (·.2.id) := by
        rw [hg.tops, List.mem_filter, List.mem_range'_1]
        refine ⟨⟨Nat.zero_le r, by have := hry.le hp; omega⟩, ?_⟩
        simp [topFrom, hr]
      obtain ⟨d, hd, rfl⟩ := List.mem_map.1 hrtop
      have hroot : d.2 ∈ (done.filter fun d => d.1.isNone).map Prod.snd := by
        refine List.mem_map_of_mem (List.mem_filter.2 ⟨hd, ?_⟩)
        rw [hg.parent d hd, hr]
        rfl
      obtain ⟨n, hn, rfl⟩ := List.mem_map.1 ((hg.below d hd y).2 hry)
      exact List.mem_map_of_mem (mem_preorderAll.2 ⟨d.2, hroot, hn⟩)
  case entries =>
    intro n hn
    obtain ⟨r, hr, hnr⟩ := mem_preorderAll.1 hn
    obtain ⟨d, hd, rfl, -⟩ := hroot r hr
    exact hg.entries d hd n hnr

theorem parse_assembledFrom (lines : List Line) :
    AssembledFrom (placements lines) (Forest.parse lines) :=
  assemble_assembledFrom (placements_wf lines)

end Assembly

end YamlEdit.Forest
