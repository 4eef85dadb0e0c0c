import YamlEdit.Stage
import YamlEdit.Proofs.Selection
import YamlEdit.Proofs.Parsed
import YamlEdit.Proofs.Rename

/-!
# Stages

A stage renders by applying its mutation to the nodes its selection picks, and a rename or a
deletion leaves its marks on the stage's document. Marking relabels the forest and keeps its
shape, ids and names (`Mutation.markAll_eq`), so it never changes what a selector picks; and
marking a node twice marks it once. A stage is therefore described by a `Stage.History`: the
document it began on, the predicates added since, its mutation, and the nodes selected at its
renders. Running steps on a stage gives the outcomes the history machine gives
(`Stage.run_eq_history`): a second mutation is refused with the kinds of both, a selection is
the selector of the predicates added since the stage began applied to the document it began on,
a render outputs the mutation applied to the nodes selected now and at every earlier render
since the mutation was set, and moving on parses that output afresh. Two renders with no
selection or mutation step between them give the same output (`History.output_rendered`); a
selection step between them can change it, since the marks of the first render stay.
-/

namespace YamlEdit

open Node

/-! ## Marking relabels the forest -/

namespace Node

mutual

theorem mapEntries_eq_self {g : Entry → Entry} :
    ∀ n : Node, (∀ m ∈ preorder n, g m.entry = m.entry) → mapEntries g n = n
  | ⟨e, cs⟩, h => by
    have he : g e = e := h ⟨e, cs⟩ (mem_preorder_self _)
    rw [mapEntries_mk, he, map_mapEntries_eq_self cs fun m hm => h m (by simp [hm])]

theorem map_mapEntries_eq_self {g : Entry → Entry} :
    ∀ ns : List Node, (∀ m ∈ preorderAll ns, g m.entry = m.entry) → ns.map (mapEntries g) = ns
  | [], _ => rfl
  | n :: ns, h => by
    rw [List.map_cons, mapEntries_eq_self n fun m hm => h m (by simp [hm]),
      map_mapEntries_eq_self ns fun m hm => h m (by simp [hm])]

end

mutual

theorem mapEntries_mapEntries (g k : Entry → Entry) :
    ∀ n : Node, mapEntries g (mapEntries k n) = mapEntries (g ∘ k) n
  | ⟨e, cs⟩ => by
    rw [mapEntries_mk, mapEntries_mk, mapEntries_mk, map_mapEntries_mapEntries g k cs]
    rfl

theorem map_mapEntries_mapEntries (g k : Entry → Entry) :
    ∀ ns : List Node, (ns.map (mapEntries k)).map (mapEntries g) = ns.map (mapEntries (g ∘ k))
  | [] => rfl
  | n :: ns => by
    rw [List.map_cons, List.map_cons, List.map_cons, mapEntries_mapEntries g k n,
      map_mapEntries_mapEntries g k ns]

end

section Update

variable (i : Nat) (f : Entry → Entry)

mutual

/-- In an ordered tree, an update of entry `i` relabels that entry and leaves the rest. -/
theorem update_eq_mapEntries : ∀ n : Node, n.Ordered →
    update i f n = mapEntries (fun e => if e.id = i then f e else e) n
  | ⟨e, cs⟩, h => by
    have hcs := ordered_mk.1 h
    unfold update
    by_cases he : e.id = i
    · rw [if_pos (by simpa using he), mapEntries_mk, if_pos he,
        map_mapEntries_eq_self cs fun m hm => if_neg (show m.id ≠ i by
          have := hcs.1 m hm
          omega)]
    · rw [if_neg (by simpa using he), mapEntries_mk, if_neg he, updateAmong_eq_map cs hcs.2]

/-- Among ordered trees, an update of entry `i` relabels that entry and leaves the rest. -/
theorem updateAmong_eq_map : ∀ ns : List Node, OrderedAll ns →
    updateAmong i f ns = ns.map (mapEntries fun e => if e.id = i then f e else e)
  | [], _ => by simp [updateAmong]
  | [c], h => by
    have hc := (orderedAll_cons.1 h).1
    unfold updateAmong
    split
    · rw [update_eq_mapEntries c hc, List.map_singleton]
    · rename_i hci
      exact (map_mapEntries_eq_self [c] fun m hm => if_neg (show m.id ≠ i by
        have := OrderedAll.head_le h m hm
        omega)).symm
  | c :: d :: rest, h => by
    obtain ⟨hc, hrest, hsep⟩ := orderedAll_cons.1 h
    have hd : d ∈ preorderAll (d :: rest) := by simp [mem_preorder_self]
    unfold updateAmong
    by_cases hci : c.id ≤ i
    · rw [if_pos hci]
      by_cases hdi : d.id ≤ i
      · rw [if_pos hdi, List.map_cons, updateAmong_eq_map (d :: rest) hrest,
          mapEntries_eq_self c fun m hm => if_neg (show m.id ≠ i by
            have := hsep m hm d hd
            omega)]
      · rw [if_neg hdi, List.map_cons, update_eq_mapEntries c hc,
          map_mapEntries_eq_self (d :: rest) fun m hm => if_neg (show m.id ≠ i by
            have := hrest.head_le m hm
            omega)]
    · rw [if_neg hci]
      exact (map_mapEntries_eq_self (c :: d :: rest) fun m hm => if_neg (show m.id ≠ i by
        have := OrderedAll.head_le h m hm
        omega)).symm

end

end Update

end Node

namespace Document

/-- In a searchable forest, an update of entry `i` relabels that entry and leaves the rest. -/
theorem updateRoots_eq_map {i : Nat} {f : Entry → Entry} :
    ∀ {roots : List Node}, Searchable roots →
      update.updateRoots i f roots = roots.map (mapEntries fun e => if e.id = i then f e else e)
  | [], _ => rfl
  | r :: rs, h => by
    have hr := h.ordered r List.mem_cons_self
    unfold update.updateRoots
    by_cases hri : r.id ≤ i
    · rw [if_pos hri]
      by_cases hl : (Node.locate i r).isSome
      · obtain ⟨m, hm⟩ := Option.isSome_iff_exists.1 hl
        rw [locate_eq_find? i r hr] at hm
        have hmr : m ∈ preorder r := List.mem_of_find?_eq_some hm
        have hmi : m.id = i := by simpa using List.find?_some hm
        rw [if_pos hl, List.map_cons, update_eq_mapEntries i f r hr,
          map_mapEntries_eq_self rs fun b hb => if_neg (show b.id ≠ i from
            fun hbi => h.head_ne m hmr b hb (hmi.trans hbi.symm))]
      · have hnone : ∀ m ∈ preorder r, m.id ≠ i := by
          have h0 : Node.locate i r = none := by simpa using hl
          rw [locate_eq_find? i r hr] at h0
          intro m hm hmi
          exact absurd (List.find?_eq_none.1 h0 m hm) (by simp [hmi])
        rw [if_neg hl, List.map_cons, updateRoots_eq_map h.tail,
          mapEntries_eq_self r fun m hm => if_neg (hnone m hm)]
    · rw [if_neg hri]
      exact (map_mapEntries_eq_self (r :: rs) fun m hm => if_neg (show m.id ≠ i by
        have := h.head_le m hm
        omega)).symm

end Document

namespace Mutation

/-- In a searchable forest, marking relabels the listed nodes: the document keeps its lines and
its rule, and its forest keeps its shape. -/
theorem markAll_eq (mark : Mark) : ∀ (targets : List Nat) {d : Document}, Searchable d.roots →
    markAll d targets mark = { d with roots := d.roots.map (mapEntries (marked targets mark)) }
  | [], d, _ => by
    rw [map_mapEntries_eq_self d.roots fun m _ => by simp [marked]]
    rfl
  | t :: ts, d, h => by
    have hf : ∀ e : Entry, ({ e with mark } : Entry).id = e.id := fun _ => rfl
    show markAll (d.update t fun e => { e with mark }) ts mark = _
    rw [markAll_eq mark ts (Document.searchable_updateRoots hf h)]
    simp only [Document.update]
    rw [Document.updateRoots_eq_map h, map_mapEntries_mapEntries]
    congr 3
    funext e
    by_cases het : e.id = t <;> by_cases hets : e.id ∈ ts <;> simp [marked, het, hets]

/-- Marking depends on which nodes are listed, not on how often or in which order. -/
theorem markAll_congr (mark : Mark) {targets targets' : List Nat}
    (ht : ∀ i, i ∈ targets ↔ i ∈ targets') {d : Document} (h : Searchable d.roots) :
    markAll d targets mark = markAll d targets' mark := by
  have hm : marked targets mark = marked targets' mark := by
    funext e
    simp [marked, ht]
  rw [markAll_eq mark targets h, markAll_eq mark targets' h, hm]

/-- Marking never changes which nodes a selector picks. -/
theorem select_markAll (mark : Mark) (targets : List Nat) {d : Document} (h : Searchable d.roots)
    (s : Selector) :
    (s.select (markAll d targets mark).roots).map Node.id = (s.select d.roots).map Node.id := by
  rw [markAll_eq mark targets h]
  exact Selector.map_id_select_mapEntries (fun e => by simp [marked_eq])
    (fun e => by simp [marked_eq]) s d.roots

@[simp] theorem rule_markAll (mark : Mark) (targets : List Nat) (d : Document) :
    (markAll d targets mark).rule = d.rule := by
  induction targets generalizing d with
  | nil => rfl
  | cons t ts ih => exact ih _

theorem markAll_append (mark : Mark) (d : Document) (targets more : List Nat) :
    markAll d (targets ++ more) mark = markAll (markAll d targets mark) more mark :=
  List.foldl_append

/-- Applying a mutation to no targets leaves the document as it is. -/
theorem apply_nil (m : Mutation) (d : Document) : (m.apply d []).1 = d := by
  cases m <;> rfl

/-- Applying a mutation to the document it has marked marks both lists of targets, and adds
the text for the second list alone. -/
theorem apply_apply (m : Mutation) (d : Document) (targets more : List Nat) :
    m.apply (m.apply d targets).1 more = ((m.apply d (targets ++ more)).1, (m.apply d more).2) := by
  cases m <;> simp [apply, markAll_append]

theorem rule_apply (m : Mutation) (d : Document) (targets : List Nat) :
    (m.apply d targets).1.rule = d.rule := by
  cases m <;> simp [apply]

end Mutation

theorem Selector.ofCriteria_append_singleton (cs : List Selector.Criterion)
    (c : Selector.Criterion) :
    Selector.ofCriteria (cs ++ [c]) = (Selector.ofCriteria cs).add c :=
  List.foldl_append

/-! ## The history of a stage -/

namespace Stage

/-- What a stage's outcomes depend on: the document it began on, the predicates added since,
its mutation, and the nodes selected at its renders, in order. -/
structure History where
  /-- The document the stage began on. -/
  origin : Document
  /-- The predicates added since the stage began. -/
  criteria : List Selector.Criterion
  /-- The mutation, once set. -/
  mutation : Option Mutation
  /-- The nodes selected at each render since the mutation was set. -/
  marked : List Nat

namespace History

/-- A stage that has just begun on a document. -/
def begin (d : Document) : History :=
  ⟨d, [], none, []⟩

/-- The selector of the predicates added since the stage began. -/
def selector (h : History) : Selector :=
  Selector.ofCriteria h.criteria

/-- The ids the selector picks in the document the stage began on. -/
def selection (h : History) : List Nat :=
  (h.selector.select h.origin.roots).map Node.id

/-- The document as the renders have left it: the mutation applied to the nodes they selected. -/
def document (h : History) : Document :=
  match h.mutation with
  | some m => (m.apply h.origin h.marked).1
  | none => h.origin

/-- What a render outputs: the mutation applied, in the document the stage began on, to the
nodes selected now and at every earlier render, with the text it adds for those selected now. -/
def output (h : History) : List RenderedLine :=
  match h.mutation with
  | some m => (m.apply h.origin (h.marked ++ h.selection)).1.render (m.apply h.origin h.selection).2
  | none => h.origin.render []

/-- The history after a render. -/
def rendered (h : History) : History :=
  { h with marked := h.marked ++ h.selection }

/-- One step of the stage the history describes. -/
def step (h : History) : Step → Except Failure (History × Outcome)
  | .narrow c =>
    let h := { h with criteria := h.criteria ++ [c] }
    .ok (h, .selection h.selection)
  | .mutate m =>
    match h.mutation with
    | some existing => .error (.ambiguousMutation existing.kind m.kind)
    | none => .ok ({ h with mutation := some m, marked := [] }, .mutationSet m)
  | .proceed =>
    match Document.parse h.origin.rule (joinLines h.output) with
    | .ok d => .ok (begin d, .proceeded d.lines.length d.descendants.length)
    | .error e => .error (.indentation e)
  | .render => .ok (h.rendered, .rendered (joinLines h.output))
  | .execute => .ok (h.rendered, .executed (h.output.map RenderedLine.text))
  | .selected => .ok (h, .selectedNodes (h.selector.select h.document.roots))
  | .document =>
    .ok (h, .snapshot h.document.toLines (h.document.descendants.map Node.entry) h.mutation
      h.selector.isEmpty)

/-- Runs steps until one fails: the outcomes, the failure if there was one. -/
def run : History → List Step → List Outcome × Option Failure
  | _, [] => ([], none)
  | h, step :: steps =>
    match h.step step with
    | .error f => ([], some f)
    | .ok (h, o) =>
      let (os, failure) := run h steps
      (o :: os, failure)

section Searchable

variable {h : History} (hs : Searchable h.origin.roots)
include hs

/-- The marks of the renders never change what a selector picks. -/
theorem select_document (s : Selector) :
    (s.select h.document.roots).map Node.id = (s.select h.origin.roots).map Node.id := by
  unfold document
  split
  · rename_i m _
    cases m with
    | rename w => exact Mutation.select_markAll _ _ hs s
    | delete => exact Mutation.select_markAll _ _ hs s
    | duplicate w => rfl
    | insert w => rfl
  · rfl

/-- A render right after a render outputs the same: it selects the same nodes, and marking them
again changes nothing. -/
theorem output_rendered : h.rendered.output = h.output := by
  have hmem : ∀ i, i ∈ h.marked ++ h.selection ++ h.selection ↔ i ∈ h.marked ++ h.selection := by
    intro i
    simp only [List.mem_append]
    tauto
  have hsel : h.rendered.selection = h.selection := rfl
  unfold output
  rw [hsel]
  show (match h.mutation with
    | some m => (m.apply h.origin (h.marked ++ h.selection ++ h.selection)).1.render
        (m.apply h.origin h.selection).2
    | none => h.origin.render []) = _
  cases h.mutation with
  | none => rfl
  | some m =>
    cases m with
    | rename w => simp only [Mutation.apply, Mutation.markAll_congr _ hmem hs]
    | delete => simp only [Mutation.apply, Mutation.markAll_congr _ hmem hs]
    | duplicate w => rfl
    | insert w => rfl

end Searchable

end History

/-- A stage a history describes: it has the history's document, selector and mutation, and the
document the stage began on is searchable. -/
structure Describes (h : History) (s : Stage) : Prop where
  document : s.document = h.document
  selector : s.selector = h.selector
  mutation : s.mutation = h.mutation
  searchable : Searchable h.origin.roots

theorem describes_begin {rule : IndentRule} {text : String} {d : Document}
    (hd : Document.parse rule text = .ok d) : Describes (.begin d) { document := d } :=
  ⟨rfl, rfl, rfl, (Document.parse_parsed hd).searchable⟩

theorem selectedNodes_eq (s : Stage) : s.selectedNodes = s.selector.select s.document.roots := rfl

/-- With a mutation set, a stage applies it to the nodes its selection picks. -/
theorem apply_of_mutation {s : Stage} {m : Mutation} (hm : s.mutation = some m) :
    s.apply = ({ s with document := (m.apply s.document (s.selectedNodes.map Node.id)).1 },
      (m.apply s.document (s.selectedNodes.map Node.id)).1.render
        (m.apply s.document (s.selectedNodes.map Node.id)).2) := by
  unfold Stage.apply
  rw [hm]

theorem apply_of_no_mutation {s : Stage} (hm : s.mutation = none) :
    s.apply = (s, s.document.render []) := by
  unfold Stage.apply
  rw [hm]

section Describes

variable {h : History} {s : Stage} (hd : Describes h s)
include hd

/-- The stage selects, in its marked document, the nodes the history selects. -/
theorem map_id_selectedNodes : s.selectedNodes.map Node.id = h.selection := by
  rw [selectedNodes_eq, hd.selector, hd.document, History.select_document hd.searchable]
  rfl

/-- A render outputs the history's output and leaves a stage the rendered history describes. -/
theorem apply_describes : s.apply.2 = h.output ∧ Describes h.rendered s.apply.1 := by
  cases hm : h.mutation with
  | none =>
    have hdoc : s.document = h.origin := by rw [hd.document, History.document, hm]
    rw [apply_of_no_mutation (hd.mutation.trans hm)]
    refine ⟨by rw [hdoc, History.output, hm], ⟨?_, hd.selector, hd.mutation, hd.searchable⟩⟩
    rw [hdoc]
    show h.origin = h.rendered.document
    rw [History.document, show h.rendered.mutation = none from hm]
    rfl
  | some m =>
    have happ : m.apply s.document (s.selectedNodes.map Node.id) =
        ((m.apply h.origin (h.marked ++ h.selection)).1, (m.apply h.origin h.selection).2) := by
      rw [map_id_selectedNodes hd, hd.document, History.document, hm, Mutation.apply_apply]
    rw [apply_of_mutation (hd.mutation.trans hm), happ]
    refine ⟨by rw [History.output, hm], ⟨?_, hd.selector, hd.mutation, hd.searchable⟩⟩
    show (m.apply h.origin (h.marked ++ h.selection)).1 = h.rendered.document
    rw [History.document, show h.rendered.mutation = some m from hm]
    rfl

theorem rule_document : s.document.rule = h.origin.rule := by
  rw [hd.document, History.document]
  split
  · exact Mutation.rule_apply _ _ _
  · rfl

end Describes

/-- Two results of a step that agree: the same failure, or the same outcome with a stage the
resulting history describes. -/
def Agree : Except Failure (Stage × Outcome) → Except Failure (History × Outcome) → Prop
  | .error f, .error f' => f = f'
  | .ok (s, o), .ok (h, o') => o = o' ∧ Describes h s
  | _, _ => False

/-- Each step of a stage agrees with the step of the history that describes it. -/
theorem perform_agree {h : History} {s : Stage} (hd : Describes h s) :
    ∀ st : Step, Agree (s.perform st) (h.step st)
  | .narrow c => by
    have hd' : Describes { h with criteria := h.criteria ++ [c] }
        { s with selector := s.selector.add c } := by
      refine ⟨hd.document, ?_, hd.mutation, hd.searchable⟩
      show s.selector.add c = Selector.ofCriteria (h.criteria ++ [c])
      rw [hd.selector, Selector.ofCriteria_append_singleton]
      rfl
    exact ⟨by rw [map_id_selectedNodes hd'], hd'⟩
  | .mutate m => by
    unfold perform setMutation History.step
    rw [hd.mutation]
    cases hm : h.mutation with
    | some e => rfl
    | none =>
      refine ⟨rfl, ⟨?_, hd.selector, rfl, hd.searchable⟩⟩
      show s.document = (m.apply h.origin []).1
      rw [Mutation.apply_nil, hd.document, History.document, hm]
  | .proceed => by
    unfold perform
    have hout : s.render.2 = joinLines h.output := by
      rw [← (apply_describes hd).1]
      rfl
    unfold proceed start History.step
    rw [hout, rule_document hd]
    cases hp : Document.parse h.origin.rule (joinLines h.output) with
    | error e => rfl
    | ok d => exact ⟨rfl, describes_begin hp⟩
  | .render => ⟨by rw [← (apply_describes hd).1]; rfl, (apply_describes hd).2⟩
  | .execute => ⟨by rw [← (apply_describes hd).1]; rfl, (apply_describes hd).2⟩
  | .selected => ⟨by rw [selectedNodes_eq, hd.selector, hd.document], hd⟩
  | .document => ⟨by rw [hd.document, hd.mutation, hd.selector], hd⟩

/-- A stage runs as the history that describes it. -/
theorem run_eq_of_describes : ∀ {h : History} {s : Stage}, Describes h s →
    ∀ steps : List Step, s.run steps = h.run steps
  | _, _, _, [] => rfl
  | h, s, hd, st :: steps => by
    have hagree := perform_agree hd st
    unfold Stage.run History.run
    revert hagree
    cases s.perform st with
    | error f =>
      cases h.step st with
      | error f' => intro hf; rw [show f = f' from hf]
      | ok p => intro hf; cases hf
    | ok p =>
      cases h.step st with
      | error f' => intro hf; cases hf
      | ok q =>
        obtain ⟨s', o⟩ := p
        obtain ⟨h', o'⟩ := q
        rintro ⟨rfl, hd'⟩
        simp only [run_eq_of_describes hd' steps]

/-- Running steps on the stage begun on a parsed text gives the outcomes of the history machine,
and a render right after a render outputs the same. -/
theorem run_eq_history {rule : IndentRule} {text : String} {d : Document}
    (hd : Document.parse rule text = .ok d) :
    (∃ s, Stage.start rule text = .ok s ∧ ∀ steps, s.run steps = (History.begin d).run steps) ∧
      ∀ h : History, Searchable h.origin.roots → h.rendered.output = h.output := by
  refine ⟨⟨{ document := d }, ?_, run_eq_of_describes (describes_begin hd)⟩,
    fun h hs => History.output_rendered hs⟩
  unfold start
  rw [hd]

theorem run_eq_history_nested : ∃ d, Document.parse {} "a:\n  c:\n    b: 1\n" = .ok d ∧
    (∃ s, Stage.start {} "a:\n  c:\n    b: 1\n" = .ok s ∧
      ∀ steps, s.run steps = (History.begin d).run steps) ∧
    ∀ h : History, Searchable h.origin.roots → h.rendered.output = h.output := by
  obtain ⟨d, hd⟩ := Document.parse_ok_of_isSome
    (by decide : (Document.parse {} "a:\n  c:\n    b: 1\n").toOption.isSome = true)
  exact ⟨d, hd, run_eq_history hd⟩

/-- Narrowing the selection between two renders of a rename changes what the second render
outputs: the mark the first render left on `c` stays, and the second marks `b` as well. -/
theorem render_after_narrowing : ∃ s, Stage.start {} "a:\n  c:\n    b: 1\n" = .ok s ∧
    ∃ o₁ o₂ o₄, (s.run [.narrow (.withParents ["a"]), .mutate (.rename "z"), .render,
      .narrow (.named ["b"]), .render]).1 =
      [o₁, o₂, .rendered "a:\n  z:\n    b: 1\n", o₄, .rendered "a:\n  z:\n    z: 1\n"] := by
  obtain ⟨d, hd⟩ := Document.parse_ok_of_isSome
    (by decide : (Document.parse {} "a:\n  c:\n    b: 1\n").toOption.isSome = true)
  have hp := Document.parse_parsed hd
  have hsel : (Document.parse {} "a:\n  c:\n    b: 1\n").toOption.map (fun d =>
      (((Selector.ofCriteria [.withParents ["a"]]).select d.roots).map Node.id,
        ((Selector.ofCriteria [.withParents ["a"], .named ["b"]]).select d.roots).map Node.id)) =
      some ([1], [2]) := by
    decide +kernel
  have htext : (Document.parse {} "a:\n  c:\n    b: 1\n").toOption.map (fun d =>
      (joinLines (d.lines.map fun l => ⟨Document.renamedText d [1] "z" l, l.ending⟩),
        joinLines (d.lines.map fun l => ⟨Document.renamedText d [1, 2] "z" l, l.ending⟩))) =
      some ("a:\n  z:\n    b: 1\n", "a:\n  z:\n    z: 1\n") := by
    decide +kernel
  rw [hd] at hsel htext
  simp only [Except.toOption, Option.map_some, Option.some.injEq, Prod.mk.injEq] at hsel htext
  refine ⟨{ document := d }, by unfold start; rw [hd], .selection [1], .mutationSet (.rename "z"),
    .selection [2], ?_⟩
  rw [run_eq_of_describes (describes_begin hd)]
  simp only [History.run, History.step, History.begin, History.rendered, History.output,
    History.selection, History.selector, List.nil_append, List.cons_append, hsel.1, hsel.2,
    Mutation.apply]
  rw [Document.render_markAll_renamed hp [1] "z", Document.render_markAll_renamed hp [1, 2] "z",
    htext.1, htext.2]

end Stage

end YamlEdit
