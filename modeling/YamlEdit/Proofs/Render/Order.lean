import YamlEdit.Proofs.Bounds
import YamlEdit.Proofs.Additions.Blocks

/-!
# The order of the edits of a script

Rendering resolves a script position by position: the last replacement of a token wins, text
inserted into a token is taken in offset order and, at one offset, in script order, dropped
lines form a set, and lines inserted after a line keep their script order. So the order of a
script matters only among edits at one *slot* (`Edit.Slot`): replacements of one token,
insertions at one offset of one token, and insertions after one line. Two scripts that are
permutations of each other and list the edits of every slot in the same order render alike; in
particular edits at different slots commute, so the edits a document's marks give may go before
or after a script that shares no slot with them. Dropped lines act as the union of their ranges:
a repeated drop changes nothing and two overlapping drops act as one.
-/

namespace YamlEdit

namespace Edit

/-- Where an edit is resolved among others: the token a replacement renders, the offset in a
token where text is inserted, or the line that inserted lines follow. -/
inductive Slot where
  /-- The token at `token` of line `line`. -/
  | token (line token : Nat)
  /-- The byte `offset` of the token at `token` of line `line`. -/
  | insertion (line token offset : Nat)
  /-- The place after line `line`. -/
  | after (line : Nat)
deriving DecidableEq, Repr

/-- The slot of an edit; dropped lines have none, since drops form a set. -/
def slot? : Edit → Option Slot
  | .replaceToken line token _ => some (.token line token)
  | .insertText line token offset _ => some (.insertion line token offset)
  | .dropLines _ _ => none
  | .insertLines after _ => some (.after after)

@[simp] theorem slot?_replaceToken (line token : Nat) (text : String) :
    (replaceToken line token text).slot? = some (.token line token) := rfl

@[simp] theorem slot?_insertText (line token offset : Nat) (text : String) :
    (insertText line token offset text).slot? = some (.insertion line token offset) := rfl

@[simp] theorem slot?_dropLines (start stop : Nat) : (dropLines start stop).slot? = none := rfl

@[simp] theorem slot?_insertLines (after : Nat) (ls : List String) :
    (insertLines after ls).slot? = some (.after after) := rfl

/-- The edits of a script at one slot, in script order. -/
def atSlot (edits : List Edit) (s : Slot) : List Edit :=
  edits.filter (·.slot? == some s)

@[simp] theorem mem_atSlot {e : Edit} {edits : List Edit} {s : Slot} :
    e ∈ atSlot edits s ↔ e ∈ edits ∧ e.slot? = some s := by
  simp [atSlot]

@[simp] theorem atSlot_append (e₁ e₂ : List Edit) (s : Slot) :
    atSlot (e₁ ++ e₂) s = atSlot e₁ s ++ atSlot e₂ s :=
  List.filter_append _ _

@[simp] theorem atSlot_dropLines_cons (start stop : Nat) (edits : List Edit) (s : Slot) :
    atSlot (.dropLines start stop :: edits) s = atSlot edits s := by
  simp [atSlot]

/-! ## Each kind of edit is looked up at its slot -/

theorem replacements_atSlot (edits : List Edit) (line token : Nat) :
    replacements (atSlot edits (.token line token)) line token = replacements edits line token := by
  rw [replacements, replacements, atSlot, List.filterMap_filter]
  refine List.filterMap_congr fun e _ => ?_
  cases e with
  | replaceToken l t text =>
    by_cases h : l = line ∧ t = token
    · obtain ⟨rfl, rfl⟩ := h
      simp
    · simp [h]
  | _ => simp

/-- The insertions into a token at one offset are those of the edits at that slot. -/
theorem filter_insertions (edits : List Edit) (line token offset : Nat) :
    (insertions edits line token).filter (·.1 == offset) =
      insertions (atSlot edits (.insertion line token offset)) line token := by
  rw [insertions, insertions, List.filter_flatMap, atSlot]
  rw [← flatMap_filter_of_nil (p := (·.slot? == some (.insertion line token offset)))]
  · refine List.flatMap_congr fun e he => ?_
    have hp := (List.mem_filter.1 he).2
    cases e with
    | insertText l t o text =>
      simp only [slot?_insertText, Option.some_beq_some, beq_iff_eq, Slot.insertion.injEq] at hp
      obtain ⟨rfl, rfl, rfl⟩ := hp
      simp
    | _ => simp at hp
  · intro e _ hp
    cases e with
    | insertText l t o text =>
      simp only [slot?_insertText, Option.some_beq_some, beq_eq_false_iff_ne, ne_eq,
        Slot.insertion.injEq] at hp
      by_cases h : l = line ∧ t = token
      · obtain ⟨rfl, rfl⟩ := h
        simpa using hp
      · simp [h]
    | _ => rfl

theorem insertedAfter_atSlot (edits : List Edit) (line : Nat) :
    insertedAfter (atSlot edits (.after line)) line = insertedAfter edits line := by
  refine flatMap_filter_of_nil fun e _ hp => ?_
  cases e with
  | insertLines after ls =>
    simp only [slot?_insertLines, Option.some_beq_some, beq_eq_false_iff_ne, ne_eq,
      Slot.after.injEq] at hp
    simp [hp]
  | _ => rfl

/-! ## Insertions in offset order -/

/-- Sorting insertions by offset, stably, gives the same list for two lists of insertions that
list the insertions at every offset in the same order. -/
theorem mergeSort_offset_congr {xs ys : List (Nat × String)}
    (h : ∀ o, xs.filter (·.1 == o) = ys.filter (·.1 == o)) :
    xs.mergeSort (fun a b => a.1 ≤ b.1) = ys.mergeSort (fun a b => a.1 ≤ b.1) := by
  have trans : ∀ a b c : Nat × String, decide (a.1 ≤ b.1) → decide (b.1 ≤ c.1) →
      decide (a.1 ≤ c.1) := by
    intro a b c hab hbc
    simp only [decide_eq_true_eq] at *
    omega
  have total : ∀ a b : Nat × String, (decide (a.1 ≤ b.1) || decide (b.1 ≤ a.1)) := by
    intro a b
    simp only [Bool.or_eq_true, decide_eq_true_eq]
    omega
  have hclass : ∀ (c : Nat × String) (zs : List (Nat × String)),
      zs.filter (fun b => decide (c.1 ≤ b.1) && decide (b.1 ≤ c.1)) = zs.filter (·.1 == c.1) :=
    fun c zs => List.filter_congr fun b _ => by
      rw [Bool.eq_iff_iff]
      simp only [Bool.and_eq_true, decide_eq_true_eq, beq_iff_eq]
      omega
  have hperm : xs.Perm ys := by
    refine List.perm_iff_count.2 fun a => ?_
    rw [← List.count_filter (p := (·.1 == a.1)) (by simp), h a.1, List.count_filter (by simp)]
  apply eq_of_perm_of_classes total
  · exact ((List.mergeSort_perm xs _).trans hperm).trans (List.mergeSort_perm ys _).symm
  · exact List.pairwise_mergeSort trans total xs
  · exact List.pairwise_mergeSort trans total ys
  · intro c
    have htied : ∀ a b : Nat × String, (a.1 == c.1) = true → (b.1 == c.1) = true →
        decide (a.1 ≤ b.1) = true := by
      intro a b ha hb
      simp only [beq_iff_eq] at ha hb
      simp [ha, hb]
    rw [hclass, hclass, filter_mergeSort_of_tied trans total htied,
      filter_mergeSort_of_tied trans total htied, h]

/-! ## What a render depends on -/

/-- Two scripts that list the edits of every slot in the same order and drop the same lines
render alike. -/
theorem render_congr_slots {e₁ e₂ : List Edit} (hslots : ∀ s, atSlot e₁ s = atSlot e₂ s)
    (hdrop : ∀ line, isDropped e₁ line = isDropped e₂ line) (lines : List Line) :
    render e₁ lines = render e₂ lines := by
  have hrepl : ∀ line token, replacement? e₁ line token = replacement? e₂ line token := by
    intro line token
    rw [replacement?_eq, replacement?_eq, ← replacements_atSlot, hslots, replacements_atSlot]
  have hins : ∀ line token, (insertions e₁ line token).mergeSort (fun a b => a.1 ≤ b.1) =
      (insertions e₂ line token).mergeSort (fun a b => a.1 ≤ b.1) := by
    intro line token
    refine mergeSort_offset_congr fun o => ?_
    rw [filter_insertions, filter_insertions, hslots]
  have hafter : ∀ line, insertedAfter e₁ line = insertedAfter e₂ line := by
    intro line
    rw [← insertedAfter_atSlot, hslots, insertedAfter_atSlot]
  have htext : ∀ line, lineText e₁ line = lineText e₂ line := by
    intro line
    unfold lineText splice
    simp only [hrepl, hins]
  have hline : renderLine e₁ (separatorOf lines) = renderLine e₂ (separatorOf lines) := by
    funext line
    unfold renderLine
    rw [hdrop, htext, hafter]
  rw [render_eq_endWith, render_eq_endWith, hline]

/-- Permuting a script keeps what it drops. -/
theorem isDropped_perm {e₁ e₂ : List Edit} (hp : e₁.Perm e₂) (line : Nat) :
    isDropped e₁ line = isDropped e₂ line :=
  hp.any_eq

/-- Two scripts that are permutations of each other and list the edits of every slot in the same
order render alike. -/
theorem render_perm {e₁ e₂ : List Edit} (hp : e₁.Perm e₂) (hslots : ∀ s, atSlot e₁ s = atSlot e₂ s)
    (lines : List Line) : render e₁ lines = render e₂ lines :=
  render_congr_slots hslots (isDropped_perm hp) lines

/-- Scripts that share no slot commute. -/
theorem render_append_comm {e₁ e₂ : List Edit}
    (hdisj : ∀ e ∈ e₁, ∀ f ∈ e₂, e.slot? = f.slot? → e.slot? = none) (lines : List Line) :
    render (e₁ ++ e₂) lines = render (e₂ ++ e₁) lines := by
  refine render_perm List.perm_append_comm (fun s => ?_) lines
  simp only [atSlot_append]
  -- at each slot one of the two scripts has nothing
  by_cases h₁ : atSlot e₁ s = []
  · simp [h₁]
  by_cases h₂ : atSlot e₂ s = []
  · simp [h₂]
  obtain ⟨e, he⟩ := List.exists_mem_of_ne_nil _ h₁
  obtain ⟨f, hf⟩ := List.exists_mem_of_ne_nil _ h₂
  obtain ⟨he, hes⟩ := mem_atSlot.1 he
  obtain ⟨hf, hfs⟩ := mem_atSlot.1 hf
  have := hdisj e he f hf (hes.trans hfs.symm)
  rw [hes] at this
  cases this

/-! ## Dropped lines form a set -/

/-- An edit that the script already holds drops no further line. -/
theorem isDropped_cons_of_mem {e : Edit} {es : List Edit} (he : e ∈ es) (line : Nat) :
    isDropped (e :: es) line = isDropped es line := by
  rw [isDropped, isDropped, List.any_cons, Bool.or_eq_right_iff_imp]
  exact fun hd => List.any_eq_true.2 ⟨e, he, hd⟩

/-- A drop that the script already holds changes nothing. -/
theorem render_dropLines_repeat {es₁ es₂ : List Edit} {start stop : Nat}
    (hmem : .dropLines start stop ∈ es₁ ++ es₂) (lines : List Line) :
    render (es₁ ++ .dropLines start stop :: es₂) lines = render (es₁ ++ es₂) lines := by
  refine render_congr_slots (fun s => by simp) (fun line => ?_) lines
  rw [isDropped_perm List.perm_middle, isDropped_cons_of_mem hmem]

/-- Two drops whose ranges overlap or meet act as one drop of their union. -/
theorem render_dropLines_union {es₁ es₂ : List Edit} {a b c d : Nat} (hac : a ≤ d + 1)
    (hca : c ≤ b + 1) (lines : List Line) :
    render (es₁ ++ .dropLines a b :: .dropLines c d :: es₂) lines =
      render (es₁ ++ .dropLines (min a c) (max b d) :: es₂) lines := by
  refine render_congr_slots (fun s => by simp) (fun line => ?_) lines
  simp only [isDropped, List.any_append, List.any_cons]
  have hunion : (decide (a ≤ line) && decide (line ≤ b) || (decide (c ≤ line) && decide (line ≤ d))) =
      (decide (min a c ≤ line) && decide (line ≤ max b d)) := by
    rw [Bool.eq_iff_iff]
    simp only [Bool.or_eq_true, Bool.and_eq_true, decide_eq_true_eq]
    omega
  rw [← hunion, Bool.or_assoc]

end Edit

/-- Edits at different positions commute. Two scripts that are permutations of each other render
alike when, at every slot, they list their edits in the same order: the replacements of one
token, the insertions at one offset of one token, and the lines inserted after one line. In
particular the edits a document's marks give commute with a script that shares no slot with
them, a repeated drop changes nothing, and two overlapping drops act as their union. -/
theorem Edit.render_commutes :
    (∀ (lines : List Line) (e₁ e₂ : List Edit), e₁.Perm e₂ →
      (∀ s, Edit.atSlot e₁ s = Edit.atSlot e₂ s) → Edit.render e₁ lines = Edit.render e₂ lines) ∧
    (∀ (d : Document) (script : List Edit),
      (∀ e ∈ d.pendingEdits, ∀ f ∈ script, e.slot? = f.slot? → e.slot? = none) →
      d.render script = Edit.render (script ++ d.pendingEdits) d.lines) ∧
    (∀ (lines : List Line) (es₁ es₂ : List Edit) (start stop : Nat),
      .dropLines start stop ∈ es₁ ++ es₂ →
      Edit.render (es₁ ++ .dropLines start stop :: es₂) lines = Edit.render (es₁ ++ es₂) lines) ∧
    ∀ (lines : List Line) (es₁ es₂ : List Edit) (a b c d : Nat), a ≤ d + 1 → c ≤ b + 1 →
      Edit.render (es₁ ++ .dropLines a b :: .dropLines c d :: es₂) lines =
        Edit.render (es₁ ++ .dropLines (min a c) (max b d) :: es₂) lines :=
  ⟨fun lines _ _ hp hslots => Edit.render_perm hp hslots lines,
    fun d _ hdisj => Edit.render_append_comm hdisj d.lines,
    fun lines _ _ _ _ hmem => Edit.render_dropLines_repeat hmem lines,
    fun lines _ _ _ _ _ _ hac hca => Edit.render_dropLines_union hac hca lines⟩

theorem Edit.render_commutes_reordered :
    ∃ lines, Line.scan {} "a: 1\nb: 2" = .ok lines ∧
      Edit.render [.replaceToken 1 0 "x", .dropLines 2 2, .insertText 1 0 0 "y"] lines =
        Edit.render [.insertText 1 0 0 "y", .replaceToken 1 0 "x", .dropLines 2 2] lines := by
  obtain ⟨lines, hs⟩ := Document.scan_ok_of_isSome (by decide :
    (Line.scan {} "a: 1\nb: 2").toOption.isSome = true)
  refine ⟨lines, hs, Edit.render_commutes.1 lines _ _ (by decide) fun s => ?_⟩
  cases s <;> simp [Edit.atSlot, List.filter_cons]

end YamlEdit
