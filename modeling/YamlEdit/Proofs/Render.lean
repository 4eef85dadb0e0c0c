import YamlEdit.Edit
import YamlEdit.Proofs.Scan

/-!
# Rendering edit scripts

Each kind of edit is looked up on its own when a script is rendered, so the facts here say what
a script does to one token or one line in terms of the edits positioned there, and how the
rendered lines of a script that inserts no lines line up with the source lines it keeps. For
the lines of a scan, whose terminators are all present but perhaps the last, the terminators are
those of the source.
-/

namespace YamlEdit

namespace Edit

/-- The texts the edits of a script replace one token with, in script order. -/
def replacements (edits : List Edit) (line token : Nat) : List String :=
  edits.filterMap fun e => match e with
    | .replaceToken l t text => if l == line && t == token then some text else none
    | _ => none

theorem mem_replacements {edits : List Edit} {line token : Nat} {text : String} :
    text ∈ replacements edits line token ↔ Edit.replaceToken line token text ∈ edits := by
  simp only [replacements, List.mem_filterMap]
  constructor
  · rintro ⟨e, he, hs⟩
    cases e with
    | replaceToken l t s =>
      simp only [Option.ite_none_right_eq_some, Bool.and_eq_true, beq_iff_eq] at hs
      obtain ⟨⟨rfl, rfl⟩, h⟩ := hs
      cases h
      exact he
    | _ => cases hs
  · intro he
    exact ⟨_, he, by simp⟩

/-- The fold behind `replacement?`, from any starting value: the last replacement wins. -/
theorem foldl_replacement (edits : List Edit) (line token : Nat) (r : Option String) :
    edits.foldl (fun r e => match e with
        | .replaceToken l t text => if l == line && t == token then some text else r
        | _ => r) r = (replacements edits line token).getLast?.or r := by
  induction edits generalizing r with
  | nil => simp [replacements]
  | cons e es ih =>
    rw [List.foldl_cons, ih]
    cases e with
    | replaceToken l t text =>
      by_cases hl : (l == line && t == token) = true
      · have hcons : replacements (.replaceToken l t text :: es) line token =
            text :: replacements es line token := by
          simp only [replacements, List.filterMap_cons, hl, if_true]
        simp only [hl, if_true]
        rw [hcons, List.getLast?_cons]
        cases (replacements es line token).getLast? <;> rfl
      · simp only [replacements, hl, List.filterMap_cons]
        rfl
    | _ => rfl

theorem replacement?_eq (edits : List Edit) (line token : Nat) :
    replacement? edits line token = (replacements edits line token).getLast? := by
  have h := foldl_replacement edits line token none
  rw [Option.or_none] at h
  exact h

/-- A token is replaced exactly when some edit replaces it. -/
theorem replacement?_eq_none {edits : List Edit} {line token : Nat} :
    replacement? edits line token = none ↔ ∀ text, Edit.replaceToken line token text ∉ edits := by
  rw [replacement?_eq, List.getLast?_eq_none_iff, List.eq_nil_iff_forall_not_mem]
  simp only [mem_replacements]

/-- The replacement of a token comes from one of the edits replacing it. -/
theorem replaceToken_mem_of_replacement? {edits : List Edit} {line token : Nat} {text : String}
    (h : replacement? edits line token = some text) : Edit.replaceToken line token text ∈ edits := by
  rw [replacement?_eq] at h
  exact mem_replacements.1 (List.mem_of_getLast? h)

/-- When every replacement of a token in a script writes the same text, the token takes that
text, whichever edit came last. -/
theorem replacement?_of_uniform {edits : List Edit} {line token : Nat} {w : String}
    (hw : ∀ text, Edit.replaceToken line token text ∈ edits → text = w)
    (h : ∃ text, Edit.replaceToken line token text ∈ edits) :
    replacement? edits line token = some w := by
  cases hr : replacement? edits line token with
  | none =>
    obtain ⟨text, ht⟩ := h
    exact absurd ht (replacement?_eq_none.1 hr text)
  | some text => rw [hw _ (replaceToken_mem_of_replacement? hr)]

theorem mem_insertions {edits : List Edit} {line token offset : Nat} {text : String} :
    (offset, text) ∈ insertions edits line token ↔ Edit.insertText line token offset text ∈ edits := by
  simp only [insertions, List.mem_flatMap]
  constructor
  · rintro ⟨e, he, hs⟩
    cases e with
    | insertText l t o s =>
      simp only [Bool.and_eq_true, beq_iff_eq] at hs
      split at hs
      · rename_i hlt
        obtain ⟨rfl, rfl⟩ := hlt
        simp only [List.mem_singleton, Prod.mk.injEq] at hs
        obtain ⟨rfl, rfl⟩ := hs
        exact he
      · cases hs
    | _ => cases hs
  · intro he
    exact ⟨_, he, by simp⟩

theorem insertions_ne_nil_iff {edits : List Edit} {line token : Nat} :
    insertions edits line token ≠ [] ↔ ∃ offset text, Edit.insertText line token offset text ∈ edits := by
  constructor
  · intro h
    obtain ⟨⟨offset, text⟩, hm⟩ := List.exists_mem_of_ne_nil _ h
    exact ⟨offset, text, mem_insertions.1 hm⟩
  · rintro ⟨offset, text, he⟩ hnil
    have hm := mem_insertions.2 he
    rw [hnil] at hm
    cases hm

theorem insertions_eq_nil {edits : List Edit} {line token : Nat}
    (h : ∀ offset text, Edit.insertText line token offset text ∉ edits) :
    insertions edits line token = [] := by
  simp only [insertions, List.flatMap_eq_nil_iff]
  intro e he
  cases e with
  | insertText l t offset text =>
    have hlt : ¬(l == line && t == token) = true := by
      simp only [Bool.and_eq_true, beq_iff_eq]
      rintro ⟨rfl, rfl⟩
      exact h offset text he
    show (if (l == line && t == token) = true then [(offset, text)] else []) = []
    rw [if_neg hlt]
  | _ => rfl

theorem isDropped_iff {edits : List Edit} {line : Nat} :
    isDropped edits line = true ↔ ∃ start stop, Edit.dropLines start stop ∈ edits ∧
      start ≤ line ∧ line ≤ stop := by
  simp only [isDropped, List.any_eq_true]
  constructor
  · rintro ⟨e, he, hd⟩
    cases e with
    | dropLines start stop => exact ⟨start, stop, he, by simpa using hd⟩
    | _ => cases hd
  · rintro ⟨start, stop, he, h1, h2⟩
    exact ⟨_, he, by simp [h1, h2]⟩

theorem insertedAfter_eq_nil {edits : List Edit} {line : Nat}
    (h : ∀ after ls, Edit.insertLines after ls ∉ edits) : insertedAfter edits line = [] := by
  simp only [insertedAfter, List.flatMap_eq_nil_iff]
  intro e he
  cases e with
  | insertLines after ls => exact absurd he (h after ls)
  | _ => rfl

end Edit

theorem spliceFrom_nil (position : Nat) (rest : List Char) : spliceFrom position rest [] = rest := by
  simp [spliceFrom]

theorem dropLast_filter_sublist (xs : List α) (p : α → Bool) :
    (xs.filter p).dropLast.Sublist xs.dropLast := by
  induction xs with
  | nil => simp
  | cons a xs ih =>
    cases xs with
    | nil => cases h : p a <;> simp [h]
    | cons b xs =>
      rw [List.dropLast_cons_cons, List.filter_cons]
      split
      · cases hf : (b :: xs).filter p with
        | nil => simp
        | cons c cs =>
          rw [List.dropLast_cons_cons, ← hf]
          exact ih.cons_cons a
      · exact ih.cons a

@[simp] theorem splice_nil (base : String) : splice base [] = base := by
  simp [splice, spliceFrom_nil]

namespace Edit

/-- A token without insertions renders as its replacement, or as itself. -/
theorem lineText_of_no_insertions {edits : List Edit} {line : Line}
    (h : ∀ token offset text, Edit.insertText line.number token offset text ∉ edits) :
    lineText edits line = String.join (line.tokens.zipIdx.map fun (t, i) =>
      (replacement? edits line.number i).getD t.text) := by
  unfold lineText
  congr 1
  apply List.map_congr_left
  intro ⟨t, i⟩ _
  simp [insertions_eq_nil (h i)]

/-- A line that no token edit names renders as it was read. -/
theorem lineText_of_untouched {edits : List Edit} {line : Line}
    (hr : ∀ token text, Edit.replaceToken line.number token text ∉ edits)
    (hi : ∀ token offset text, Edit.insertText line.number token offset text ∉ edits) :
    lineText edits line = line.text := by
  rw [lineText_of_no_insertions hi]
  have : ∀ i, replacement? edits line.number i = none := fun i => replacement?_eq_none.2 (hr i)
  simp only [this, Option.getD_none, Line.text, Token.join]
  congr 1
  conv => rhs; rw [← List.zipIdx_map_fst 0 line.tokens]
  rw [List.map_map]
  rfl

/-- The script writes no new lines. -/
def InsertsNoLines (edits : List Edit) : Prop :=
  ∀ after ls, Edit.insertLines after ls ∉ edits

/-- The terminator the text of some lines ends with: that of the last line. -/
def lastEnding (lines : List Line) : LineEnding :=
  (lines.getLast?.map Line.ending).getD .unterminated

@[simp] theorem endWith_nil (ending : LineEnding) : endWith ending [] = [] := rfl

theorem endWith_append_singleton (ending : LineEnding) (ls : List RenderedLine)
    (l : RenderedLine) : endWith ending (ls ++ [l]) = ls ++ [{ l with ending }] := by
  induction ls with
  | nil => rfl
  | cons a ls ih =>
    cases ls with
    | nil => rfl
    | cons b ls => simp only [List.cons_append, endWith] at ih ⊢; rw [ih]

/-- Only the last line's terminator is overwritten: two renderings that agree on every text
and on every terminator but the last end the same. -/
theorem endWith_map_congr {ending : LineEnding} {xs : List α} {f g : α → RenderedLine}
    (htext : ∀ x ∈ xs, (f x).text = (g x).text) (hlast : ∀ x ∈ xs.dropLast, f x = g x) :
    endWith ending (xs.map f) = endWith ending (xs.map g) := by
  induction xs with
  | nil => rfl
  | cons a xs ih =>
    cases xs with
    | nil =>
      simp only [List.map_cons, List.map_nil, endWith]
      rw [htext a (by simp)]
    | cons b xs =>
      have ha : f a = g a := hlast a (by simp)
      simp only [List.map_cons, endWith] at ih ⊢
      rw [ha, ih (fun x hx => htext x (List.mem_cons_of_mem a hx))
        (fun x hx => hlast x (by simp_all [List.dropLast_cons_cons]))]

/-- Lines that keep their own terminators already end as the last of them does. -/
theorem endWith_lastEnding (f : Line → String) (lines : List Line) :
    endWith (lastEnding lines) (lines.map fun l => ⟨f l, l.ending⟩) =
      lines.map fun l => ⟨f l, l.ending⟩ := by
  induction lines with
  | nil => rfl
  | cons l ls ih =>
    cases ls with
    | nil => rfl
    | cons b bs =>
      have hlast : lastEnding (l :: b :: bs) = lastEnding (b :: bs) := by
        simp [lastEnding, List.getLast?_cons_cons]
      simp only [List.map_cons] at ih ⊢
      rw [hlast, endWith, ih]
      exact List.cons_ne_nil _ _

@[simp] theorem map_text_endWith (ending : LineEnding) (ls : List RenderedLine) :
    (endWith ending ls).map RenderedLine.text = ls.map RenderedLine.text := by
  induction ls with
  | nil => rfl
  | cons l ls ih =>
    cases ls with
    | nil => rfl
    | cons b bs =>
      show (l :: endWith ending (b :: bs)).map RenderedLine.text = _
      rw [List.map_cons, ih]
      rfl

@[simp] theorem length_endWith (ending : LineEnding) (ls : List RenderedLine) :
    (endWith ending ls).length = ls.length := by
  have h := congrArg List.length (map_text_endWith ending ls)
  rwa [List.length_map, List.length_map] at h

theorem render_eq_endWith (edits : List Edit) (lines : List Line) :
    render edits lines =
      endWith (lastEnding lines) (lines.flatMap (renderLine edits (separatorOf lines))) := by
  unfold render lastEnding
  cases h : lines.getLast? with
  | none => simp_all
  | some l => rfl

theorem flatMap_renderLine {edits : List Edit} (h : InsertsNoLines edits) (sep : LineEnding)
    (lines : List Line) :
    lines.flatMap (renderLine edits sep) =
      (lines.filter fun l => !isDropped edits l.number).map fun l =>
        ⟨lineText edits l, if l.ending == .unterminated then sep else l.ending⟩ := by
  induction lines with
  | nil => rfl
  | cons l ls ih =>
    rw [List.flatMap_cons, ih, List.filter_cons]
    simp only [renderLine, insertedAfter_eq_nil h, List.map_nil, List.append_nil]
    split <;> simp_all

/-- The lines of a script that inserts none: the source lines it keeps, in order, with their
token edits applied and their own terminators, the last output line ending as the source does.
-/
theorem render_of_insertsNoLines {edits : List Edit} {lines : List Line} (h : InsertsNoLines edits)
    (ht : Terminated (lines.map Line.piece)) :
    render edits lines = endWith (lastEnding lines)
      ((lines.filter fun l => !isDropped edits l.number).map fun l =>
        ⟨lineText edits l, l.ending⟩) := by
  rw [render_eq_endWith, flatMap_renderLine h]
  refine endWith_map_congr (fun _ _ => rfl) ?_
  intro l hl
  have hsub := (dropLast_filter_sublist lines _).subset hl
  have hend : l.ending ≠ .unterminated := by
    apply ht (Line.piece l)
    rw [← List.map_dropLast]
    exact List.mem_map_of_mem hsub
  simp [hend]

end Edit

theorem toList_joinLines (rs : List RenderedLine) :
    (joinLines rs).toList = rs.flatMap fun r => r.text.toList ++ r.ending.text.toList := by
  simp [joinLines, String.toList_join, List.flatMap_map]

end YamlEdit
