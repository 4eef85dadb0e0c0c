import YamlEdit.Proofs.Columns

/-!
# Underflows and overshooting dedents

An underflow is reported when a dedent pops every increment and still has columns left to
cover. Under the strict rule the increments always add up from the first line's indentation to
the last measured one, so an underflow means the line lies left of the first line, as the
message says. The permissive rule breaks that sum: a dedent that lands between two open columns
pops the increment it overshoots and keeps the overshoot nowhere, so the increments left fall
short of the distance to the first line, and a later return to the first line's column can pop
an empty stack.

The main statement, `scan_underflow_left_of_start`, says exactly that much for every rule and
every text: an underflow lies left of the first line, unless the rule is permissive and the
strict scan of the same text already stops at an earlier line with a misaligned dedent.
-/

namespace YamlEdit

open YamlEdit.Text

namespace IndentRule

/-- The rule that treats blank lines as `rule` does and refuses misaligned dedents. -/
def strict (rule : IndentRule) : IndentRule :=
  { rule with strictDedent := true }

@[simp] theorem strict_strictDedent (rule : IndentRule) : rule.strict.strictDedent = true := rfl

@[simp] theorem strict_blankLinesInherit (rule : IndentRule) :
    rule.strict.blankLinesInherit = rule.blankLinesInherit := rfl

theorem strict_eq_self {rule : IndentRule} (h : rule.strictDedent = true) : rule.strict = rule := by
  cases rule
  simp_all [strict]

end IndentRule

namespace Columns

/-- The column discipline names an underflow only for a line left of the reference column. -/
theorem lt_of_place_eq_underflow {ref x : Nat} {cols : List Nat}
    (h : place ref x cols = .error .underflow) : x < ref := by
  unfold place at h
  split at h
  · cases h
  · split at h
    · cases h
    · split at h
      · cases h
      · by_contra hx
        simp [hx] at h

end Columns

namespace IndentStack

/-- Popping permissively pops as the strict rule does, except where the strict rule reports a
misaligned dedent: there the permissive rule drops the overshot increment and succeeds. -/
theorem popIncrements_permissive (r : Nat) (ds : List Nat) :
    popIncrements false r ds = popIncrements true r ds ∨
      (popIncrements true r ds = .error .misaligned ∧ ∃ ds', popIncrements false r ds = .ok ds') := by
  induction ds generalizing r with
  | nil => cases r <;> simp [popIncrements]
  | cons d ds ih =>
    cases r with
    | zero => simp [popIncrements]
    | succ r =>
      by_cases hover : r + 1 < d
      · simp [popIncrements, hover]
      · simpa [popIncrements, hover] using ih (r + 1 - d)

/-- Placing a line under any rule places it as the strict form of the rule does, except where
the strict form reports a misaligned dedent that the permissive rule lets through. -/
theorem place_permissive (rule : IndentRule) (s : IndentStack) (x : Nat) (blank : Bool) :
    s.place rule x blank = s.place rule.strict x blank ∨
      (rule.strictDedent = false ∧ s.place rule.strict x blank = .error .misaligned ∧
        ∃ s', s.place rule x blank = .ok s') := by
  cases hstrict : rule.strictDedent with
  | true => exact .inl (by rw [IndentRule.strict_eq_self hstrict])
  | false =>
    unfold place
    simp only [IndentRule.strict_blankLinesInherit, IndentRule.strict_strictDedent, hstrict]
    by_cases hb : (blank && rule.blankLinesInherit) = true
    · simp [hb]
    by_cases hlt : s.previous?.getD x < x
    · simp [hb, hlt]
    by_cases hgt : x < s.previous?.getD x
    · -- only a dedent pops, and only a pop can overshoot
      simp only [hb, hlt, hgt, if_true, if_false, Bool.false_eq_true, true_and]
      rcases popIncrements_permissive (s.previous?.getD x - x) s.increments with h | ⟨hm, ds', hds⟩
      · exact .inl (by rw [h])
      · exact .inr ⟨by rw [hm], ⟨ds', some x⟩, by rw [hds]⟩
    · simp [hb, hlt, hgt]

/-- From anchored increments, a strict placement underflows only for a line left of the
reference column. -/
theorem lt_of_place_underflow {rule : IndentRule} (hstrict : rule.strictDedent = true) {ref : Nat}
    {s : IndentStack} (hs : s.Anchored ref) {x : Nat} {blank : Bool}
    (h : s.place rule x blank = .error .underflow) : x < ref := by
  have hcols := (place_columns hstrict hs x blank).1
  rw [h] at hcols
  split at hcols
  · cases hcols
  · exact Columns.lt_of_place_eq_underflow hcols.symm

end IndentStack

namespace Line

/-- A scan from line `number` on stops, if at all, at line `number` or later. -/
theorem number_le_of_scanFrom {rule : IndentRule} {e : IndentError} :
    ∀ {ps : List (List Char × LineEnding)} {s : IndentStack} {number offset : Nat},
      scanFrom rule s number offset ps = .error e → number ≤ e.line
  | [], _, _, _, h => by cases h
  | (content, ending) :: ps, s, number, offset, h => by
    cases hplace : s.place rule (indentation content) (Text.isBlank content) with
    | error f =>
      rw [scanFrom_cons_error hplace] at h
      cases h
      exact Nat.le_refl _
    | ok s' =>
      rw [scanFrom_cons_ok hplace] at h
      cases hrest : scanFrom rule s' (number + 1)
          (offset + (String.ofList content).utf8ByteSize + ending.byteSize) ps with
      | error e' =>
        rw [hrest] at h
        cases h
        exact Nat.le_of_succ_le (number_le_of_scanFrom hrest)
      | ok ls => rw [hrest] at h; cases h

open IndentStack in
/-- From anchored increments, a scan that underflows does so left of the reference column, or
after a line where the strict form of the rule stops with a misaligned dedent. The two scans
agree line by line up to the first dedent that overshoots. -/
theorem scanFrom_underflow {rule : IndentRule} {ref : Nat} {e : IndentError}
    (hu : e.fault = .underflow) :
    ∀ {ps : List (List Char × LineEnding)} {s : IndentStack} {number offset : Nat},
      s.Anchored ref → scanFrom rule s number offset ps = .error e →
        e.indent < ref ∨ (rule.strictDedent = false ∧
          ∃ e', scanFrom rule.strict s number offset ps = .error e' ∧
            e'.fault = .misaligned ∧ e'.line < e.line)
  | [], _, _, _, _, h => by cases h
  | (content, ending) :: ps, s, number, offset, hs, h => by
    rcases place_permissive rule s (indentation content) (Text.isBlank content) with
      hsame | ⟨hpermissive, hmis, s', hok⟩
    · cases hplace : s.place rule.strict (indentation content) (Text.isBlank content) with
      | error f =>
        -- both rules stop at this line, so the fault is the strict rule's underflow
        rw [scanFrom_cons_error (hsame.trans hplace)] at h
        cases h
        have hf : f = .underflow := hu
        subst hf
        exact .inl (lt_of_place_underflow rule.strict_strictDedent hs hplace)
      | ok s' =>
        rw [scanFrom_cons_ok (hsame.trans hplace)] at h
        have hs' := (place_columns rule.strict_strictDedent hs _ _).2 s' hplace
        cases hrest : scanFrom rule s' (number + 1)
            (offset + (String.ofList content).utf8ByteSize + ending.byteSize) ps with
        | error e₁ =>
          rw [hrest] at h
          cases h
          refine (scanFrom_underflow hu hs' hrest).imp_right fun ⟨hp, e', he', hm, hlt⟩ =>
            ⟨hp, e', ?_, hm, hlt⟩
          rw [scanFrom_cons_ok hplace, he']
          rfl
        | ok ls => rw [hrest] at h; cases h
    · -- the strict rule already stops here, before the line the permissive scan fails at
      rw [scanFrom_cons_ok hok] at h
      cases hrest : scanFrom rule s' (number + 1)
          (offset + (String.ofList content).utf8ByteSize + ending.byteSize) ps with
      | error e₁ =>
        rw [hrest] at h
        cases h
        exact .inr ⟨hpermissive, _, scanFrom_cons_error hmis, rfl,
          Nat.lt_of_succ_le (number_le_of_scanFrom hrest)⟩
      | ok ls => rw [hrest] at h; cases h

/-- Scanning a text from its first line is scanning it from the stack that holds the first
line's indentation and no increments. -/
theorem scan_eq_scanFrom_first (rule : IndentRule) {text : String} {first : List Char}
    {ending : LineEnding} {rest : List (List Char × LineEnding)}
    (hsplit : splitLines text = (first, ending) :: rest) :
    scan rule text = scanFrom rule ⟨[], some (indentation first)⟩ 1 0 ((first, ending) :: rest) := by
  have hempty : ({} : IndentStack).place rule (indentation first) (Text.isBlank first) =
      .ok ⟨[], some (indentation first)⟩ := by
    simp [IndentStack.place]
  have hagain : (⟨[], some (indentation first)⟩ : IndentStack).place rule (indentation first)
      (Text.isBlank first) = .ok ⟨[], some (indentation first)⟩ := by
    simp [IndentStack.place]
  rw [scan, hsplit, scanFrom_cons_ok hempty, scanFrom_cons_ok hagain]

/-- Under every rule, a scan that stops with an underflow stops at a line indented left of the
text's first line, or the rule is permissive and the strict scan of the same text stops earlier,
at a dedent that lands between two open columns. Under the strict rule an underflow therefore
always lies left of the document start. -/
theorem scan_underflow_left_of_start (rule : IndentRule) (text : String) {e : IndentError}
    (h : scan rule text = .error e) (hu : e.fault = .underflow) :
    ∃ first ending rest, splitLines text = (first, ending) :: rest ∧
      (e.indent < indentation first ∨ (rule.strictDedent = false ∧
        ∃ e', scan rule.strict text = .error e' ∧ e'.fault = .misaligned ∧ e'.line < e.line)) := by
  cases hsplit : splitLines text with
  | nil => rw [scan, hsplit] at h; cases h
  | cons p rest =>
    obtain ⟨first, ending⟩ := p
    have hanchored : (⟨[], some (indentation first)⟩ : IndentStack).Anchored (indentation first) :=
      ⟨rfl, by simp, by simp⟩
    rw [scan_eq_scanFrom_first rule hsplit] at h
    rw [scan_eq_scanFrom_first rule.strict hsplit]
    exact ⟨first, ending, rest, rfl, scanFrom_underflow hu hanchored h⟩

/-- The permissive scan of this text underflows at its last line, which lies on the first
line's column: the fourth line overshoots column 4 on its way to column 2, where the strict
scan stops. -/
theorem scan_underflow_left_of_start_overshoot :
    scan .permissive "a:\n    b:\n        c: 1\n  d: 2\ne: 3" =
        .error ⟨.underflow, 5, ⟨30, 34⟩, 0⟩ ∧
      ∃ first ending rest, splitLines "a:\n    b:\n        c: 1\n  d: 2\ne: 3" =
        (first, ending) :: rest ∧
        ((0 : Nat) < indentation first ∨ (IndentRule.permissive.strictDedent = false ∧
          ∃ e', scan IndentRule.permissive.strict "a:\n    b:\n        c: 1\n  d: 2\ne: 3" =
            .error e' ∧ e'.fault = .misaligned ∧ e'.line < 5)) := by
  have h : scan .permissive "a:\n    b:\n        c: 1\n  d: 2\ne: 3" =
      .error ⟨.underflow, 5, ⟨30, 34⟩, 0⟩ := by decide
  exact ⟨h, scan_underflow_left_of_start _ _ h rfl⟩

end Line

end YamlEdit
