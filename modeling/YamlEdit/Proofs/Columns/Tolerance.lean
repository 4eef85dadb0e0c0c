import YamlEdit.Proofs.Columns.Dropping
import YamlEdit.Proofs.BlankLines

/-!
# Dropping lines under the permissive rule

The permissive rule lets a dedent land between two open columns: it pops the increment it
overshoots, and the scan goes on. A permissive scan therefore fails only by underflow, when a
dedent finds too few increments left to pop. What counts about a stack of increments is which
dedents it can take, and what it is left with after each. `Tolerates K F` says that `K` takes
every dedent `F` takes, and what is left of `K` tolerates what is left of `F`.

Two facts carry the rest: increments on top of a stack only help (`tolerates_of_suffix`), and
a line read before a dedent to a column left of it only hurts (`place_place_dominated`): going
straight to the column leaves a stack that tolerates the one that went through the deeper line
first. A dropped block is a run of lines deeper than its first line, read before the line that
closes it, so the scan of the kept lines keeps a stack that tolerates the full scan's, and goes
on wherever the full scan does (`placeAll_filter_kept`).
-/

namespace YamlEdit

namespace IndentStack

theorem popIncrements_zero (strict : Bool) (incs : List Nat) :
    popIncrements strict 0 incs = .ok incs := by
  rw [popIncrements]

/-- A permissive dedent that ends inside the innermost increment pops that increment alone. -/
theorem popIncrements_cons_of_lt {r d : Nat} (hr : 0 < r) (h : r < d) (incs : List Nat) :
    popIncrements false r (d :: incs) = .ok incs := by
  obtain ⟨r, rfl⟩ : ∃ r', r = r' + 1 := ⟨r - 1, by omega⟩
  rw [popIncrements, if_pos h]
  rfl

/-- A dedent that covers the innermost increment pops it and goes on with the rest. -/
theorem popIncrements_cons_of_le {strict : Bool} {r d : Nat} (hr : 0 < r) (h : d ≤ r)
    (incs : List Nat) : popIncrements strict r (d :: incs) = popIncrements strict (r - d) incs := by
  obtain ⟨r, rfl⟩ : ∃ r', r = r' + 1 := ⟨r - 1, by omega⟩
  rw [popIncrements, if_neg (by omega)]

/-- Popping increments leaves a suffix of them. -/
theorem popIncrements_suffix {strict : Bool} :
    ∀ {r : Nat} {incs incs' : List Nat}, popIncrements strict r incs = .ok incs' → incs' <:+ incs
  | 0, incs, _, h => by
    rw [popIncrements] at h
    cases h
    exact List.suffix_refl incs
  | _ + 1, [], _, h => by simp [popIncrements] at h
  | r + 1, d :: incs, incs', h => by
    rw [popIncrements] at h
    split at h
    · cases strict
      · cases h
        exact List.suffix_cons d incs
      · cases h
    · exact (popIncrements_suffix h).trans (List.suffix_cons d incs)

/-- A dedent pops at least one increment. -/
theorem popIncrements_length_lt {strict : Bool} {r : Nat} {incs incs' : List Nat} (hr : 0 < r)
    (h : popIncrements strict r incs = .ok incs') : incs'.length < incs.length := by
  obtain ⟨r, rfl⟩ : ∃ r', r = r' + 1 := ⟨r - 1, by omega⟩
  cases incs with
  | nil => simp [popIncrements] at h
  | cons d incs =>
    rw [popIncrements] at h
    have hle : incs'.length ≤ incs.length := by
      split at h
      · cases strict
        · cases h
          exact Nat.le_refl _
        · cases h
      · exact (popIncrements_suffix h).length_le
    simp only [List.length_cons]
    omega

/-- A dedent of `r` columns pops increments worth at least `r`. -/
theorem sum_add_le_of_popIncrements {strict : Bool} :
    ∀ {r : Nat} {incs incs' : List Nat}, popIncrements strict r incs = .ok incs' →
      incs'.sum + r ≤ incs.sum
  | 0, incs, _, h => by
    rw [popIncrements] at h
    cases h
    simp
  | _ + 1, [], _, h => by simp [popIncrements] at h
  | r + 1, d :: incs, incs', h => by
    rw [popIncrements] at h
    split at h
    · cases strict
      · cases h
        simp only [List.sum_cons]
        omega
      · cases h
    · have := sum_add_le_of_popIncrements h
      simp only [List.sum_cons]
      omega

/-- A smaller permissive dedent succeeds where a larger one does, and pops no more. -/
theorem popIncrements_mono :
    ∀ {a b : Nat} {incs D : List Nat}, a ≤ b → popIncrements false b incs = .ok D →
      ∃ C, popIncrements false a incs = .ok C ∧ D <:+ C
  | 0, _, incs, _, _, h => ⟨incs, popIncrements_zero false incs, popIncrements_suffix h⟩
  | _ + 1, 0, _, _, hab, _ => absurd hab (by omega)
  | _ + 1, _ + 1, [], _, _, h => by simp [popIncrements] at h
  | a + 1, b + 1, d :: incs, D, hab, h => by
    rw [popIncrements] at h ⊢
    by_cases hb : b + 1 < d
    · rw [if_pos hb] at h
      cases h
      exact ⟨incs, by rw [if_pos (by omega)]; rfl, List.suffix_refl incs⟩
    rw [if_neg hb] at h
    by_cases ha : a + 1 < d
    · exact ⟨incs, by rw [if_pos ha]; rfl, popIncrements_suffix h⟩
    · rw [if_neg ha]
      exact popIncrements_mono (by omega) h

/-- Increments put on top of a stack take every dedent the stack takes, and pop no more of it. -/
theorem popIncrements_append {r : Nat} {B B' : List Nat} (h : popIncrements false r B = .ok B') :
    ∀ X : List Nat, ∃ C, popIncrements false r (X ++ B) = .ok C ∧ B' <:+ C
  | [] => ⟨B', h, List.suffix_refl B'⟩
  | d :: X => by
    cases r with
    | zero =>
      rw [popIncrements] at h
      cases h
      exact ⟨d :: X ++ B, popIncrements_zero false _, List.suffix_append (d :: X) B⟩
    | succ r =>
      rw [List.cons_append, popIncrements]
      by_cases hr : r + 1 < d
      · exact ⟨X ++ B, by rw [if_pos hr]; rfl,
          (popIncrements_suffix h).trans (List.suffix_append X B)⟩
      · rw [if_neg hr]
        obtain ⟨B'', hB'', hsub⟩ := popIncrements_mono (Nat.sub_le (r + 1) d) h
        obtain ⟨C, hC, hsub'⟩ := popIncrements_append hB'' X
        exact ⟨C, hC, hsub.trans hsub'⟩

/-- A dedent taken in two steps pops at least what it pops in one. -/
theorem popIncrements_add {b : Nat} :
    ∀ {a : Nat} {I J B : List Nat}, popIncrements false a I = .ok J →
      popIncrements false b J = .ok B → ∃ C, popIncrements false (a + b) I = .ok C ∧ B <:+ C
  | 0, I, J, B, hJ, hB => by
    rw [popIncrements] at hJ
    cases hJ
    exact ⟨B, by rwa [Nat.zero_add], List.suffix_refl B⟩
  | _ + 1, [], _, _, hJ, _ => by simp [popIncrements] at hJ
  | a + 1, d :: I, J, B, hJ, hB => by
    rw [popIncrements] at hJ
    have hab : a + 1 + b = (a + b) + 1 := by omega
    rw [hab, popIncrements]
    by_cases ha : a + 1 < d
    · rw [if_pos ha] at hJ
      cases hJ
      by_cases hab' : a + b + 1 < d
      · exact ⟨I, by rw [if_pos hab']; rfl, popIncrements_suffix hB⟩
      · rw [if_neg hab']
        exact popIncrements_mono (by omega) hB
    · rw [if_neg ha] at hJ
      rw [if_neg (by omega)]
      obtain ⟨C, hC, hsub⟩ := popIncrements_add hJ hB
      exact ⟨C, by rwa [show a + b + 1 - d = a + 1 - d + b by omega], hsub⟩

/-- Pops the dedents `rs` one after another, permissively: `none` once one of them finds too few
increments. -/
def popEach : List Nat → List Nat → Option (List Nat)
  | incs, [] => some incs
  | incs, r :: rs =>
    match popIncrements false r incs with
    | .ok incs' => popEach incs' rs
    | .error _ => none

theorem popEach_cons_of_ok {r : Nat} {incs incs' : List Nat}
    (h : popIncrements false r incs = .ok incs') (rs : List Nat) :
    popEach incs (r :: rs) = popEach incs' rs := by
  rw [popEach, h]

/-- A dedent that covers the innermost increment goes on, in a run, as what is left of it. -/
theorem popEach_cons_of_le {r d : Nat} (hr : 0 < r) (h : d ≤ r) (incs rs : List Nat) :
    popEach (d :: incs) (r :: rs) = popEach incs ((r - d) :: rs) := by
  rw [popEach, popEach, popIncrements_cons_of_le hr h]

/-- `Tolerates K F`: under the permissive rule, the increments `K` take every run of dedents that
`F` takes. -/
def Tolerates (K F : List Nat) : Prop :=
  ∀ rs : List Nat, (popEach F rs).isSome → (popEach K rs).isSome

@[refl] theorem Tolerates.refl (F : List Nat) : Tolerates F F :=
  fun _ h => h

theorem Tolerates.trans {A B C : List Nat} (hAB : Tolerates A B) (hBC : Tolerates B C) :
    Tolerates A C :=
  fun rs h => hAB rs (hBC rs h)

/-- A dedent that `F` takes, `K` takes too, and what is left of `K` tolerates what is left of
`F`. -/
theorem Tolerates.pop {K F F' : List Nat} {r : Nat} (h : Tolerates K F)
    (hF : popIncrements false r F = .ok F') :
    ∃ K', popIncrements false r K = .ok K' ∧ Tolerates K' F' := by
  have hK := h [r] (by rw [popEach_cons_of_ok hF]; rfl)
  cases hpop : popIncrements false r K with
  | error f => simp [popEach, hpop] at hK
  | ok K' =>
    refine ⟨K', rfl, fun rs hrs => ?_⟩
    have := h (r :: rs) (by rwa [popEach_cons_of_ok hF])
    rwa [popEach_cons_of_ok hpop] at this

/-- The same increment put on two stacks keeps the one tolerating the other. -/
theorem Tolerates.cons {K F : List Nat} (h : Tolerates K F) (d : Nat) :
    Tolerates (d :: K) (d :: F) := by
  intro rs
  induction rs with
  | nil => simp [popEach]
  | cons r rs ih =>
    rcases Nat.eq_zero_or_pos r with rfl | hr
    · rw [popEach_cons_of_ok (popIncrements_zero false _),
        popEach_cons_of_ok (popIncrements_zero false _)]
      exact ih
    by_cases hd : r < d
    · rw [popEach_cons_of_ok (popIncrements_cons_of_lt hr hd F),
        popEach_cons_of_ok (popIncrements_cons_of_lt hr hd K)]
      exact h rs
    · rw [popEach_cons_of_le hr (by omega), popEach_cons_of_le hr (by omega)]
      exact h _

/-- Increments on top of a stack only help. -/
theorem tolerates_of_suffix {K F : List Nat} (h : F <:+ K) : Tolerates K F := by
  intro rs
  induction rs generalizing K F with
  | nil => simp [popEach]
  | cons r rs ih =>
    obtain ⟨X, rfl⟩ := h
    cases hF : popIncrements false r F with
    | error f => simp [popEach, hF]
    | ok F' =>
      obtain ⟨C, hC, hsub⟩ := popIncrements_append hF X
      rw [popEach_cons_of_ok hF, popEach_cons_of_ok hC]
      exact ih hsub

section Place

variable {rule : IndentRule} {incs : List Nat} {p x : Nat} {blank : Bool}

/-- The first line sets the reference column, whatever it holds. -/
theorem place_fresh (rule : IndentRule) (incs : List Nat) (x : Nat) (blank : Bool) :
    (⟨incs, none⟩ : IndentStack).place rule x blank = .ok ⟨incs, some x⟩ := by
  simp [place]

/-- A line on the column of the last measured one leaves the stack as it is. -/
theorem place_stay (rule : IndentRule) (incs : List Nat) (p : Nat) (blank : Bool) :
    (⟨incs, some p⟩ : IndentStack).place rule p blank = .ok ⟨incs, some p⟩ := by
  simp [place]

/-- A line the rule does not measure leaves a stack that has seen a line as it is. -/
theorem place_unmeasured (hm : (blank && rule.blankLinesInherit) = true) :
    (⟨incs, some p⟩ : IndentStack).place rule x blank = .ok ⟨incs, some p⟩ := by
  simp [place, hm]

/-- A measured line right of the last one pushes the increment between them. -/
theorem place_push (hm : (blank && rule.blankLinesInherit) = false) (hp : p < x) :
    (⟨incs, some p⟩ : IndentStack).place rule x blank = .ok ⟨(x - p) :: incs, some x⟩ := by
  simp [place, hm, hp]

/-- A measured line left of the last one pops the increments its dedent covers. -/
theorem place_pop (hm : (blank && rule.blankLinesInherit) = false) (hp : x < p) :
    (⟨incs, some p⟩ : IndentStack).place rule x blank =
      (popIncrements rule.strictDedent (p - x) incs).map (⟨·, some x⟩) := by
  simp only [place, Option.getD_some, hm, Bool.false_eq_true, if_false, Nat.not_lt.2 (Nat.le_of_lt hp), hp, if_true]
  cases popIncrements rule.strictDedent (p - x) incs <;> rfl

/-- A measured dedent places exactly when the increments it covers pop. -/
theorem place_pop_eq_ok_iff (hm : (blank && rule.blankLinesInherit) = false) (hp : x < p)
    {B : IndentStack} : (⟨incs, some p⟩ : IndentStack).place rule x blank = .ok B ↔
      ∃ incs', popIncrements rule.strictDedent (p - x) incs = .ok incs' ∧ B = ⟨incs', some x⟩ := by
  rw [place_pop hm hp]
  cases popIncrements rule.strictDedent (p - x) incs with
  | error f => simp [Except.map]
  | ok incs' => simp [Except.map, eq_comm]

/-- A measured line is placed as a line that holds more than white space. -/
theorem place_measured (hm : (blank && rule.blankLinesInherit) = false) (s : IndentStack) :
    s.place rule x blank = s.place rule x false := by
  simp [place, hm]

end Place

/-- `Dominates K F`: two stacks whose last measured lines stand on the same column, where `K`'s
increments tolerate `F`'s. -/
structure Dominates (K F : IndentStack) : Prop where
  previous : K.previous? = F.previous?
  tolerates : Tolerates K.increments F.increments

theorem Dominates.refl (s : IndentStack) : Dominates s s :=
  ⟨rfl, Tolerates.refl _⟩

theorem Dominates.trans {A B C : IndentStack} (hAB : Dominates A B) (hBC : Dominates B C) :
    Dominates A C :=
  ⟨hAB.previous.trans hBC.previous, hAB.tolerates.trans hBC.tolerates⟩

section Permissive

variable {rule : IndentRule} (hperm : rule.strictDedent = false)
include hperm

/-- A line read on two stacks, one dominating the other, keeps the one dominating the other. -/
theorem Dominates.place {K F F' : IndentStack} (h : Dominates K F) {x : Nat} {blank : Bool}
    (hF : F.place rule x blank = .ok F') : ∃ K', K.place rule x blank = .ok K' ∧ Dominates K' F' := by
  obtain ⟨KI, Kp⟩ := K
  obtain ⟨FI, Fp⟩ := F
  obtain ⟨hprev, htol⟩ := h
  simp only at hprev htol
  subst hprev
  cases Kp with
  | none =>
    rw [place_fresh] at hF ⊢
    cases hF
    exact ⟨_, rfl, rfl, htol⟩
  | some p =>
    by_cases hm : (blank && rule.blankLinesInherit) = true
    · rw [place_unmeasured hm] at hF ⊢
      cases hF
      exact ⟨_, rfl, rfl, htol⟩
    rw [Bool.not_eq_true] at hm
    rcases Nat.lt_trichotomy p x with hlt | rfl | hgt
    · rw [place_push hm hlt] at hF ⊢
      cases hF
      exact ⟨_, rfl, rfl, htol.cons (x - p)⟩
    · rw [place_stay] at hF ⊢
      cases hF
      exact ⟨_, rfl, rfl, htol⟩
    · obtain ⟨FI', hpop, rfl⟩ := (place_pop_eq_ok_iff hm hgt).1 hF
      rw [hperm] at hpop
      obtain ⟨KI', hKI', htol'⟩ := htol.pop hpop
      exact ⟨_, (place_pop_eq_ok_iff hm hgt).2 ⟨KI', hperm ▸ hKI', rfl⟩, rfl, htol'⟩

/-- Reading a line right of `x` before a line at `x` only hurts: the stack that reads `x` directly
dominates the one that reads the other line first. -/
theorem place_place_dominated {T U B : IndentStack} {x y : Nat} (hxy : x ≤ y)
    (hy : T.place rule y false = .ok U) (hx : U.place rule x false = .ok B) :
    ∃ C, T.place rule x false = .ok C ∧ Dominates C B := by
  have hm : (false && rule.blankLinesInherit) = false := rfl
  obtain ⟨I, q⟩ := T
  cases q with
  | none =>
    rw [place_fresh] at hy
    cases hy
    rcases Nat.eq_or_lt_of_le hxy with rfl | hlt
    · rw [place_stay] at hx
      cases hx
      exact ⟨_, place_fresh rule I x false, Dominates.refl _⟩
    · obtain ⟨I', hpop, rfl⟩ := (place_pop_eq_ok_iff hm hlt).1 hx
      exact ⟨_, place_fresh rule I x false, rfl, tolerates_of_suffix (popIncrements_suffix hpop)⟩
  | some p =>
    rcases Nat.lt_trichotomy p y with hpy | rfl | hyp
    · -- the line at `y` pushes an increment, which a dedent to `x` pops again
      rw [place_push hm hpy] at hy
      cases hy
      rcases Nat.eq_or_lt_of_le hxy with rfl | hxy
      · rw [place_stay] at hx
        cases hx
        exact ⟨_, place_push hm hpy, Dominates.refl _⟩
      rw [place_pop hm hxy, hperm] at hx
      rcases Nat.lt_trichotomy p x with hpx | rfl | hxp
      · rw [popIncrements_cons_of_lt (by omega) (by omega)] at hx
        cases hx
        exact ⟨_, place_push hm hpx, rfl, tolerates_of_suffix (List.suffix_cons _ I)⟩
      · rw [popIncrements_cons_of_le (by omega) (Nat.le_refl _), Nat.sub_self,
          popIncrements_zero] at hx
        cases hx
        exact ⟨_, place_stay rule I p false, Dominates.refl _⟩
      · rw [popIncrements_cons_of_le (by omega) (by omega),
          show y - x - (y - p) = p - x by omega] at hx
        exact ⟨B, by rw [place_pop hm hxp, hperm]; exact hx, Dominates.refl _⟩
    · rw [place_stay] at hy
      cases hy
      exact ⟨B, hx, Dominates.refl _⟩
    · -- the line at `y` pops on its way to `x`, in two steps where `x` takes one
      obtain ⟨J, hJ, rfl⟩ := (place_pop_eq_ok_iff hm hyp).1 hy
      rcases Nat.eq_or_lt_of_le hxy with rfl | hxy
      · rw [place_stay] at hx
        cases hx
        exact ⟨_, (place_pop_eq_ok_iff hm hyp).2 ⟨J, hJ, rfl⟩, Dominates.refl _⟩
      obtain ⟨B', hB, rfl⟩ := (place_pop_eq_ok_iff hm hxy).1 hx
      rw [hperm] at hJ hB
      obtain ⟨C, hC, hsub⟩ := popIncrements_add hJ hB
      rw [show p - y + (y - x) = p - x by omega] at hC
      exact ⟨_, (place_pop_eq_ok_iff hm (by omega)).2 ⟨C, hperm ▸ hC, rfl⟩, rfl,
        tolerates_of_suffix hsub⟩

end Permissive

/-- Places rows of indentation and blankness one after another. -/
def placeAll (rule : IndentRule) : IndentStack → List (Nat × Bool) → Except IndentFault IndentStack
  | s, [] => .ok s
  | s, (x, blank) :: rows =>
    match s.place rule x blank with
    | .ok s' => placeAll rule s' rows
    | .error f => .error f

theorem placeAll_cons_of_ok {rule : IndentRule} {s s' : IndentStack} {x : Nat} {blank : Bool}
    (h : s.place rule x blank = .ok s') (rows : List (Nat × Bool)) :
    placeAll rule s ((x, blank) :: rows) = placeAll rule s' rows := by
  rw [placeAll, h]

/-- Rows placed one after another: where one has no place, none after it is placed. -/
theorem placeAll_cons_of_error {rule : IndentRule} {s : IndentStack} {x : Nat} {blank : Bool}
    {f : IndentFault} (h : s.place rule x blank = .error f) (rows : List (Nat × Bool)) :
    placeAll rule s ((x, blank) :: rows) = .error f := by
  rw [placeAll, h]

/-- Placing a row at the end needs the rows before it placed. -/
theorem placeAll_append_singleton {rule : IndentRule} :
    ∀ {s : IndentStack} {rows : List (Nat × Bool)} {r : Nat × Bool},
      (placeAll rule s (rows ++ [r])).toOption.isSome → (placeAll rule s rows).toOption.isSome
  | s, [], _, _ => rfl
  | s, (x, blank) :: rows, r, h => by
    rw [List.cons_append] at h
    cases hs : s.place rule x blank with
    | error f => rw [placeAll_cons_of_error hs] at h; cases h
    | ok s' =>
      rw [placeAll_cons_of_ok hs] at h ⊢
      exact placeAll_append_singleton h

/-- A last row the rule does not measure places wherever it stands, once a line has been placed
or not. -/
theorem placeAll_append_unmeasured {rule : IndentRule} {x x' : Nat}
    (hinherit : rule.blankLinesInherit = true) :
    ∀ (s : IndentStack) (rows : List (Nat × Bool)),
      (placeAll rule s (rows ++ [(x, true)])).toOption.isSome =
        (placeAll rule s (rows ++ [(x', true)])).toOption.isSome
  | ⟨incs, q⟩, [] => by
    cases q with
    | none => simp [placeAll, place_fresh, Except.toOption]
    | some p => simp [placeAll, place_unmeasured (show (true && rule.blankLinesInherit) = true by
        simp [hinherit]), Except.toOption]
  | s, (y, blank) :: rows => by
    rw [List.cons_append, List.cons_append]
    cases hs : s.place rule y blank with
    | error f => rw [placeAll_cons_of_error hs, placeAll_cons_of_error hs]
    | ok s' =>
      rw [placeAll_cons_of_ok hs, placeAll_cons_of_ok hs]
      exact placeAll_append_unmeasured hinherit s' rows

end IndentStack

namespace Line

open IndentStack

/-- A scan goes through its lines exactly when their rows place one after another. -/
theorem scanFrom_isSome (rule : IndentRule) :
    ∀ (ps : List (List Char × LineEnding)) (s : IndentStack) (number offset : Nat),
      (scanFrom rule s number offset ps).toOption.isSome =
        (placeAll rule s (ps.map fun p => (Text.indentation p.1, Text.isBlank p.1))).toOption.isSome
  | [], _, _, _ => rfl
  | (content, ending) :: ps, s, number, offset => by
    rw [List.map_cons]
    cases hs : s.place rule (Text.indentation content) (Text.isBlank content) with
    | error f =>
      rw [scanFrom_cons_error hs, placeAll_cons_of_error hs]
      rfl
    | ok s' =>
      rw [scanFrom_cons_ok hs, placeAll_cons_of_ok hs,
        ← scanFrom_isSome rule ps s' (number + 1)
          (offset + (String.ofList content).utf8ByteSize + ending.byteSize)]
      cases scanFrom rule s' (number + 1)
          (offset + (String.ofList content).utf8ByteSize + ending.byteSize) ps <;> rfl

/-- A line as the indentation stack reads it: its indentation, and whether it is blank. -/
def stackRow (l : Line) : Nat × Bool :=
  (l.indent, l.isBlank)

/-- From the stack `T`, every line at or left of the column `c` and not left of the reference
column `ref` is read onto a stack that the scan of the kept lines, from `K`, dominates. -/
def Closes (rule : IndentRule) (ref c : Nat) (T K : IndentStack) : Prop :=
  ∀ x, ref ≤ x → x ≤ c → ∀ B, T.place rule x false = .ok B →
    ∃ C, K.place rule x false = .ok C ∧ C.Dominates B

/-- A kept scan that has read no line, and closes the reference column alone, still closes it
once it reads its first line there. -/
theorem Closes.fresh {rule : IndentRule} {ref : Nat} {T : IndentStack} {KI : List Nat}
    (h : Closes rule ref ref T ⟨KI, none⟩) : Closes rule ref ref T ⟨KI, some ref⟩ := by
  intro x hxref hxc B hB
  obtain rfl : x = ref := Nat.le_antisymm hxc hxref
  obtain ⟨C, hC, hdom⟩ := h x hxref hxc B hB
  rw [place_fresh] at hC
  cases hC
  exact ⟨_, place_stay rule KI x false, hdom⟩

section Closing

variable {rule : IndentRule} (hperm : rule.strictDedent = false)
include hperm

/-- A dominating stack closes every column. -/
theorem Closes.of_dominates {ref : Nat} {T K : IndentStack} (h : K.Dominates T) (c : Nat) :
    Closes rule ref c T K :=
  fun _ _ _ _ hB => h.place hperm hB

/-- A line read by the full scan alone, right of every column still to close, keeps them
closing. -/
theorem Closes.place {ref c c' y : Nat} {T U K : IndentStack} (h : Closes rule ref c T K)
    (hy : T.place rule y false = .ok U) (hc : c' ≤ c) (hcy : c' ≤ y) : Closes rule ref c' U K := by
  intro x hxref hxc B hB
  obtain ⟨B₀, hB₀, hdom⟩ := place_place_dominated hperm (Nat.le_trans hxc hcy) hy hB
  obtain ⟨C, hC, hdom'⟩ := h x hxref (Nat.le_trans hxc hc) B₀ hB₀
  exact ⟨C, hC, hdom'.trans hdom⟩

end Closing

section Trailing

variable {rule : IndentRule} {L : List Line} {blocks : List (Nat × Nat)} {D : Finset Nat}
  {ref : Nat}

/-- How the full permissive scan, with stack `T` before line `j`, and the scan of the kept lines,
with stack `K`, relate. Either they are in step: no block opened before `j` reaches it, and `K`
dominates `T`. Or a block `b`, opened on the line `first`, is being dropped: every line that can
close it is read onto a stack that the kept scan's dominates. No block opened before `b` reaches
it, no line after `b` and before `j` is measured, and before any kept line, `first` lies on the
reference column. -/
inductive Trails (rule : IndentRule) (L : List Line) (blocks : List (Nat × Nat)) (ref j : Nat) :
    IndentStack → IndentStack → Prop
  | inStep {T K : IndentStack} (hopen : ∀ b ∈ blocks, b.1 < j → b.2 < j) (hdom : K.Dominates T) :
      Trails rule L blocks ref j T K
  | dropping {T K : IndentStack} {b : Nat × Nat} {first : Line} (hb : b ∈ blocks)
      (hfirst : first ∈ L) (hnum : first.number = b.1) (hlt : b.1 < j)
      (hbefore : ∀ b' ∈ blocks, b'.1 < b.1 → b'.2 < b.1)
      (hquiet : ∀ l ∈ L, b.2 < l.number → l.number < j → l.measured rule.blankLinesInherit = false)
      (hclose : Closes rule ref first.indent T K) (hfresh : K.previous? = none → first.indent = ref) :
      Trails rule L blocks ref j T K

variable (hperm : rule.strictDedent = false) (hd : BlockDrop rule.blankLinesInherit L blocks D)
include hperm hd

/-- Entering a dropped block on the line `l`: what closed the columns up to `c` before it closes
the columns up to `l`'s after it. -/
theorem Trails.enter {j : Nat} {T U K : IndentStack} {l : Line}
    (hopen : ∀ b ∈ blocks, b.1 < j → b.2 < j) (hj : j ∈ D) (hl : l ∈ L) (hnum : l.number = j)
    {c : Nat} (hclose : Closes rule ref c T K) (hc : l.indent ≤ c)
    (hstep : T.place rule l.indent false = .ok U) (hfresh : K.previous? = none → l.indent = ref) :
    Trails rule L blocks ref (j + 1) U K := by
  obtain ⟨b, hb, hstart, hend⟩ := hd.opens_of_before hopen hj
  refine .dropping hb hl (hnum.trans hstart.symm) (by omega) (fun b' hb' hlt => ?_)
    (fun l' _ h1 h2 => by omega) (hclose.place hperm hstep hc (Nat.le_refl _)) hfresh
  rw [hstart] at hlt ⊢
  exact hopen b' hb' hlt

/-- One dropped line: the full scan moves on, the other stays. -/
theorem Trails.step_dropped (hnodup : (L.map Line.number).Nodup)
    (href : ∀ top ∈ L.head?, top.indent = ref) {j : Nat} {T T' K : IndentStack} {l : Line}
    (ht : Trails rule L blocks ref j T K) (hT : T.previous?.isSome) (hl : l ∈ L)
    (hnum : l.number = j) (hj : j ∈ D) (hstep : T.place rule l.indent l.isBlank = .ok T') :
    Trails rule L blocks ref (j + 1) T' K := by
  obtain ⟨p, hp⟩ := Option.isSome_iff_exists.1 hT
  obtain ⟨I, q⟩ := T
  simp only at hp
  subst hp
  cases ht with
  | inStep hopen hdom =>
    obtain ⟨b, hb, hstart, -⟩ := hd.opens_of_before hopen hj
    have hm := hd.measured_start hnodup hb hl (hnum.trans hstart.symm)
    rw [place_measured (measured_eq_true_iff.1 hm)] at hstep
    exact Trails.enter hperm hd hopen hj hl hnum (Closes.of_dominates hperm hdom l.indent)
      (Nat.le_refl _) hstep fun h => absurd (hdom.previous.symm.trans h) (by simp)
  | @dropping b first hb hfirst hfnum hlt hbefore hquiet hclose hfresh =>
    cases hm : l.measured rule.blankLinesInherit
    · -- a line the scan does not measure leaves the full scan where it was
      rw [place_unmeasured (measured_eq_false_iff.1 hm)] at hstep
      cases hstep
      exact .dropping hb hfirst hfnum (by omega) hbefore
        (fun l' hl' h1 h2 => if hin : j ≤ b.2 then by omega else
          quiet_succ hnodup hquiet hl hnum hm l' hl' h1 h2) hclose hfresh
    rw [place_measured (measured_eq_true_iff.1 hm)] at hstep
    by_cases hin : j ≤ b.2
    · have hdeep := (hd.closed b hb first hfirst hfnum).1 l hl (by omega) (by omega) hm
      exact .dropping hb hfirst hfnum (by omega) hbefore (fun l' _ h1 h2 => by omega)
        (hclose.place hperm hstep (Nat.le_refl _) (Nat.le_of_lt hdeep)) hfresh
    · obtain ⟨hxref, hxc⟩ := hd.landing_bounds href hb hfirst hfnum hquiet hl hnum (by omega)
      exact Trails.enter hperm hd (hd.before_of_landing hb hfirst hfnum hlt hbefore hquiet hl hnum
        hm hxc) hj hl hnum hclose hxc hstep fun h => Nat.le_antisymm (hfresh h ▸ hxc) hxref

/-- One kept line: both scans move on. -/
theorem Trails.step_kept (href : ∀ top ∈ L.head?, top.indent = ref) (hnodup : (L.map Line.number).Nodup)
    {j : Nat} {T T' K : IndentStack} {l : Line} (ht : Trails rule L blocks ref j T K)
    (hT : T.previous?.isSome) (hl : l ∈ L) (hnum : l.number = j) (hj : j ∉ D)
    (hstep : T.place rule l.indent l.isBlank = .ok T') :
    ∃ K', K.place rule l.indent l.isBlank = .ok K' ∧ Trails rule L blocks ref (j + 1) T' K' := by
  cases ht with
  | inStep hopen hdom =>
    obtain ⟨K', hK', hdom'⟩ := hdom.place hperm hstep
    exact ⟨K', hK', .inStep (hd.before_of_kept hj) hdom'⟩
  | @dropping b first hb hfirst hfnum hlt hbefore hquiet hclose hfresh =>
    have hpast : b.2 < j := by
      by_contra hin
      exact hj ((hd.mem_iff j).2 ⟨b, hb, by omega, by omega⟩)
    obtain ⟨hxref, hxc⟩ := hd.landing_bounds href hb hfirst hfnum hquiet hl hnum hpast
    cases hm : l.measured rule.blankLinesInherit
    · -- an unmeasured kept line moves the kept scan only if it is the first line it reads
      have hun := measured_eq_false_iff.1 hm
      obtain ⟨p, hp⟩ := Option.isSome_iff_exists.1 hT
      obtain ⟨I, q⟩ := T
      simp only at hp
      subst hp
      rw [place_unmeasured hun] at hstep
      cases hstep
      obtain ⟨KI, Kq⟩ := K
      cases Kq with
      | none =>
        have hc : first.indent = ref := hfresh rfl
        have hx : l.indent = ref := Nat.le_antisymm (hc ▸ hxc) hxref
        rw [hc] at hclose
        refine ⟨_, place_fresh rule KI l.indent l.isBlank, .dropping hb hfirst hfnum (by omega)
          hbefore (quiet_succ hnodup hquiet hl hnum hm) ?_ fun h => by cases h⟩
        rw [hc, hx]
        exact hclose.fresh
      | some r =>
        exact ⟨_, place_unmeasured hun, .dropping hb hfirst hfnum (by omega) hbefore
          (quiet_succ hnodup hquiet hl hnum hm) hclose hfresh⟩
    · rw [place_measured (measured_eq_true_iff.1 hm)] at hstep ⊢
      obtain ⟨C, hC, hdom⟩ := hclose l.indent hxref hxc T' hstep
      exact ⟨C, hC, .inStep (hd.before_of_kept hj) hdom⟩

/-- Along the lines from `j` on, a full permissive scan in relation with a scan of the kept lines:
where the full scan goes through, so does the other. -/
theorem Trails.run (hnodup : (L.map Line.number).Nodup) (href : ∀ top ∈ L.head?, top.indent = ref) :
    ∀ (ls : List Line) {j : Nat} {T K : IndentStack},
      ls.map Line.number = List.range' j ls.length → (∀ l ∈ ls, l ∈ L) →
      Trails rule L blocks ref j T K → T.previous?.isSome →
      (placeAll rule T (ls.map stackRow)).toOption.isSome →
      (placeAll rule K ((ls.filter fun l => l.number ∉ D).map stackRow)).toOption.isSome
  | [], _, _, _, _, _, _, _, _ => rfl
  | l :: ls, j, T, K, hnums, hmem, ht, hT, hfull => by
    simp only [List.map_cons, List.length_cons, List.range'_succ, List.cons.injEq] at hnums
    obtain ⟨hnum, hnums⟩ := hnums
    have hl := hmem l List.mem_cons_self
    have hmem' : ∀ l' ∈ ls, l' ∈ L := fun l' hl' => hmem l' (List.mem_cons_of_mem l hl')
    rw [List.map_cons, stackRow] at hfull
    cases hstep : T.place rule l.indent l.isBlank with
    | error f => rw [placeAll_cons_of_error hstep] at hfull; cases hfull
    | ok T' =>
      rw [placeAll_cons_of_ok hstep] at hfull
      have hT' := previous_isSome_of_place hstep
      by_cases hj : l.number ∈ D
      · rw [List.filter_cons_of_neg (by simpa using hj)]
        exact Trails.run hnodup href ls hnums hmem'
          (Trails.step_dropped hperm hd hnodup href ht hT hl hnum (hnum ▸ hj) hstep) hT' hfull
      · obtain ⟨K', hK', ht'⟩ := Trails.step_kept hperm hd href hnodup ht hT hl hnum (hnum ▸ hj) hstep
        rw [List.filter_cons_of_pos (by simpa using hj), List.map_cons, stackRow,
          placeAll_cons_of_ok hK']
        exact Trails.run hnodup href ls hnums hmem' ht' hT' hfull

/-- Under the permissive rule, dropping closed blocks from a text that scans leaves lines that
scan. -/
theorem placeAll_filter_kept (hnums : L.map Line.number = List.range' 1 L.length)
    (hfull : (placeAll rule {} (L.map stackRow)).toOption.isSome) :
    (placeAll rule {} ((L.filter fun l => l.number ∉ D).map stackRow)).toOption.isSome := by
  cases hL : L with
  | nil => rfl
  | cons first rest =>
    subst hL
    have hnodup : ((first :: rest).map Line.number).Nodup := by
      rw [hnums]
      exact List.nodup_range' 1
    have hstart : ∀ b ∈ blocks, 1 ≤ b.1 := fun b hb => hd.one_le_start hnums hb
    simp only [List.map_cons, List.length_cons, List.range'_succ, List.cons.injEq] at hnums
    obtain ⟨hnum, hnums⟩ := hnums
    have href : ∀ top ∈ (first :: rest).head?, top.indent = first.indent := by simp
    have hmem : ∀ l ∈ rest, l ∈ first :: rest := fun l hl => List.mem_cons_of_mem first hl
    have hfirst : ({} : IndentStack).place rule first.indent first.isBlank =
        .ok ⟨[], some first.indent⟩ := place_fresh rule [] first.indent first.isBlank
    rw [List.map_cons, stackRow, placeAll_cons_of_ok hfirst] at hfull
    by_cases h1 : 1 ∈ D
    · -- the first line opens a dropped block, on the reference column
      obtain ⟨b, hb, hb1, hb2⟩ :=
        hd.opens_of_before (fun b hb hlt => absurd (hstart b hb) (by omega)) h1
      have hclose : Closes rule first.indent first.indent ⟨[], some first.indent⟩ {} := by
        intro x hxref hxc B hB
        obtain rfl : x = first.indent := Nat.le_antisymm hxc hxref
        rw [place_stay] at hB
        cases hB
        exact ⟨_, place_fresh rule [] first.indent false, Dominates.refl _⟩
      have ht : Trails rule (first :: rest) blocks first.indent 2 ⟨[], some first.indent⟩ {} :=
        .dropping hb List.mem_cons_self (hnum.trans hb1.symm) (by omega)
          (fun b' hb' hlt => absurd (hstart b' hb') (by omega)) (fun l _ h1 h2 => by omega)
          hclose fun _ => rfl
      rw [List.filter_cons_of_neg (by simpa [hnum] using h1)]
      exact Trails.run hperm hd hnodup href rest hnums hmem ht rfl hfull
    · rw [List.filter_cons_of_pos (by simpa [hnum] using h1), List.map_cons, stackRow,
        placeAll_cons_of_ok hfirst]
      exact Trails.run hperm hd hnodup href rest hnums hmem
        (.inStep (hd.before_of_kept h1) (Dominates.refl _)) rfl hfull

end Trailing

end Line

end YamlEdit
