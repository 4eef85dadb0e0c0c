import Mathlib.Data.List.TakeWhile
import YamlEdit.Flow
import YamlEdit.Proofs.Lexer

/-!
# Brackets of flow collections

A line's flow collections are written with `[`, `{`, `]` and `}` in its punctuation; brackets
inside scalars and comments do not count. The brackets are *balanced and properly nested* when
reading them with a stack of the closers still owed, innermost first, never meets a closer that
pays nothing or pays the wrong collection, and ends owing nothing: `nest` is that reading.

Two facts carry the rest. Taking out or putting in a *closed* stretch, one that leaves the stack
as it found it, does not change what the reading gives. And the bracket counter the flow entries
are scanned with (`Flow.followBrackets`) agrees with the stack: a stretch that the counter reads
from depth `d` to depth `d'` without failing turns a stack owing `d` closers into one owing `d'`
on the same bottom.
-/

namespace YamlEdit

namespace Flow

/-- Whether a character opens a flow collection. -/
def isOpener (c : Char) : Bool :=
  c == '[' || c == '{'

/-- Whether a character closes a flow collection. -/
def isCloser (c : Char) : Bool :=
  c == ']' || c == '}'

/-- The brackets of a text, in order. -/
def brackets (cs : List Char) : List Char :=
  cs.filter fun c => isOpener c || isCloser c

/-- The closer of the collection an opener opens. -/
def closerOf (c : Char) : Char :=
  if c == '[' then ']' else '}'

/-- Reads the brackets of a text on top of the closers owed by the collections still open,
innermost first: an opener owes its closer, and a closer pays the innermost debt when it is that
closer. `none` at a closer that pays nothing or pays the wrong collection. -/
def nest : List Char → List Char → Option (List Char)
  | owed, [] => some owed
  | owed, c :: cs =>
    if isOpener c then nest (closerOf c :: owed) cs
    else if isCloser c then (if owed.head? == some c then nest owed.tail cs else none)
    else nest owed cs

/-- The brackets of a text are balanced and properly nested. -/
def Balanced (cs : List Char) : Prop :=
  nest [] cs = some []

instance (cs : List Char) : Decidable (Balanced cs) :=
  inferInstanceAs (Decidable (nest [] cs = some []))

/-- How many collections opened before a text the text closes: how far the bracket depth falls
below its start while the text is read. -/
def dip : List Char → Nat
  | [] => 0
  | c :: cs => if isOpener c then dip cs - 1 else if isCloser c then dip cs + 1 else dip cs

example : dip "], [x]".toList = 1 ∧ dip "]\x7d".toList = 2 ∧ dip "[]".toList = 0 := by decide

example : Balanced "{a: [b, {c: d}], e: []}".toList ∧ ¬Balanced "{a: [b}]".toList := by decide

/-! ## Reading with the stack -/

theorem isOpener_eq_false_of_isCloser {c : Char} (h : isCloser c = true) : isOpener c = false := by
  simp only [isCloser, Bool.or_eq_true, beq_iff_eq] at h
  rcases h with rfl | rfl <;> rfl

@[simp] theorem nest_nil (owed : List Char) : nest owed [] = some owed := rfl

theorem nest_cons_of_isOpener {c : Char} (h : isOpener c = true) (owed cs : List Char) :
    nest owed (c :: cs) = nest (closerOf c :: owed) cs := by
  simp [nest, h]

theorem nest_cons_of_isCloser {c : Char} (h : isCloser c = true) (owed cs : List Char) :
    nest owed (c :: cs) = if owed.head? == some c then nest owed.tail cs else none := by
  simp [nest, h, isOpener_eq_false_of_isCloser h]

theorem nest_cons_of_other {c : Char} (ho : isOpener c = false) (hc : isCloser c = false)
    (owed cs : List Char) : nest owed (c :: cs) = nest owed cs := by
  simp [nest, ho, hc]

theorem nest_append (owed a b : List Char) :
    nest owed (a ++ b) = (nest owed a).bind fun o => nest o b := by
  induction a generalizing owed with
  | nil => rfl
  | cons c a ih =>
    rw [List.cons_append]
    by_cases ho : isOpener c = true
    · rw [nest_cons_of_isOpener ho, nest_cons_of_isOpener ho, ih]
    by_cases hc : isCloser c = true
    · rw [nest_cons_of_isCloser hc, nest_cons_of_isCloser hc]
      split
      · exact ih _
      · rfl
    · simp only [Bool.not_eq_true] at ho hc
      rw [nest_cons_of_other ho hc, nest_cons_of_other ho hc, ih]

/-- A reading that gets through two stretches gets through the first. -/
theorem nest_append_eq_some {owed a b x : List Char} (h : nest owed (a ++ b) = some x) :
    ∃ y, nest owed a = some y ∧ nest y b = some x := by
  rw [nest_append] at h
  exact Option.bind_eq_some_iff.1 h

@[simp] theorem brackets_nil : brackets [] = [] := rfl

@[simp] theorem brackets_append (a b : List Char) :
    brackets (a ++ b) = brackets a ++ brackets b :=
  List.filter_append _ _

/-- Only the brackets of a text matter to the reading. -/
theorem nest_brackets (owed cs : List Char) : nest owed (brackets cs) = nest owed cs := by
  induction cs generalizing owed with
  | nil => rfl
  | cons c cs ih =>
    by_cases hb : (isOpener c || isCloser c) = true
    · rw [brackets, List.filter_cons, if_pos hb, ← brackets]
      by_cases ho : isOpener c = true
      · rw [nest_cons_of_isOpener ho, nest_cons_of_isOpener ho, ih]
      · have hc : isCloser c = true := by simpa [ho] using hb
        rw [nest_cons_of_isCloser hc, nest_cons_of_isCloser hc]
        split
        · exact ih _
        · rfl
    · rw [brackets, List.filter_cons, if_neg hb, ← brackets, ih]
      simp only [Bool.or_eq_true, not_or, Bool.not_eq_true] at hb
      rw [nest_cons_of_other hb.1 hb.2]

/-- What lies below the debts a text reads against is left alone. -/
theorem nest_bottom (extra : List Char) :
    ∀ {owed owed' cs : List Char}, nest owed cs = some owed' →
      nest (owed ++ extra) cs = some (owed' ++ extra)
  | _, _, [], h => by cases h; rfl
  | owed, _, c :: cs, h => by
    by_cases ho : isOpener c = true
    · rw [nest_cons_of_isOpener ho] at h ⊢
      exact nest_bottom extra h
    by_cases hc : isCloser c = true
    · rw [nest_cons_of_isCloser hc] at h ⊢
      cases owed with
      | nil => cases h
      | cons o rest =>
        split at h
        · rw [if_pos (by simpa using ‹(some o == some c) = true›)]
          exact nest_bottom extra h
        · cases h
    · simp only [Bool.not_eq_true] at ho hc
      rw [nest_cons_of_other ho hc] at h ⊢
      exact nest_bottom extra h

/-- A balanced stretch leaves any stack as it found it. -/
theorem nest_of_balanced {cs : List Char} (h : Balanced cs) (owed : List Char) :
    nest owed cs = some owed :=
  nest_bottom owed h

/-- Taking out a stretch that leaves the stack as it found it does not change the reading. -/
theorem nest_erase_closed {owed s : List Char} (hs : nest owed s = some owed) (v : List Char) :
    nest owed (s ++ v) = nest owed v := by
  rw [nest_append, hs]
  rfl

/-- Putting a balanced stretch anywhere does not change the reading. -/
theorem nest_insert_balanced {p : List Char} (hp : Balanced p) (owed a b : List Char) :
    nest owed (a ++ p ++ b) = nest owed (a ++ b) := by
  rw [List.append_assoc, nest_append, nest_append owed a b]
  congr 1
  funext o
  exact nest_erase_closed (nest_of_balanced hp o) b

/-- `b` is `a` with balanced stretches taken out one after another. In a balanced text such a
stretch closes every collection it opens and no collection opened outside it. -/
inductive Erases (a : List Char) : List Char → Prop
  | refl : Erases a a
  | erase {x p y : List Char} : Erases a (x ++ p ++ y) → Balanced p → Erases a (x ++ y)

/-- Taking out balanced stretches leaves the reading of the rest as it was. -/
theorem Erases.nest_eq {a b : List Char} (h : Erases a b) (owed : List Char) :
    nest owed b = nest owed a := by
  induction h with
  | refl => rfl
  | erase _ hp ih => rw [← nest_insert_balanced hp, ih]

theorem Erases.balanced_iff {a b : List Char} (h : Erases a b) : Balanced a ↔ Balanced b := by
  unfold Balanced
  rw [h.nest_eq]

theorem Erases.balanced {a b : List Char} (h : Erases a b) (ha : Balanced a) : Balanced b :=
  h.balanced_iff.1 ha

theorem erases_insert {p : List Char} (hp : Balanced p) (x y : List Char) :
    Erases (x ++ p ++ y) (x ++ y) :=
  .erase .refl hp

theorem Erases.trans {a b c : List Char} (hab : Erases a b) (hbc : Erases b c) : Erases a c := by
  induction hbc with
  | refl => exact hab
  | erase _ hp ih => exact .erase ih hp

theorem Erases.append_right {a b : List Char} (h : Erases a b) (c : List Char) :
    Erases (a ++ c) (b ++ c) := by
  induction h with
  | refl => exact .refl
  | @erase x p y _ hp ih =>
    rw [List.append_assoc x y c]
    exact .erase (by simpa only [List.append_assoc] using ih) hp

theorem Erases.append_left {a b : List Char} (h : Erases a b) (c : List Char) :
    Erases (c ++ a) (c ++ b) := by
  induction h with
  | refl => exact .refl
  | @erase x p y _ hp ih =>
    rw [← List.append_assoc c x y]
    exact .erase (by simpa only [List.append_assoc] using ih) hp

/-- Balanced stretches put into two texts are balanced stretches put into their concatenation. -/
theorem Erases.append {a b c e : List Char} (hab : Erases a b) (hce : Erases c e) :
    Erases (a ++ c) (b ++ e) :=
  (hab.append_right c).trans (hce.append_left b)

/-- A reading cannot pay more than what was owed and what it closes below its start. -/
theorem length_le_of_nest :
    ∀ {owed owed' cs : List Char}, nest owed cs = some owed' → owed.length ≤ dip cs + owed'.length
  | _, _, [], h => by cases h; simp [dip]
  | owed, _, c :: cs, h => by
    by_cases ho : isOpener c = true
    · rw [nest_cons_of_isOpener ho] at h
      have := length_le_of_nest h
      simp only [dip, ho, if_true, List.length_cons] at this ⊢
      omega
    by_cases hc : isCloser c = true
    · rw [nest_cons_of_isCloser hc] at h
      cases owed with
      | nil => cases h
      | cons o rest =>
        split at h
        · have := length_le_of_nest h
          simp only [dip, ho, hc, Bool.false_eq_true, if_false, if_true, List.length_cons,
            List.tail_cons] at this ⊢
          omega
        · cases h
    · simp only [Bool.not_eq_true] at ho hc
      rw [nest_cons_of_other ho hc] at h
      have := length_le_of_nest h
      simpa [dip, ho, hc] using this

/-! ## The bracket counter of flow entries -/

theorem followBrackets_append (d : Nat) (a b : List Char) :
    followBrackets d (a ++ b) = (followBrackets d a).bind fun d' => followBrackets d' b := by
  induction a generalizing d with
  | nil => rfl
  | cons c a ih =>
    simp only [List.cons_append, followBrackets]
    split
    · exact ih _
    split
    · split
      · rfl
      · exact ih _
    split
    · rfl
    · exact ih _

/-- A stretch the counter reads from depth `d` to depth `d'` turns a stack owing `d` closers on
top of `S` into one owing `d'` closers on top of `S`, and never reaches below the `d` closers. -/
theorem nest_of_followBrackets {S : List Char} :
    ∀ {d d' : Nat} {cs Q X : List Char}, followBrackets d cs = some d' → Q.length = d →
      nest (Q ++ S) cs = some X → ∃ Q', X = Q' ++ S ∧ Q'.length = d' ∧ nest Q cs = some Q'
  | _, _, [], Q, _, hf, hQ, hn => by
    cases hf
    cases hn
    exact ⟨Q, rfl, hQ, rfl⟩
  | d, _, c :: cs, Q, _, hf, hQ, hn => by
    cases ho : isOpener c
    case true =>
      rw [nest_cons_of_isOpener ho, ← List.cons_append] at hn
      simp only [followBrackets, show (c == '[' || c == '{') = true from ho, if_true] at hf
      rw [nest_cons_of_isOpener ho]
      exact nest_of_followBrackets hf (by simp [hQ]) hn
    case false =>
    have ho' : (c == '[' || c == '{') = false := ho
    cases hc : isCloser c
    case true =>
      have hc' : (c == ']' || c == '}') = true := hc
      simp only [followBrackets, ho', hc', Bool.false_eq_true, if_false, if_true] at hf
      cases d with
      | zero => cases hf
      | succ d =>
        obtain ⟨q, Q₀, rfl⟩ : ∃ q Q₀, Q = q :: Q₀ := by
          cases Q with
          | nil => cases hQ
          | cons q Q₀ => exact ⟨q, Q₀, rfl⟩
        rw [nest_cons_of_isCloser hc] at hn
        rw [nest_cons_of_isCloser hc]
        split at hn
        · rename_i hq
          rw [if_pos (by simpa using hq)]
          exact nest_of_followBrackets hf (by simpa using hQ) hn
        · cases hn
    case false =>
      have hc' : (c == ']' || c == '}') = false := hc
      rw [nest_cons_of_other ho hc] at hn
      rw [nest_cons_of_other ho hc]
      simp only [followBrackets, ho', hc', Bool.false_eq_true, if_false] at hf
      split at hf
      · cases hf
      · exact nest_of_followBrackets hf hQ hn

/-- Where the counter stops an entry, the text closes every collection the counter had open. -/
theorem le_dip_of_followBrackets_eq_none :
    ∀ {d : Nat} {cs : List Char}, followBrackets d cs = none → d ≤ dip cs
  | _, [], h => by cases h
  | d, c :: cs, h => by
    cases ho : isOpener c
    case true =>
      simp only [followBrackets, show (c == '[' || c == '{') = true from ho, if_true] at h
      have := le_dip_of_followBrackets_eq_none h
      simp only [dip, ho, if_true]
      omega
    case false =>
    have ho' : (c == '[' || c == '{') = false := ho
    cases hc : isCloser c
    case true =>
      have hc' : (c == ']' || c == '}') = true := hc
      simp only [followBrackets, ho', hc', Bool.false_eq_true, if_false, if_true] at h
      simp only [dip, ho, hc, Bool.false_eq_true, if_false, if_true]
      cases d with
      | zero => exact Nat.zero_le _
      | succ d =>
        have := le_dip_of_followBrackets_eq_none h
        omega
    case false =>
      have hc' : (c == ']' || c == '}') = false := hc
      simp only [followBrackets, ho', hc', Bool.false_eq_true, if_false] at h
      simp only [dip, ho, hc, Bool.false_eq_true, if_false]
      split at h
      · rename_i hcomma
        simp only [Bool.and_eq_true, beq_iff_eq] at hcomma
        omega
      · exact le_dip_of_followBrackets_eq_none h

/-! ## Closers at the front of a text -/

/-- After its leading white space and closers, a text closes nothing opened before it: every
closer it has for an earlier collection stands at its front. -/
def closersLead (cs : List Char) : Bool :=
  dip (cs.dropWhile fun c => Text.isWhiteSpace c || isCloser c) == 0

example : closersLead "]], \x7ba".toList = true ∧ closersLead ", ]\x7d".toList = false ∧
    closersLead ": {}, ".toList = true := by
  decide

theorem dip_of_not_bracket {c : Char} (ho : isOpener c = false) (hc : isCloser c = false)
    (cs : List Char) : dip (c :: cs) = dip cs := by
  simp [dip, ho, hc]

theorem isOpener_eq_false_of_isWhiteSpace {c : Char} (h : Text.isWhiteSpace c = true) :
    isOpener c = false := by
  cases ho : isOpener c
  · rfl
  · simp only [isOpener, Bool.or_eq_true, beq_iff_eq] at ho
    rcases ho with rfl | rfl <;> exact absurd h (by decide)

theorem isCloser_eq_false_of_isWhiteSpace {c : Char} (h : Text.isWhiteSpace c = true) :
    isCloser c = false := by
  cases hc : isCloser c
  · rfl
  · simp only [isCloser, Bool.or_eq_true, beq_iff_eq] at hc
    rcases hc with rfl | rfl <;> exact absurd h (by decide)

theorem brackets_eq_nil_of_isWhiteSpace {ws : List Char} (h : ∀ c ∈ ws, Text.isWhiteSpace c = true) :
    brackets ws = [] :=
  List.filter_eq_nil_iff.2 fun c hc => by
    simp [isOpener_eq_false_of_isWhiteSpace (h c hc), isCloser_eq_false_of_isWhiteSpace (h c hc)]

/-- White space before a text changes nothing it closes. -/
theorem dip_trimStart (cs : List Char) : dip (Text.trimStart cs) = dip cs := by
  induction cs with
  | nil => rfl
  | cons c cs ih =>
    by_cases hw : Text.isWhiteSpace c = true
    · rw [Text.trimStart, List.dropWhile_cons_of_pos hw, ← Text.trimStart, ih,
        dip_of_not_bracket (isOpener_eq_false_of_isWhiteSpace hw)
          (isCloser_eq_false_of_isWhiteSpace hw)]
    · rw [Text.trimStart, List.dropWhile_cons_of_neg hw]

/-- A text is its leading white space followed by the rest. -/
theorem exists_eq_whiteSpace_append_trimStart (cs : List Char) :
    ∃ ws, (∀ c ∈ ws, Text.isWhiteSpace c = true) ∧ cs = ws ++ Text.trimStart cs :=
  ⟨cs.takeWhile Text.isWhiteSpace, fun _ hc => List.mem_takeWhile_imp hc,
    List.takeWhile_append_dropWhile.symm⟩

/-- White space takes no part in the brackets. -/
theorem brackets_trimStart (cs : List Char) : brackets (Text.trimStart cs) = brackets cs := by
  obtain ⟨ws, hws, hsplit⟩ := exists_eq_whiteSpace_append_trimStart cs
  have h := congrArg brackets hsplit
  rw [brackets_append, brackets_eq_nil_of_isWhiteSpace hws, List.nil_append] at h
  exact h.symm

theorem brackets_reverse (cs : List Char) : brackets cs.reverse = (brackets cs).reverse :=
  List.filter_reverse

theorem brackets_trimEnd (cs : List Char) : brackets (Text.trimEnd cs) = brackets cs := by
  rw [Text.trimEnd, brackets_reverse, brackets_trimStart, brackets_reverse, List.reverse_reverse]

/-- Stripping a leading character that is no bracket keeps the brackets. -/
theorem brackets_stripLeading {t t' : List Char} {ch : Char}
    (hch : isOpener ch = false ∧ isCloser ch = false) (h : stripLeading t ch = some t') :
    brackets t' = brackets t := by
  unfold stripLeading at h
  split at h
  · rename_i c rest htrim
    split at h
    · rename_i hc
      cases h
      have hc : c = ch := by simpa using hc
      subst hc
      rw [brackets_trimStart, ← brackets_trimStart t, htrim]
      simp [brackets, hch.1, hch.2]
    · cases h
  · cases h

/-- Stripping a trailing comma keeps the brackets. -/
theorem brackets_stripTrailingComma {t t' : List Char} (h : stripTrailingComma t = some t') :
    brackets t' = brackets t := by
  unfold stripTrailingComma at h
  dsimp only at h
  split at h
  · rename_i hlast
    cases h
    obtain ⟨front, hfront⟩ := List.getLast?_eq_some_iff.1 (by simpa using hlast)
    rw [← brackets_trimEnd t, hfront, List.dropLast_concat, brackets_append]
    simp [brackets, isOpener, isCloser]
  · cases h

@[simp] theorem stripClosers_nil (n : Nat) : stripClosers n [] = [] := by
  cases n <;> rfl

/-- Stripping `n` closers from a text whose closers lead, when it closes at least `n` earlier
collections, takes off a front of white space and exactly `n` closers. -/
theorem stripClosers_of_closersLead :
    ∀ {n : Nat} {cs : List Char}, closersLead cs = true → n ≤ dip cs →
      ∃ pre, cs = pre ++ stripClosers n cs ∧ (∀ c ∈ pre, Text.isWhiteSpace c || isCloser c) ∧
        (brackets pre).length = n ∧ ∀ c ∈ brackets pre, isCloser c = true
  | 0, cs, _, _ => ⟨[], by simp [stripClosers], by simp, by simp [brackets], by simp [brackets]⟩
  | n + 1, cs, hlead, hn => by
    obtain ⟨ws, hws, hsplit⟩ := exists_eq_whiteSpace_append_trimStart cs
    have hdropws : ∀ rest, (ws ++ rest).dropWhile (fun c => Text.isWhiteSpace c || isCloser c) =
        rest.dropWhile (fun c => Text.isWhiteSpace c || isCloser c) := fun rest =>
      List.dropWhile_append_of_pos fun x hx => by simp [hws x hx]
    rw [← dip_trimStart] at hn
    cases htrim : Text.trimStart cs with
    | nil => rw [htrim] at hn; simp [dip] at hn
    | cons c after =>
      rw [htrim] at hn hsplit
      rw [hsplit] at hlead
      by_cases hc : isCloser c = true
      · have hlead' : closersLead after = true := by
          simpa [closersLead, hdropws, List.dropWhile_cons_of_pos, hc] using hlead
        have hn' : n ≤ dip after := by
          simp only [dip, isOpener_eq_false_of_isCloser hc, hc, Bool.false_eq_true, if_false,
            if_true] at hn
          omega
        obtain ⟨pre, hpre, hpc, hlen, hcl⟩ := stripClosers_of_closersLead hlead' hn'
        have hstrip : stripClosers (n + 1) cs = stripClosers n after := by
          simp only [stripClosers, htrim, show (c == ']' || c == '}') = true from hc, if_true]
        have hbr : brackets (ws ++ c :: pre) = c :: brackets pre := by
          rw [brackets_append, brackets_eq_nil_of_isWhiteSpace hws, List.nil_append, brackets,
            List.filter_cons, if_pos (by simp [hc])]
          rfl
        refine ⟨ws ++ c :: pre, ?_, ?_, ?_, ?_⟩
        · rw [hstrip, hsplit]
          conv => lhs; rw [hpre]
          simp
        · intro x hx
          simp only [List.mem_append, List.mem_cons] at hx
          rcases hx with hx | rfl | hx
          · simp [hws x hx]
          · simp [hc]
          · exact hpc x hx
        · simp [hbr, hlen]
        · intro x hx
          rw [hbr, List.mem_cons] at hx
          rcases hx with rfl | hx
          · exact hc
          · exact hcl x hx
      · have hcw : Text.isWhiteSpace c = false := by
          have h := List.head?_dropWhile_not Text.isWhiteSpace cs
          rw [show cs.dropWhile Text.isWhiteSpace = c :: after from htrim] at h
          exact h
        simp [closersLead, hdropws, List.dropWhile_cons_of_neg, hcw, hc] at hlead
        omega

/-- Closers that pay the top debts of a stack pay them alone. -/
theorem nest_closers_top :
    ∀ {C Q S X : List Char}, (∀ c ∈ C, isCloser c = true) → C.length = Q.length →
      nest (Q ++ S) C = some X → nest Q C = some []
  | [], [], _, _, _, _, _ => rfl
  | c :: C, q :: Q, S, _, hC, hlen, h => by
    have hc := hC c List.mem_cons_self
    rw [List.cons_append, nest_cons_of_isCloser hc] at h
    rw [nest_cons_of_isCloser hc]
    split at h
    · rename_i hq
      rw [if_pos (by simpa using hq)]
      exact nest_closers_top (fun x hx => hC x (List.mem_cons_of_mem c hx)) (by simpa using hlen) h
    · cases h

end Flow

end YamlEdit
