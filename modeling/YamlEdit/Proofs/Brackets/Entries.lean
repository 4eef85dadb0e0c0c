import Mathlib.Data.List.TakeDrop
import YamlEdit.Proofs.Brackets
import YamlEdit.Proofs.Lexer.Gaps

/-!
# How far a flow entry reaches

A flow entry starts at a scalar token. Its scan (`Flow.entryEnd`) walks the tokens after it
with a bracket counter and ends on the last scalar it reaches; the counter then says how many
collections the entry opened and left open (`Flow.openCollections`). On a line whose
punctuation brackets are balanced, those collections are closed by the one punctuation token
right after the entry's last scalar: the lexer never puts two punctuation tokens side by side,
and a comment can only end the line.

Whether the closers can be cut off that token depends on where they stand in it. On a *tight*
line, where the punctuation after a scalar puts the closers of enclosing collections before
anything else, they lead the token, and cutting them off leaves the entry with its closers a
balanced stretch of the line (`entry_balanced`).
-/

namespace YamlEdit

namespace Flow

open Lexer (Spaced)

/-- The brackets of a run of tokens that count for its nesting: those of its punctuation, none
of its scalars' and comments'. -/
def bracketsOf (ts : List Token) : List Char :=
  ts.flatMap fun t => if t.isSpan then [] else brackets t.text.toList

@[simp] theorem bracketsOf_nil : bracketsOf [] = [] := rfl

@[simp] theorem bracketsOf_cons (t : Token) (ts : List Token) :
    bracketsOf (t :: ts) = (if t.isSpan then [] else brackets t.text.toList) ++ bracketsOf ts :=
  List.flatMap_cons

@[simp] theorem bracketsOf_append (ts us : List Token) :
    bracketsOf (ts ++ us) = bracketsOf ts ++ bracketsOf us :=
  List.flatMap_append

/-- The characters of the punctuation of a run of tokens, as an entry's scan reads them. -/
def punctuation (ts : List Token) : List Char :=
  ts.flatMap fun t => if t.isScalar then [] else t.text.toList

theorem brackets_punctuation {ts : List Token} (h : ∀ t ∈ ts, t.isComment = false) :
    brackets (punctuation ts) = bracketsOf ts := by
  induction ts with
  | nil => rfl
  | cons t ts ih =>
    have ht := h t List.mem_cons_self
    simp only [punctuation, List.flatMap_cons] at ih ⊢
    rw [brackets_append, ih fun u hu => h u (List.mem_cons_of_mem t hu)]
    cases hs : t.isScalar <;> simp [Token.isSpan, hs, ht, brackets]

/-- A line is tight when the punctuation after each of its scalars puts the closers of
collections opened before it first: no trailing `,` and no empty collection stands between a
scalar and such a closer. -/
def Tight (ts : List Token) : Prop :=
  ts.IsChain fun t u => t.isScalar = true → u.isSpan = false → closersLead u.text.toList = true

instance (ts : List Token) : Decidable (Tight ts) :=
  inferInstanceAs (Decidable (ts.IsChain _))

example : Tight [⟨"a", [.scalar]⟩, ⟨"]], ", []⟩] ∧
    ¬Tight [⟨"a", [.scalar]⟩, ⟨", ]", []⟩] := by
  decide

/-- What the lexer guarantees of the tokens of a line: no two punctuation tokens stand side by
side, only the last token can be a comment, and no scalar is a comment. -/
structure Lexed (ts : List Token) : Prop where
  spaced : ts.IsChain Spaced
  commentLast : ∀ t ∈ ts.dropLast, t.isComment = false
  scalar_not_comment : ∀ t ∈ ts, t.isScalar = true → t.isComment = false

theorem Lexed.drop {ts : List Token} (h : Lexed ts) (k : Nat) : Lexed (ts.drop k) where
  spaced := h.spaced.drop k
  commentLast t ht := by
    rw [List.dropLast_drop_eq_drop_dropLast] at ht
    exact h.commentLast t (List.mem_of_mem_drop ht)
  scalar_not_comment t ht := h.scalar_not_comment t (List.mem_of_mem_drop ht)

theorem lexed_lex (line : String) : Lexed (Lexer.lex line) where
  spaced := Lexer.lex_spaced line
  commentLast t ht := by
    have h := Lexer.lex_commentLast line t ht
    simpa [Token.isComment] using h
  scalar_not_comment t ht hs := by
    rcases Lexer.lex_scalarAlone line t ht with h | h
    · simp [Token.isComment, h]
    · simp [Token.isScalar, h] at hs

/-! ## The scan of an entry -/

/-- The scan of an entry stops within these tokens, at the depth `d` it has reached, before any
further scalar: at a comment, at punctuation the counter refuses, or after punctuation the counter
accepts and a stop after it. -/
def Stops : Nat → List Token → Prop
  | _, [] => True
  | d, t :: ts => t.isComment = true ∨ (t.isScalar = false ∧
      match followBrackets d t.text.toList with
      | none => True
      | some d' => Stops d' ts)

/-- The scan of the tokens after an entry's first one reads a stretch `B` that ends on the last
scalar it reaches, or is empty, with the counter accepting its punctuation, and stops in what
follows. -/
theorem entryEndFrom_split : ∀ (ts : List Token) (depth last i : Nat),
    ∃ B R D, ts = B ++ R ∧
      entryEndFrom depth last i ts = (if B = [] then last else i + B.length - 1) ∧
      (∀ t ∈ B, t.isComment = false) ∧ (∀ t ∈ B.getLast?, t.isScalar = true) ∧
      followBrackets depth (punctuation B) = some D ∧ Stops D R
  | [], depth, last, _ => ⟨[], [], depth, rfl, rfl, by simp, by simp, rfl, trivial⟩
  | t :: ts, depth, last, i => by
    by_cases hc : t.isComment = true
    · exact ⟨[], t :: ts, depth, rfl, by simp [entryEndFrom, hc], by simp, by simp, rfl, .inl hc⟩
    simp only [Bool.not_eq_true] at hc
    by_cases hs : t.isScalar = true
    · obtain ⟨B, R, D, rfl, hend, hcom, hlast, hf, hstop⟩ := entryEndFrom_split ts depth i (i + 1)
      refine ⟨t :: B, R, D, rfl, ?_, ?_, ?_, ?_, hstop⟩
      · simp only [entryEndFrom, hc, hs, Bool.false_eq_true, if_false, if_true, hend]
        split <;> simp_all
      · simpa [hc] using hcom
      · cases B with
        | nil => simpa using hs
        | cons b B => simpa [List.getLast?_cons] using hlast
      · simpa [punctuation, hs] using hf
    simp only [Bool.not_eq_true] at hs
    cases hb : followBrackets depth t.text.toList with
    | none =>
      exact ⟨[], t :: ts, depth, rfl, by simp [entryEndFrom, hc, hs, hb], by simp, by simp, rfl,
        .inr ⟨hs, by simp [hb]⟩⟩
    | some d =>
      obtain ⟨B, R, D, rfl, hend, hcom, hlast, hf, hstop⟩ := entryEndFrom_split ts d last (i + 1)
      have hscan : entryEndFrom depth last i (t :: (B ++ R)) =
          if B = [] then last else i + 1 + B.length - 1 := by
        simp [entryEndFrom, hc, hs, hb, hend]
      by_cases hB : B = []
      · subst hB
        have hD : d = D := by simpa [punctuation, followBrackets] using hf
        subst hD
        exact ⟨[], t :: R, depth, rfl, by simpa using hscan, by simp, by simp, rfl,
          .inr ⟨hs, by simpa [hb] using hstop⟩⟩
      · refine ⟨t :: B, R, D, rfl, ?_, ?_, ?_, ?_, hstop⟩
        · rw [hscan, if_neg hB]
          simp only [List.cons_ne_nil, if_false, List.length_cons]
          omega
        · simpa [hc] using hcom
        · obtain ⟨b, B', rfl⟩ := List.exists_cons_of_ne_nil hB
          simpa [List.getLast?_cons] using hlast
        · simp only [punctuation, List.flatMap_cons, hs, Bool.false_eq_true, if_false] at hf ⊢
          rw [followBrackets_append, hb]
          exact hf

/-- The counter moves by the balance of the brackets it reads. -/
theorem followBrackets_eq_some_balance :
    ∀ {d e : Nat} {cs : List Char}, followBrackets d cs = some e →
      (e : Int) = d + bracketBalance (String.ofList cs)
  | _, _, [], h => by cases h; simp [bracketBalance]
  | d, e, c :: cs, h => by
    have hcons : bracketBalance (String.ofList (c :: cs)) =
        (if c == '[' || c == '{' then (1 : Int) else if c == ']' || c == '}' then -1 else 0) +
          bracketBalance (String.ofList cs) := by
      simp [bracketBalance]
    rw [hcons]
    unfold followBrackets at h
    split at h
    · rename_i ho
      have := followBrackets_eq_some_balance h
      simp only [ho, if_true]
      omega
    split at h
    · rename_i ho hc
      simp only [Bool.not_eq_true] at ho
      simp only [ho, hc, Bool.false_eq_true, if_false, if_true]
      split at h
      · cases h
      · have := followBrackets_eq_some_balance h
        omega
    · rename_i ho hc
      simp only [Bool.not_eq_true] at ho hc
      simp only [ho, hc, Bool.false_eq_true, if_false]
      split at h
      · cases h
      · have := followBrackets_eq_some_balance h
        omega

/-- The balance `Flow.openCollections` sums over the punctuation of a stretch is the depth the
counter reaches on it. -/
theorem foldr_bracketBalance :
    ∀ {d e : Nat} {B : List Token}, (∀ t ∈ B, t.isComment = false) →
      followBrackets d (punctuation B) = some e →
      ((B.filter fun t => !t.isScalar).map fun t => bracketBalance t.text).foldr
        (fun a b : Int => a + b) 0 = (e : Int) - d
  | _, _, [], _, h => by cases h; simp
  | d, e, t :: B, hc, h => by
    simp only [punctuation, List.flatMap_cons] at h
    rw [followBrackets_append] at h
    have hB : ∀ u ∈ B, u.isComment = false := fun u hu => hc u (List.mem_cons_of_mem t hu)
    cases hs : t.isScalar
    · cases ht : followBrackets d t.text.toList with
      | none => simp [hs, ht] at h
      | some d₁ =>
        simp only [hs, Bool.false_eq_true, if_false, ht, Option.bind_some] at h
        have h₁ := followBrackets_eq_some_balance ht
        rw [String.ofList_toList] at h₁
        have := foldr_bracketBalance hB h
        simp only [List.filter_cons, hs, Bool.not_false, if_true, List.map_cons, List.foldr_cons]
        omega
    · simp only [hs, if_true, followBrackets, Option.bind_some] at h
      simpa [hs] using foldr_bracketBalance hB h

/-- The scan of an entry from a scalar token: the stretch `B` after the token up to the entry's
last scalar, the counter's depth `D` at its end, which is the number of collections the entry
leaves open, and the stop in what follows. -/
theorem entryEnd_split {tokens : List Token} {f : Nat} {t₀ : Token} (hf : tokens[f]? = some t₀)
    (hs : t₀.isScalar = true) :
    ∃ B R D, tokens.drop (f + 1) = B ++ R ∧ entryEnd tokens f = f + B.length ∧
      (∀ t ∈ B, t.isComment = false) ∧ (∀ t ∈ B.getLast?, t.isScalar = true) ∧
      followBrackets 0 (punctuation B) = some D ∧ Stops D R ∧
      openCollections tokens f (f + B.length) = D ∧
      openCollections tokens (f + 1) (f + B.length) = D := by
  obtain ⟨B, R, D, hsplit, hend, hcom, hlast, hfb, hstop⟩ :=
    entryEndFrom_split (tokens.drop (f + 1)) 0 f (f + 1)
  obtain ⟨hlt, rfl⟩ := List.getElem?_eq_some_iff.1 hf
  have hdrop : tokens.drop f = tokens[f] :: (B ++ R) := by
    rw [List.drop_eq_getElem_cons hlt, hsplit]
  have hlen : f + 1 + B.length + R.length = tokens.length := by
    have := congrArg List.length hsplit
    simp only [List.length_drop, List.length_append] at this
    omega
  have hsum := foldr_bracketBalance hcom hfb
  refine ⟨B, R, D, hsplit, ?_, hcom, hlast, hfb, hstop, ?_, ?_⟩
  · unfold entryEnd
    rw [hend]
    split
    · simp_all
    · omega
  · unfold openCollections
    rw [if_neg (by omega), hdrop, show f + B.length + 1 - f = B.length + 1 by omega,
      List.take_succ_cons, List.take_left' rfl]
    simp [hs, hsum]
  · unfold openCollections
    rw [if_neg (by omega), hsplit, show f + B.length + 1 - (f + 1) = B.length by omega,
      List.take_left' rfl, hsum]
    simp

/-! ## Where an entry's collections close -/

theorem drop_eq_cons_of_getElem? {ts : List Token} {f : Nat} {t : Token} (h : ts[f]? = some t) :
    ts.drop f = t :: ts.drop (f + 1) := by
  obtain ⟨hlt, rfl⟩ := List.getElem?_eq_some_iff.1 h
  exact List.drop_eq_getElem_cons hlt

/-- The tokens after an entry's stretch. -/
theorem getElem?_after_stretch {tokens B R : List Token} {f : Nat}
    (hsplit : tokens.drop (f + 1) = B ++ R) (j : Nat) :
    tokens[f + 1 + B.length + j]? = R[j]? := by
  have h := congrArg (·[B.length + j]?) hsplit
  simp only [List.getElem?_drop] at h
  rw [List.getElem?_append_right (by omega), Nat.add_sub_cancel_left] at h
  rw [← h, Nat.add_assoc]

theorem Lexed.comment_nil {t : Token} {ts : List Token} (h : Lexed (t :: ts))
    (hc : t.isComment = true) : ts = [] := by
  cases ts with
  | nil => rfl
  | cons u ts =>
    have := h.commentLast t (by simp)
    simp [hc] at this

/-- Where the scan of an entry stops, the collections still open at its depth `D` are closed by
the punctuation token right after it, if they are closed at all: the token the scan stops at, or
the last punctuation of the line, which only a comment can follow. -/
theorem Stops.closes : ∀ {D : Nat} {R : List Token}, Stops D R → Lexed R →
    ∀ {S : List Char}, nest S (bracketsOf R) = some [] → D ≤ S.length →
      D = 0 ∨ ∃ T R', R = T :: R' ∧ T.isSpan = false ∧ D ≤ dip T.text.toList
  | D, [], _, _, S, hn, hD => by
    cases hn
    exact .inl (by simpa using hD)
  | D, T :: R', hstop, hl, S, hn, hD => by
    by_cases hTc : T.isComment = true
    · have hR' := hl.comment_nil hTc
      subst hR'
      have hspan : T.isSpan = true := by simp [Token.isSpan, hTc]
      simp only [bracketsOf_cons, hspan, if_true, bracketsOf_nil, List.append_nil] at hn
      cases hn
      exact .inl (by simpa using hD)
    simp only [Bool.not_eq_true] at hTc
    obtain ⟨hTs, hmatch⟩ := hstop.resolve_left (by simp [hTc])
    have hspan : T.isSpan = false := by simp [Token.isSpan, hTs, hTc]
    refine .inr ⟨T, R', rfl, hspan, ?_⟩
    cases hb : followBrackets D T.text.toList with
    | none => exact le_dip_of_followBrackets_eq_none hb
    | some d' =>
      have hrest : bracketsOf R' = [] := by
        cases R' with
        | nil => rfl
        | cons u R'' =>
          have hu : u.isSpan = true := by
            have := (List.isChain_cons_cons.1 hl.spaced).1
            simpa [Spaced, hspan] using this
          simp only [hb] at hmatch
          have huc : u.isComment = true := by
            rcases hmatch with huc | ⟨hus, -⟩
            · exact huc
            · simpa [Token.isSpan, hus] using hu
          have hR'' : R'' = [] := (hl.drop 1).comment_nil huc
          subst hR''
          simp [hu]
      simp only [bracketsOf_cons, hspan, Bool.false_eq_true, if_false, hrest, List.append_nil,
        nest_brackets] at hn
      have := length_le_of_nest hn
      simp only [List.length_nil, Nat.add_zero] at this
      omega

/-- On a tight line with balanced punctuation, an entry together with the closers of the
collections it opened is a balanced stretch: either it leaves nothing open, or the punctuation
token after its last scalar starts with exactly those closers, after white space. -/
theorem entry_balanced {tokens : List Token} (hl : Lexed tokens) (ht : Tight tokens) {f : Nat}
    {t₀ : Token} (hf : tokens[f]? = some t₀) (hs : t₀.isScalar = true) {B R : List Token}
    {D : Nat} (hsplit : tokens.drop (f + 1) = B ++ R) (hcom : ∀ t ∈ B, t.isComment = false)
    (hlast : ∀ t ∈ B.getLast?, t.isScalar = true) (hfb : followBrackets 0 (punctuation B) = some D)
    (hstop : Stops D R) {S : List Char} (hn : nest S (bracketsOf (B ++ R)) = some []) :
    (D = 0 ∧ Balanced (bracketsOf B)) ∨
      ∃ T R' pre, R = T :: R' ∧ T.isSpan = false ∧ 0 < D ∧
        T.text.toList = pre ++ stripClosers D T.text.toList ∧
        (∀ c ∈ pre, (Text.isWhiteSpace c || isCloser c) = true) ∧
        Balanced (bracketsOf B ++ brackets pre) := by
  rw [bracketsOf_append] at hn
  obtain ⟨Y, hY, hR⟩ := nest_append_eq_some hn
  rw [← brackets_punctuation hcom, nest_brackets] at hY
  -- the entry owes `D` closers on top of whatever was open before it
  obtain ⟨Q, rfl, hQlen, hQ⟩ := nest_of_followBrackets (Q := []) hfb rfl (by simpa using hY)
  rw [← nest_brackets, brackets_punctuation hcom] at hQ
  have hlR : Lexed R := by
    have := hl.drop (f + 1 + B.length)
    rwa [← List.drop_drop, hsplit, List.drop_left] at this
  rcases hstop.closes hlR hR (by simp [hQlen]) with hD | ⟨T, R', rfl, hT, hdip⟩
  · subst hD
    exact .inl ⟨rfl, by rw [List.length_eq_zero_iff.1 hQlen] at hQ; exact hQ⟩
  by_cases hD : D = 0
  · subst hD
    exact .inl ⟨rfl, by rw [List.length_eq_zero_iff.1 hQlen] at hQ; exact hQ⟩
  have hlead : closersLead T.text.toList = true := by
    have hchain : ((t₀ :: B) ++ T :: R').IsChain fun t u =>
        t.isScalar = true → u.isSpan = false → closersLead u.text.toList = true := by
      have := ht.drop f
      rwa [drop_eq_cons_of_getElem? hf, hsplit] at this
    have hprev : ∀ x ∈ (t₀ :: B).getLast?, x.isScalar = true := by
      cases B with
      | nil => simpa using hs
      | cons b B => simpa [List.getLast?_cons] using hlast
    obtain ⟨x, hx⟩ : ∃ x, (t₀ :: B).getLast? = some x :=
      ⟨_, List.getLast?_eq_some_getLast (by simp)⟩
    exact (List.isChain_append.1 hchain).2.2 x hx T rfl (hprev x hx) hT
  obtain ⟨pre, hpre, hpc, hlen, hcl⟩ := stripClosers_of_closersLead hlead hdip
  refine .inr ⟨T, R', pre, rfl, hT, Nat.pos_of_ne_zero hD, hpre, hpc, ?_⟩
  simp only [bracketsOf_cons, hT, Bool.false_eq_true, if_false] at hR
  rw [hpre, brackets_append, List.append_assoc] at hR
  obtain ⟨Z, hZ, -⟩ := nest_append_eq_some hR
  have htop := nest_closers_top hcl (hlen.trans hQlen.symm) hZ
  rw [Balanced, nest_append, hQ]
  exact htop

end Flow

namespace Edit

/-- The tokens of a line as a script renders them: each keeps its tags and takes its rendered
text. -/
def renderTokens (edits : List Edit) (line : Line) : List Token :=
  line.tokens.zipIdx.map fun (t, i) =>
    { t with
      text := splice ((replacement? edits line.number i).getD t.text) (insertions edits line.number i) }

/-- The rendered tokens spell the rendered line. -/
theorem join_renderTokens (edits : List Edit) (line : Line) :
    Token.join (renderTokens edits line) = lineText edits line := by
  unfold Token.join renderTokens lineText
  rw [List.map_map]
  rfl

end Edit

end YamlEdit
