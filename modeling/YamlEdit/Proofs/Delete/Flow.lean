import YamlEdit.Proofs.Delete.Inline

/-!
# Deleting entries of a flat flow collection

A flow collection whose entries are plain scalars, or plain keys with their values, lexes as the
entries' tokens with a `, ` token between each two, after an opener and before a closer. Deleting
some of its entries, in token order, removes each one's tokens. An entry with an entry after it
also empties the separator that follows it. The last entry has no separator after it and strips
the comma of the nearest token before it that is not removed; an emptied separator is not
removed, so when the last two entries are both deleted, the separator in front of them keeps its
comma, and the collection keeps a stray `, ` before its closer unless no entry is left.
-/

namespace YamlEdit

open YamlEdit.Text

/-- An entry of a flat flow collection: a plain scalar, or a plain key with its value. -/
structure FlowEntry where
  /-- The scalar, or the key of a mapping entry. -/
  key : String
  /-- The value of a mapping entry. -/
  value : Option String
deriving DecidableEq, Repr

namespace FlowEntry

/-- The tokens an entry lexes as. -/
def tokens (e : FlowEntry) : List Token :=
  ⟨e.key, [.scalar]⟩ :: match e.value with
    | some v => [⟨": ", [.mapping]⟩, ⟨v, [.scalar]⟩]
    | none => []

/-- The text of an entry. -/
def text (e : FlowEntry) : String :=
  Token.join e.tokens

theorem length_tokens_pos (e : FlowEntry) : 0 < e.tokens.length := by
  simp [tokens]

end FlowEntry

/-- The separator between two entries of a flow collection. -/
def separator : Token := ⟨", ", []⟩

/-- The tokens of entries that have an entry after them, each followed by its separator. The
entries come with whether they are to be deleted, which their tokens do not depend on. -/
def leadingTokens (front : List (FlowEntry × Bool)) : List Token :=
  front.flatMap fun p => p.1.tokens ++ [separator]

namespace Flow

/-- An entry ends on its last token when punctuation that separates or closes follows it. -/
theorem entryEnd_entry (A : List Token) (e : FlowEntry) {t : Token} (rest : List Token)
    (hc : t.isComment = false) (hs : t.isScalar = false)
    (hb : followBrackets 0 t.text.toList = none) :
    entryEnd (A ++ e.tokens ++ t :: rest) A.length = A.length + e.tokens.length - 1 := by
  have hdrop : (A ++ e.tokens ++ t :: rest).drop (A.length + 1) = e.tokens.tail ++ t :: rest := by
    simp [FlowEntry.tokens]
  unfold entryEnd
  rw [hdrop]
  cases hv : e.value with
  | none => simp [FlowEntry.tokens, hv, entryEndFrom, hc, hs, hb]
  | some v =>
    have hcolon : followBrackets 0 ": ".toList = some 0 := by decide
    have hpc : (⟨": ", [.mapping]⟩ : Token).isComment = false := rfl
    have hps : (⟨": ", [.mapping]⟩ : Token).isScalar = false := rfl
    have hvc : (⟨v, [.scalar]⟩ : Token).isComment = false := rfl
    have hvs : (⟨v, [.scalar]⟩ : Token).isScalar = true := rfl
    simp only [FlowEntry.tokens, hv, List.tail_cons, List.cons_append, List.nil_append, entryEndFrom,
      hpc, hps, hvc, hvs, hc, hs, hb, hcolon, List.length_cons, List.length_nil]
    simp

/-- An entry opens no collection. -/
theorem openCollections_entry (A : List Token) (e : FlowEntry) (rest : List Token) :
    openCollections (A ++ e.tokens ++ rest) A.length (A.length + e.tokens.length - 1) = 0 := by
  have hlen := e.length_tokens_pos
  unfold openCollections
  split
  · rfl
  · have htake : ((A ++ e.tokens ++ rest).drop A.length).take
        (A.length + e.tokens.length - 1 + 1 - A.length) = e.tokens := by
      rw [show A.length + e.tokens.length - 1 + 1 - A.length = e.tokens.length by omega]
      simp
    rw [htake]
    cases hv : e.value with
    | none => simp [FlowEntry.tokens, hv, Token.isScalar]
    | some v =>
      have : bracketBalance ": " = 0 := by decide
      simp [FlowEntry.tokens, hv, Token.isScalar, this]

end Flow

namespace Marks

theorem modify_length_append {α : Type} (P Q : List α) (x : α) (f : α → α) :
    (P ++ x :: Q).modify P.length f = P ++ f x :: Q := by
  induction P with
  | nil => simp
  | cons y P ih => simp [ih]

/-- Marking the tokens from `P.length` to the end of `Q` removed. -/
theorem mapIdx_markRange {a : Nat} (P Q R : List Bool) (hP : P.length = a) (hQ : Q ≠ []) :
    (P ++ Q ++ R).mapIdx (fun i b => b || (decide (a ≤ i) &&
      decide (i ≤ a + Q.length - 1))) = P ++ Q.map (fun _ => true) ++ R := by
  subst hP
  have hQl : 0 < Q.length := List.length_pos_iff.2 hQ
  apply List.ext_getElem (by simp)
  intro i h1 h2
  simp only [List.getElem_mapIdx, List.getElem_append, List.length_append, List.getElem_map]
  by_cases hP : i < P.length <;> by_cases hPQ : i < P.length + Q.length <;> simp [hP, hPQ] <;> omega

namespace Removal

@[simp] theorem isRemoved_mk (texts : List String) (removed : List Bool) (i : Nat) :
    Removal.isRemoved ⟨texts, removed⟩ i = removed[i]?.getD true := rfl

@[simp] theorem textAt_mk (texts : List String) (removed : List Bool) (i : Nat) :
    Removal.textAt ⟨texts, removed⟩ i = (texts[i]?.getD "").toList := rfl

@[simp] theorem modifyText_mk (texts : List String) (removed : List Bool) (i : Nat)
    (f : List Char → List Char) :
    Removal.modifyText ⟨texts, removed⟩ i f =
      ⟨texts.modify i fun t => String.ofList (f t.toList), removed⟩ := rfl

/-- The search for the next token still in place stops at the first one. -/
theorem find?_range'_of_not_removed {r : Removal} {k N : Nat} (hk : k < N)
    (h : r.isRemoved k = false) :
    (List.range' k (N - k)).find? (fun i => !r.isRemoved i) = some k := by
  obtain ⟨m, hm⟩ : ∃ m, N - k = m + 1 := ⟨N - k - 1, by omega⟩
  rw [hm, List.range'_succ, List.find?_cons_of_pos (by simp [h])]

end Removal

theorem punctuationAt_of_getElem? {tokens : List Token} {i : Nat} {t : Token}
    (h : tokens[i]? = some t) (hs : t.isScalar = false) : punctuationAt tokens i = some i := by
  simp [punctuationAt, h, hs]

section Entries

variable {A : List Token} {At : List String} {Ar : List Bool}
  (hAt : At.length = A.length) (hAr : Ar.length = A.length)
include hAt hAr

/-- Deleting an entry that has an entry after it removes its tokens and empties the separator
after it. -/
theorem removeEntry_leading (e : FlowEntry) (rest : List Token) {x : Entry}
    (hx : x.tokenIndex = A.length) (hrole : x.role ≠ .mappingValue) :
    removeEntry (A ++ e.tokens ++ separator :: rest)
        ⟨At ++ (e.tokens ++ separator :: rest).map Token.text,
          Ar ++ (e.tokens ++ separator :: rest).map fun _ => false⟩ x =
      ⟨At ++ e.tokens.map Token.text ++ "" :: rest.map Token.text,
        Ar ++ e.tokens.map (fun _ => true) ++ false :: rest.map fun _ => false⟩ := by
  have hlen := e.length_tokens_pos
  have hend := Flow.entryEnd_entry A e rest (t := separator) rfl rfl (by decide)
  have hopen := Flow.openCollections_entry A e (separator :: rest)
  have hfirst : Removal.isRemoved ⟨At ++ (e.tokens ++ separator :: rest).map Token.text,
      Ar ++ (e.tokens ++ separator :: rest).map fun _ => false⟩ A.length = false := by
    rw [Removal.isRemoved_mk, ← hAr]
    cases h : e.tokens <;> simp_all
  have hmark : (Ar ++ (e.tokens ++ separator :: rest).map fun _ => false).mapIdx
      (fun i b => b || (decide (A.length ≤ i) && decide (i ≤ A.length + e.tokens.length - 1))) =
      Ar ++ e.tokens.map (fun _ => true) ++ false :: rest.map fun _ => false := by
    rw [List.map_append, ← List.append_assoc]
    have := mapIdx_markRange Ar (e.tokens.map fun _ => false)
      ((separator :: rest).map fun _ => false) hAr (by simpa [List.length_pos_iff] using hlen)
    rw [List.length_map] at this
    simpa using this
  have hnext : ((List.range' (A.length + e.tokens.length - 1 + 1)
      ((A ++ e.tokens ++ separator :: rest).length - (A.length + e.tokens.length - 1 + 1))).find?
        fun i => !Removal.isRemoved ⟨At ++ (e.tokens ++ separator :: rest).map Token.text,
          Ar ++ e.tokens.map (fun _ => true) ++ false :: rest.map fun _ => false⟩ i).bind
      (punctuationAt (A ++ e.tokens ++ separator :: rest)) = some (A.length + e.tokens.length) := by
    rw [show A.length + e.tokens.length - 1 + 1 = A.length + e.tokens.length by omega,
      Removal.find?_range'_of_not_removed (by simp)]
    · exact punctuationAt_of_getElem? (t := separator) (by simp) rfl
    · rw [Removal.isRemoved_mk, ← hAr]
      simp
  have htext : Removal.textAt ⟨At ++ (e.tokens ++ separator :: rest).map Token.text,
      Ar ++ e.tokens.map (fun _ => true) ++ false :: rest.map fun _ => false⟩
        (A.length + e.tokens.length) = ", ".toList := by
    rw [Removal.textAt_mk, ← hAt]
    simp [separator]
  have hcolon : Flow.stripLeading ", ".toList ':' = none := by decide
  have hcomma : Flow.stripLeading ", ".toList ',' = some [] := by decide
  have hr : (x.role == .mappingValue) = false := by simpa using hrole
  unfold removeEntry
  simp only [hx, hend, hopen, hfirst, hmark, hnext, htext, hcolon, hcomma, hr, Nat.lt_irrefl,
    Bool.false_eq_true, ↓reduceIte, Option.getD_none, Removal.modifyText_mk]
  have hP : (At ++ e.tokens.map Token.text).length = A.length + e.tokens.length := by simp [hAt]
  rw [List.map_append, List.map_cons, ← List.append_assoc, ← hP, modify_length_append]

end Entries

/-- The text a separator is left with: it is emptied with the entry before it. -/
def separatorText (deleted : Bool) : String :=
  if deleted then "" else ", "

/-- Their texts once the entries marked `true` are deleted. -/
def leadingTexts (front : List (FlowEntry × Bool)) : List String :=
  front.flatMap fun p => p.1.tokens.map Token.text ++ [separatorText p.2]

/-- Which of their tokens are then removed. -/
def leadingRemoved (front : List (FlowEntry × Bool)) : List Bool :=
  front.flatMap fun p => p.1.tokens.map (fun _ => p.2) ++ [false]

/-- The token indices of the entries marked `true`, the first entry starting at `a`. -/
def selectedStarts (a : Nat) : List (FlowEntry × Bool) → List Nat
  | [] => []
  | p :: ps => (if p.2 then [a] else []) ++ selectedStarts (a + p.1.tokens.length + 1) ps

theorem leadingTokens_append (front : List (FlowEntry × Bool)) (q : FlowEntry × Bool) :
    leadingTokens (front ++ [q]) = leadingTokens front ++ q.1.tokens ++ [separator] := by
  simp [leadingTokens]

theorem leadingTexts_append (front : List (FlowEntry × Bool)) (q : FlowEntry × Bool) :
    leadingTexts (front ++ [q]) = leadingTexts front ++ q.1.tokens.map Token.text ++
      [separatorText q.2] := by
  simp [leadingTexts]

theorem leadingRemoved_append (front : List (FlowEntry × Bool)) (q : FlowEntry × Bool) :
    leadingRemoved (front ++ [q]) = leadingRemoved front ++ q.1.tokens.map (fun _ => q.2) ++
      [false] := by
  simp [leadingRemoved]

theorem length_leadingTexts (front : List (FlowEntry × Bool)) :
    (leadingTexts front).length = (leadingTokens front).length := by
  simp [leadingTexts, leadingTokens, List.length_flatMap]

theorem length_leadingRemoved (front : List (FlowEntry × Bool)) :
    (leadingRemoved front).length = (leadingTokens front).length := by
  simp [leadingRemoved, leadingTokens, List.length_flatMap]

/-- The last entry starts right after the tokens of the entries before it. -/
theorem selectedStarts_append (front : List (FlowEntry × Bool)) (q : FlowEntry × Bool) :
    ∀ a, selectedStarts a (front ++ [q]) =
      selectedStarts a front ++ if q.2 then [a + (leadingTokens front).length] else [] := by
  induction front with
  | nil => intro a; simp [selectedStarts, leadingTokens]
  | cons p front ih =>
    intro a
    rw [List.cons_append, selectedStarts, selectedStarts, ih, List.append_assoc]
    simp only [leadingTokens, List.flatMap_cons, List.length_append, List.length_singleton,
      Nat.add_assoc]

/-- The texts of the entries not marked for deletion. -/
def keptTexts (es : List (FlowEntry × Bool)) : List String :=
  (es.filter fun p => !p.2).map fun p => p.1.text

/-- Whether the last two entries of a collection are both marked for deletion. -/
def lastTwoDeleted (front : List (FlowEntry × Bool)) (last : FlowEntry × Bool) : Bool :=
  last.2 && front.getLast?.any Prod.snd

/-- What deleting the entries marked `true` leaves of a flat flow collection between its opener
and its closer: the kept entries joined by `, `, and a stray `, ` after them when the last two
entries are deleted and some entry is kept. -/
def remainingText (front : List (FlowEntry × Bool)) (last : FlowEntry × Bool) : String :=
  ", ".intercalate (keptTexts (front ++ [last])) ++
    if lastTwoDeleted front last && !(keptTexts (front ++ [last])).isEmpty then ", " else ""

@[simp] theorem keptTexts_cons_true (e : FlowEntry) (es : List (FlowEntry × Bool)) :
    keptTexts ((e, true) :: es) = keptTexts es := by
  simp [keptTexts]

@[simp] theorem keptTexts_cons_false (e : FlowEntry) (es : List (FlowEntry × Bool)) :
    keptTexts ((e, false) :: es) = e.text :: keptTexts es := by
  simp [keptTexts]

/-- Kept entries each followed by a separator: the entries joined, and one separator more when
there is any. -/
theorem join_kept_separated (es : List (FlowEntry × Bool)) :
    String.join (es.map fun p => if p.2 then "" else p.1.text ++ ", ") =
      ", ".intercalate (keptTexts es) ++ if keptTexts es = [] then "" else ", " := by
  induction es with
  | nil => simp [keptTexts]
  | cons p es ih =>
    obtain ⟨e, s⟩ := p
    rw [List.map_cons, String.join_cons, ih]
    cases s with
    | true => simp
    | false =>
      rw [keptTexts_cons_false]
      by_cases hk : keptTexts es = []
      · simp [hk]
      · simp [String.intercalate_cons_of_ne_nil hk, hk, String.append_assoc]

/-- The same with one more entry kept at the end. -/
theorem join_kept_separated_append (es : List (FlowEntry × Bool)) (t : String) :
    String.join (es.map fun p => if p.2 then "" else p.1.text ++ ", ") ++ t =
      ", ".intercalate (keptTexts es ++ [t]) := by
  rw [join_kept_separated]
  by_cases hk : keptTexts es = []
  · simp [hk]
  · rw [if_neg hk, String.intercalate_append_of_ne_nil hk (by simp), String.intercalate_singleton]

/-- What entries that have an entry after them leave: each kept one with its separator. -/
theorem output_leading (front : List (FlowEntry × Bool)) :
    Removal.output ⟨leadingTexts front, leadingRemoved front⟩ =
      String.join (front.map fun p => if p.2 then "" else p.1.text ++ ", ") := by
  induction front with
  | nil => rfl
  | cons p front ih =>
    have hlen : (p.1.tokens.map Token.text ++ [separatorText p.2]).length =
        (p.1.tokens.map (fun _ => p.2) ++ [false]).length := by simp
    rw [leadingTexts, leadingRemoved, List.flatMap_cons, List.flatMap_cons,
      Removal.output_append hlen, Removal.output_append (by simp), Removal.output_uniform]
    rw [leadingTexts, leadingRemoved] at ih
    rw [ih, List.map_cons, String.join_cons]
    cases p.2 <;> simp [Removal.output, separatorText, FlowEntry.text, String.append_assoc]

theorem le_of_mem_selectedStarts : ∀ {a s : Nat} {es : List (FlowEntry × Bool)},
    s ∈ selectedStarts a es → a ≤ s
  | _, _, [], h => by simp [selectedStarts] at h
  | a, s, p :: es, h => by
    rw [selectedStarts, List.mem_append] at h
    rcases h with h | h
    · split at h <;> simp_all
    · have := le_of_mem_selectedStarts h
      omega

/-- The starts of the marked entries increase. -/
theorem selectedStarts_pairwise : ∀ (a : Nat) (es : List (FlowEntry × Bool)),
    (selectedStarts a es).Pairwise (· < ·)
  | _, [] => List.Pairwise.nil
  | a, p :: es => by
    rw [selectedStarts, List.pairwise_append]
    refine ⟨by split <;> simp, selectedStarts_pairwise _ es, ?_⟩
    intro x hx y hy
    have := le_of_mem_selectedStarts hy
    split at hx <;> simp at hx
    omega

/-- A marked entry starts after the tokens of the entries before it, with the opener or a
separator in front of it. -/
theorem selectedStarts_split (front : List (FlowEntry × Bool)) (last : FlowEntry × Bool) :
    ∀ a s, s ∈ selectedStarts a (front ++ [last]) →
      ∃ (P : List Token) (e : FlowEntry) (R : List Token),
        leadingTokens front ++ last.1.tokens = P ++ e.tokens ++ R ∧ s = a + P.length ∧
          (P = [] ∨ P.getLast? = some separator) := by
  induction front with
  | nil =>
    intro a s hs
    simp only [List.nil_append, selectedStarts, List.append_nil] at hs
    split at hs <;> simp at hs
    exact ⟨[], last.1, [], by simp [leadingTokens], by simp [hs], .inl rfl⟩
  | cons p front ih =>
    intro a s hs
    rw [List.cons_append, selectedStarts, List.mem_append] at hs
    rcases hs with hs | hs
    · split at hs <;> simp at hs
      exact ⟨[], p.1, separator :: (leadingTokens front ++ last.1.tokens), by simp [leadingTokens],
        by simp [hs], .inl rfl⟩
    · obtain ⟨P, e, R, hsplit, hs, hP⟩ := ih _ s hs
      refine ⟨p.1.tokens ++ separator :: P, e, R, ?_, ?_, .inr ?_⟩
      · simp [leadingTokens] at hsplit ⊢
        rw [hsplit]
      · simp only [List.length_append, List.length_cons] at hs ⊢
        omega
      · rcases hP with rfl | hP
        · simp
        · rw [List.getLast?_append, List.getLast?_cons]
          simp [hP]

/-- In the tokens of a line, a marked entry starts with its key, after the opener or a
separator. -/
theorem selectedStart_tokens {A : List Token} (op : Token) {front : List (FlowEntry × Bool)}
    {last : FlowEntry × Bool} (rest : List Token) {s : Nat}
    (hs : s ∈ selectedStarts (A.length + 1) (front ++ [last])) :
    A.length + 1 ≤ s ∧
      (∃ key, (A ++ [op] ++ leadingTokens front ++ last.1.tokens ++ rest)[s]? = some ⟨key, [.scalar]⟩) ∧
      ((A ++ [op] ++ leadingTokens front ++ last.1.tokens ++ rest)[s - 1]? = some op ∨
        (A ++ [op] ++ leadingTokens front ++ last.1.tokens ++ rest)[s - 1]? = some separator) := by
  obtain ⟨P, e, R, hsplit, rfl, hP⟩ := selectedStarts_split front last _ s hs
  have hT : A ++ [op] ++ leadingTokens front ++ last.1.tokens ++ rest =
      (A ++ [op] ++ P) ++ (e.tokens ++ (R ++ rest)) := by
    rw [List.append_assoc (A ++ [op]), hsplit]
    simp
  have hlen : (A ++ [op] ++ P).length = A.length + 1 + P.length := by
    simp
    omega
  refine ⟨by omega, ⟨e.key, ?_⟩, ?_⟩
  · rw [hT, ← hlen, List.getElem?_append_right (Nat.le_refl _), Nat.sub_self]
    simp [FlowEntry.tokens]
  · have hget : (A ++ [op] ++ leadingTokens front ++ last.1.tokens ++ rest)[A.length + 1 + P.length - 1]? =
        (A ++ [op] ++ P).getLast? := by
      rw [hT, List.getLast?_eq_getElem?, hlen, List.getElem?_append_left (by omega)]
    rw [hget]
    rcases hP with rfl | hP
    · simp
    · rw [List.getLast?_append, hP]
      simp

/-- The run lemma over the entries that have an entry after them: deleting the marked ones, in
token order, removes their tokens and empties their separators. -/
theorem foldl_removeEntry_leading (front : List (FlowEntry × Bool)) (rest : List Token) :
    ∀ (A : List Token) (At : List String) (Ar : List Bool),
      At.length = A.length → Ar.length = A.length → ∀ (xs : List Entry),
      xs.map Entry.tokenIndex = selectedStarts A.length front →
      (∀ x ∈ xs, x.role ≠ .mappingValue) →
      xs.foldl (removeEntry (A ++ leadingTokens front ++ rest))
          ⟨At ++ (leadingTokens front ++ rest).map Token.text,
            Ar ++ (leadingTokens front ++ rest).map fun _ => false⟩ =
        ⟨At ++ leadingTexts front ++ rest.map Token.text,
          Ar ++ leadingRemoved front ++ rest.map fun _ => false⟩ := by
  induction front with
  | nil =>
    intro A At Ar _ _ xs hxs _
    rw [selectedStarts, List.map_eq_nil_iff] at hxs
    subst hxs
    simp [leadingTokens, leadingTexts, leadingRemoved]
  | cons p front ih =>
    intro A At Ar hAt hAr xs hxs hrole
    obtain ⟨e, s⟩ := p
    have hL : leadingTokens ((e, s) :: front) ++ rest =
        e.tokens ++ separator :: (leadingTokens front ++ rest) := by
      simp [leadingTokens]
    have hT : A ++ leadingTokens ((e, s) :: front) ++ rest =
        A ++ e.tokens ++ separator :: (leadingTokens front ++ rest) := by
      rw [List.append_assoc, hL, List.append_assoc]
    have hA' : (A ++ e.tokens ++ [separator]).length = A.length + e.tokens.length + 1 := by
      simp [Nat.add_assoc]
    have hrole' : ∀ x ∈ xs.tail, x.role ≠ .mappingValue := fun x hx => hrole x (List.mem_of_mem_tail hx)
    rw [hT, hL]
    cases s with
    | true =>
      rw [selectedStarts, if_pos rfl, List.singleton_append] at hxs
      obtain ⟨x, xs', rfl, hx, hxs'⟩ := List.map_eq_cons_iff.1 hxs
      rw [List.foldl_cons, removeEntry_leading hAt hAr e _ hx (hrole x List.mem_cons_self)]
      have h := ih (A ++ e.tokens ++ [separator]) (At ++ e.tokens.map Token.text ++ [""])
        (Ar ++ e.tokens.map (fun _ => true) ++ [false]) (by simp [hAt]) (by simp [hAr]) xs'
        (by rw [hA']; exact hxs') hrole'
      simp only [List.append_assoc, List.cons_append, List.nil_append] at h
      simpa [leadingTexts, leadingRemoved, separatorText] using h
    | false =>
      rw [selectedStarts, if_neg Bool.false_ne_true, List.nil_append] at hxs
      have h := ih (A ++ e.tokens ++ [separator]) (At ++ e.tokens.map Token.text ++ [", "])
        (Ar ++ e.tokens.map (fun _ => false) ++ [false]) (by simp [hAt]) (by simp [hAr]) xs
        (by rw [hA']; exact hxs) hrole
      simp only [List.append_assoc, List.cons_append, List.nil_append] at h
      simpa [leadingTexts, leadingRemoved, separatorText, separator] using h

/-- A closer of a flow collection, with whatever white space follows it. -/
def IsCloser (t : Token) : Prop :=
  t.tags = [] ∧ ∃ c ws, t.text.toList = c :: ws ∧ (c = ']' ∨ c = '}')

/-- The text of a token once its trailing comma, if it has one, is stripped. -/
def dropComma (t : String) : String :=
  match Flow.stripTrailingComma t.toList with
  | some rest => String.ofList rest
  | none => t

namespace IsCloser

variable {t : Token} (h : IsCloser t)
include h

theorem isComment : t.isComment = false := by
  simp [Token.isComment, h.1]

theorem isScalar : t.isScalar = false := by
  simp [Token.isScalar, h.1]

/-- A closer ends the entry before it. -/
theorem followBrackets : Flow.followBrackets 0 t.text.toList = none := by
  obtain ⟨-, c, ws, hc, rfl | rfl⟩ := h <;> simp [hc, Flow.followBrackets]

/-- A closer starts with no separator to strip. -/
theorem stripLeading (ch : Char) (hch : ch ≠ ']' ∧ ch ≠ '}') :
    Flow.stripLeading t.text.toList ch = none := by
  obtain ⟨-, c, ws, hc, hc'⟩ := h
  have hw : isWhiteSpace c = false := by rcases hc' with rfl | rfl <;> decide
  have hne : (c == ch) = false := by
    rcases hc' with rfl | rfl <;> simp [beq_eq_false_iff_ne, Ne.symm hch.1, Ne.symm hch.2]
  simp [Flow.stripLeading, hc, trimStart, hw, hne]

end IsCloser

/-- Deleting the last entry of a collection removes its tokens and strips the comma of the
nearest token before it that is still in place. -/
theorem removeEntry_last {A0 : List Token} {p : Token} (hp : p.isScalar = false) (tp : String)
    (e : FlowEntry) {closer : Token} (hcl : IsCloser closer) (C : List Token) {At0 : List String}
    {Ar0 : List Bool} (hAt0 : At0.length = A0.length) (hAr0 : Ar0.length = A0.length) {x : Entry}
    (hx : x.tokenIndex = A0.length + 1) (hrole : x.role ≠ .mappingValue) :
    removeEntry (A0 ++ [p] ++ e.tokens ++ closer :: C)
        ⟨At0 ++ tp :: (e.tokens ++ closer :: C).map Token.text,
          Ar0 ++ false :: (e.tokens ++ closer :: C).map fun _ => false⟩ x =
      ⟨At0 ++ dropComma tp :: (e.tokens ++ closer :: C).map Token.text,
        Ar0 ++ false :: e.tokens.map (fun _ => true) ++ (closer :: C).map fun _ => false⟩ := by
  have hlen := e.length_tokens_pos
  have hA : (A0 ++ [p]).length = A0.length + 1 := by simp
  have hend := Flow.entryEnd_entry (A0 ++ [p]) e C hcl.isComment hcl.isScalar hcl.followBrackets
  have hopen := Flow.openCollections_entry (A0 ++ [p]) e (closer :: C)
  rw [hA] at hend hopen
  have hfirst : Removal.isRemoved ⟨At0 ++ tp :: (e.tokens ++ closer :: C).map Token.text,
      Ar0 ++ false :: (e.tokens ++ closer :: C).map fun _ => false⟩ (A0.length + 1) = false := by
    rw [Removal.isRemoved_mk, ← hAr0]
    cases h : e.tokens <;> simp_all
  have hmark : (Ar0 ++ false :: (e.tokens ++ closer :: C).map fun _ => false).mapIdx
      (fun i b => b || (decide (A0.length + 1 ≤ i) &&
        decide (i ≤ A0.length + 1 + e.tokens.length - 1))) =
      Ar0 ++ false :: e.tokens.map (fun _ => true) ++ (closer :: C).map fun _ => false := by
    have := mapIdx_markRange (a := A0.length + 1) (Ar0 ++ [false]) (e.tokens.map fun _ => false)
      ((closer :: C).map fun _ => false) (by simp [hAr0]) (by simpa [List.length_pos_iff] using hlen)
    rw [List.length_map] at this
    simpa using this
  have hnext : ((List.range' (A0.length + 1 + e.tokens.length - 1 + 1)
      ((A0 ++ [p] ++ e.tokens ++ closer :: C).length - (A0.length + 1 + e.tokens.length - 1 + 1))).find?
        fun i => !Removal.isRemoved ⟨At0 ++ tp :: (e.tokens ++ closer :: C).map Token.text,
          Ar0 ++ false :: e.tokens.map (fun _ => true) ++ (closer :: C).map fun _ => false⟩ i).bind
      (punctuationAt (A0 ++ [p] ++ e.tokens ++ closer :: C)) =
        some (A0.length + 1 + e.tokens.length) := by
    rw [show A0.length + 1 + e.tokens.length - 1 + 1 = A0.length + 1 + e.tokens.length by omega,
      Removal.find?_range'_of_not_removed (by simp; omega)]
    · exact punctuationAt_of_getElem? (t := closer) (by simp [Nat.add_assoc, Nat.add_comm 1])
        hcl.isScalar
    · rw [Removal.isRemoved_mk, ← hAr0]
      simp [Nat.add_assoc, Nat.add_comm 1]
  have htext : Removal.textAt ⟨At0 ++ tp :: (e.tokens ++ closer :: C).map Token.text,
      Ar0 ++ false :: e.tokens.map (fun _ => true) ++ (closer :: C).map fun _ => false⟩
        (A0.length + 1 + e.tokens.length) = closer.text.toList := by
    rw [Removal.textAt_mk, ← hAt0]
    simp [Nat.add_assoc, Nat.add_comm 1]
  have hkeep : Removal.modifyText ⟨At0 ++ tp :: (e.tokens ++ closer :: C).map Token.text,
      Ar0 ++ false :: e.tokens.map (fun _ => true) ++ (closer :: C).map fun _ => false⟩
        (A0.length + 1 + e.tokens.length) (fun _ => closer.text.toList) =
      ⟨At0 ++ tp :: (e.tokens ++ closer :: C).map Token.text,
        Ar0 ++ false :: e.tokens.map (fun _ => true) ++ (closer :: C).map fun _ => false⟩ := by
    have hP : (At0 ++ tp :: e.tokens.map Token.text).length = A0.length + 1 + e.tokens.length := by
      simp [hAt0]
      omega
    rw [Removal.modifyText_mk, List.map_append, List.map_cons, ← List.cons_append,
      ← List.append_assoc, ← hP, modify_length_append, String.ofList_toList]
  have hprev : ((List.range (A0.length + 1)).reverse.find?
        fun i => !Removal.isRemoved ⟨At0 ++ tp :: (e.tokens ++ closer :: C).map Token.text,
          Ar0 ++ false :: e.tokens.map (fun _ => true) ++ (closer :: C).map fun _ => false⟩ i).bind
      (punctuationAt (A0 ++ [p] ++ e.tokens ++ closer :: C)) = some A0.length := by
    rw [List.range_succ, List.reverse_append, List.reverse_singleton, List.singleton_append,
      List.find?_cons_of_pos (by rw [Removal.isRemoved_mk, ← hAr0]; simp)]
    exact punctuationAt_of_getElem? (t := p) (by simp) hp
  have hprevText : Removal.textAt ⟨At0 ++ tp :: (e.tokens ++ closer :: C).map Token.text,
      Ar0 ++ false :: e.tokens.map (fun _ => true) ++ (closer :: C).map fun _ => false⟩
        A0.length = tp.toList := by
    rw [Removal.textAt_mk, ← hAt0]
    simp
  have hr : (x.role == .mappingValue) = false := by simpa using hrole
  unfold removeEntry
  simp only [hx, hend, hopen, hfirst, hmark, hnext, htext, hr, Nat.lt_irrefl,
    hcl.stripLeading ':' (by decide), hcl.stripLeading ',' (by decide),
    Bool.false_eq_true, ↓reduceIte, Option.getD_none, hkeep, hprev, hprevText]
  -- what is left depends on whether that token ends in a comma
  cases h : Flow.stripTrailingComma tp.toList with
  | some rest =>
    simp only [Removal.modifyText_mk]
    rw [← hAt0, modify_length_append]
    simp [dropComma, h]
  | none => simp [dropComma, h]

theorem keptTexts_append (es es' : List (FlowEntry × Bool)) :
    keptTexts (es ++ es') = keptTexts es ++ keptTexts es' := by
  simp [keptTexts]

/-- The state the entries before the last one leave. -/
def leadingState (A : List Token) (front : List (FlowEntry × Bool)) (rest : List Token) :
    Removal :=
  ⟨A.map Token.text ++ leadingTexts front ++ rest.map Token.text,
    A.map (fun _ => false) ++ leadingRemoved front ++ rest.map fun _ => false⟩

theorem output_leadingState (A : List Token) (front : List (FlowEntry × Bool))
    (rest : List Token) :
    (leadingState A front rest).output = Token.join A ++
      String.join (front.map fun p => if p.2 then "" else p.1.text ++ ", ") ++ Token.join rest := by
  rw [leadingState, Removal.output_append (by simp [length_leadingTexts, length_leadingRemoved]),
    Removal.output_append (by simp), Removal.output_uniform, Removal.output_uniform,
    output_leading]
  rfl

/-- When the last entry is kept, the entries before it leave the collection's text. -/
theorem output_keep_last (A : List Token) (front : List (FlowEntry × Bool)) (e : FlowEntry)
    (tail : List Token) :
    (leadingState A front (e.tokens ++ tail)).output =
      Token.join A ++ remainingText front (e, false) ++ Token.join tail := by
  have hk : keptTexts [(e, false)] = [e.text] := by simp [keptTexts]
  have hl : lastTwoDeleted front (e, false) = false := by simp [lastTwoDeleted]
  rw [output_leadingState, remainingText, keptTexts_append, hk, hl, Bool.false_and, if_neg (by simp),
    String.append_empty, ← join_kept_separated_append]
  simp [Token.join, String.join_append, FlowEntry.text, String.append_assoc]

/-- What is left once the last entry is removed after a token of text `t`. -/
theorem output_without_last {At0 : List String} {Ar0 : List Bool} (h : At0.length = Ar0.length)
    (t : String) (E tail : List Token) :
    Removal.output ⟨At0 ++ t :: (E ++ tail).map Token.text,
        Ar0 ++ false :: E.map (fun _ => true) ++ tail.map fun _ => false⟩ =
      Removal.output ⟨At0, Ar0⟩ ++ t ++ Token.join tail := by
  have hs : Ar0 ++ false :: E.map (fun _ => true) ++ tail.map (fun _ => false) =
      Ar0 ++ ([false] ++ (E.map (fun _ => true) ++ tail.map fun _ => false)) := by simp
  rw [hs, List.map_append, ← List.singleton_append, Removal.output_append h,
    Removal.output_append rfl, Removal.output_append (by simp), Removal.output_uniform,
    Removal.output_uniform]
  simp [Removal.output, String.append_assoc]

/-- Deleting the last entry after the others removes it and strips the comma in front of it. -/
theorem output_removeEntry_last {A : List Token} {op : Token} (hop : op.isScalar = false)
    (hopc : dropComma op.text = op.text) (front : List (FlowEntry × Bool)) (e : FlowEntry)
    {closer : Token} (hcl : IsCloser closer) (C : List Token) {x : Entry}
    (hx : x.tokenIndex = A.length + 1 + (leadingTokens front).length)
    (hrole : x.role ≠ .mappingValue) :
    (removeEntry (A ++ [op] ++ leadingTokens front ++ (e.tokens ++ closer :: C))
        (leadingState (A ++ [op]) front (e.tokens ++ closer :: C)) x).output =
      Token.join (A ++ [op]) ++ remainingText front (e, true) ++ Token.join (closer :: C) := by
  rcases front.eq_nil_or_concat with rfl | ⟨front', ⟨e', s'⟩, hfront⟩
  · have hT : A ++ [op] ++ leadingTokens [] ++ (e.tokens ++ closer :: C) =
        A ++ [op] ++ e.tokens ++ closer :: C := by simp [leadingTokens]
    have hS : leadingState (A ++ [op]) [] (e.tokens ++ closer :: C) =
        ⟨A.map Token.text ++ op.text :: (e.tokens ++ closer :: C).map Token.text,
          A.map (fun _ => false) ++ false :: (e.tokens ++ closer :: C).map fun _ => false⟩ := by
      simp [leadingState, leadingTexts, leadingRemoved]
    rw [hT, hS, removeEntry_last hop op.text e hcl C (by simp) (by simp)
      (by simpa [leadingTokens] using hx) hrole, hopc, output_without_last (by simp),
      Removal.output_uniform]
    simp [remainingText, keptTexts, lastTwoDeleted, Token.join, String.join_append]
  · rw [List.concat_eq_append] at hfront
    subst hfront
    have hT : A ++ [op] ++ leadingTokens (front' ++ [(e', s')]) ++ (e.tokens ++ closer :: C) =
        A ++ [op] ++ leadingTokens front' ++ e'.tokens ++ [separator] ++ e.tokens ++ closer :: C := by
      simp [leadingTokens_append]
    have hS : leadingState (A ++ [op]) (front' ++ [(e', s')]) (e.tokens ++ closer :: C) =
        ⟨((A ++ [op]).map Token.text ++ leadingTexts front' ++ e'.tokens.map Token.text) ++
            separatorText s' :: (e.tokens ++ closer :: C).map Token.text,
          ((A ++ [op]).map (fun _ => false) ++ leadingRemoved front' ++ e'.tokens.map fun _ => s') ++
            false :: (e.tokens ++ closer :: C).map fun _ => false⟩ := by
      simp [leadingState, leadingTexts_append, leadingRemoved_append]
    have hlen : (A ++ [op] ++ leadingTokens front' ++ e'.tokens).length =
        A.length + 1 + (leadingTokens front').length + e'.tokens.length := by
      simp
      omega
    have hdrop : dropComma (separatorText s') = "" := by cases s' <;> decide
    rw [hT, hS, removeEntry_last (p := separator) rfl (separatorText s') e hcl C
      (by simp [length_leadingTexts]) (by simp [length_leadingRemoved])
      (by rw [hx, hlen]; simp [leadingTokens_append]; omega) hrole, hdrop,
      output_without_last (by simp [length_leadingTexts, length_leadingRemoved]),
      Removal.output_append (by simp [length_leadingTexts, length_leadingRemoved]),
      Removal.output_append (by simp),
      Removal.output_uniform, output_leading, Removal.output_uniform]
    have hl : lastTwoDeleted (front' ++ [(e', s')]) (e, true) = s' := by simp [lastTwoDeleted]
    rw [remainingText, keptTexts_append, keptTexts_append, hl]
    cases s' with
    | false =>
      have hk : keptTexts [(e', false)] ++ keptTexts [(e, true)] = [e'.text] := by simp [keptTexts]
      rw [List.append_assoc, hk, ← join_kept_separated_append]
      simp [FlowEntry.text, String.append_assoc]
    | true =>
      have hk : keptTexts [(e', true)] ++ keptTexts [(e, true)] = [] := by simp [keptTexts]
      rw [List.append_assoc, hk, List.append_nil, join_kept_separated]
      by_cases hk' : keptTexts front' = [] <;> simp [hk', String.append_assoc]

/-- Deleting the marked entries of a flat flow collection, in token order, leaves the text in
front of the entries, what `remainingText` says is left of them, and the closer with what follows
it. -/
theorem output_foldl_removeEntry {A : List Token} {op : Token} (hop : op.isScalar = false)
    (hopc : dropComma op.text = op.text) (front : List (FlowEntry × Bool))
    (last : FlowEntry × Bool) {closer : Token} (hcl : IsCloser closer) (C : List Token)
    {xs : List Entry} (hxs : xs.map Entry.tokenIndex = selectedStarts (A.length + 1) (front ++ [last]))
    (hrole : ∀ x ∈ xs, x.role ≠ .mappingValue) :
    (xs.foldl (removeEntry (A ++ [op] ++ leadingTokens front ++ last.1.tokens ++ closer :: C))
        ⟨(A ++ [op] ++ leadingTokens front ++ last.1.tokens ++ closer :: C).map Token.text,
          (A ++ [op] ++ leadingTokens front ++ last.1.tokens ++ closer :: C).map
            fun _ => false⟩).output =
      Token.join (A ++ [op]) ++ remainingText front last ++ Token.join (closer :: C) := by
  obtain ⟨e, b⟩ := last
  rw [selectedStarts_append] at hxs
  obtain ⟨xs1, xs2, rfl, hxs1, hxs2⟩ := List.map_eq_append_iff.1 hxs
  have hA : (A ++ [op]).length = A.length + 1 := by simp
  have h1 := foldl_removeEntry_leading front (e.tokens ++ closer :: C) (A ++ [op])
    ((A ++ [op]).map Token.text) ((A ++ [op]).map fun _ => false) (by simp) (by simp)
    xs1 (by rw [hA]; exact hxs1) (fun x hx => hrole x (List.mem_append_left _ hx))
  have hinit : (⟨(A ++ [op] ++ leadingTokens front ++ e.tokens ++ closer :: C).map Token.text,
      (A ++ [op] ++ leadingTokens front ++ e.tokens ++ closer :: C).map fun _ => false⟩ : Removal) =
      ⟨(A ++ [op]).map Token.text ++ (leadingTokens front ++ (e.tokens ++ closer :: C)).map Token.text,
        (A ++ [op]).map (fun _ => false) ++
          (leadingTokens front ++ (e.tokens ++ closer :: C)).map fun _ => false⟩ := by
    simp only [List.map_append, List.append_assoc]
  have hT : A ++ [op] ++ leadingTokens front ++ e.tokens ++ closer :: C =
      A ++ [op] ++ leadingTokens front ++ (e.tokens ++ closer :: C) := by simp
  rw [List.foldl_append, hinit, hT, h1]
  cases b with
  | false =>
    rw [if_neg Bool.false_ne_true, List.map_eq_nil_iff] at hxs2
    subst hxs2
    exact output_keep_last (A ++ [op]) front e (closer :: C)
  | true =>
    rw [if_pos rfl] at hxs2
    obtain ⟨x, rfl, hx⟩ := List.map_eq_singleton_iff.1 hxs2
    rw [List.foldl_cons, List.foldl_nil]
    exact output_removeEntry_last hop hopc front e hcl C hx (hrole x (by simp))

end Marks

end YamlEdit
