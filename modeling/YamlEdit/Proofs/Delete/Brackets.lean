import YamlEdit.Proofs.Brackets.Entries
import YamlEdit.Proofs.Delete.Flow
import YamlEdit.Proofs.Forest.WellFormed

/-!
# Inline deletions and the brackets of a line

Removing an inline entry takes the entry's tokens, cuts the closers of the collections the entry
opened off the next token still in place, and then strips one separator next to it. The
separator steps only take away white space, `:` and `,`, so only the closers can change the
nesting of the line's brackets.

The closers are cut by count (`Flow.stripClosers`), from the front of the next token, and they
stop at the first character that is not a closer. On a tight line the count is exactly the
closers at the front of that token, so the entry and its closers are a balanced stretch
(`Flow.entry_balanced`) and taking it out keeps the line balanced. Entries are removed in token
order; the invariant of that fold, `Removal.Keeps`, says that the brackets left are the line's
with balanced stretches taken out and that the tokens from some index on are still untouched,
which is where the next entry to remove starts.

Main statement: `Document.delete_keeps_brackets_balanced`. A trailing comma or an empty
collection between an entry's last scalar and its closers makes a line not tight; there the
count stops short, and the closers of the entry's collections stay behind.
-/

namespace YamlEdit

open YamlEdit.Text YamlEdit.Flow

namespace Marks

/-! ## What a removal leaves of a line -/

namespace Removal

@[simp] theorem removed_modifyText (r : Removal) (i : Nat) (g : List Char → List Char) :
    (r.modifyText i g).removed = r.removed := rfl

@[simp] theorem isRemoved_modifyText (r : Removal) (i j : Nat) (g : List Char → List Char) :
    (r.modifyText i g).isRemoved j = r.isRemoved j := rfl

@[simp] theorem length_texts_modifyText (r : Removal) (i : Nat) (g : List Char → List Char) :
    (r.modifyText i g).texts.length = r.texts.length := by
  simp [modifyText]

theorem texts_modifyText_ne (r : Removal) {i j : Nat} (g : List Char → List Char) (h : i ≠ j) :
    (r.modifyText i g).texts[j]? = r.texts[j]? := by
  simp [modifyText, List.getElem?_modify_ne _ _ h]

theorem textAt_modifyText_ne (r : Removal) {i j : Nat} (g : List Char → List Char) (h : i ≠ j) :
    (r.modifyText i g).textAt j = r.textAt j := by
  simp [textAt, texts_modifyText_ne r g h]

theorem textAt_modifyText_self (r : Removal) (i : Nat) (g : List Char → List Char)
    (h : i < r.texts.length) : (r.modifyText i g).textAt i = g (r.textAt i) := by
  simp [textAt, modifyText, List.getElem?_eq_getElem h]

/-- Changing a token's text in a way that keeps its brackets keeps the brackets of every token's
text. -/
theorem brackets_textAt_modifyText (r : Removal) (i : Nat) {g : List Char → List Char}
    (hg : brackets (g (r.textAt i)) = brackets (r.textAt i)) (j : Nat) :
    brackets ((r.modifyText i g).textAt j) = brackets (r.textAt j) := by
  by_cases hij : i = j
  · subst hij
    by_cases hi : i < r.texts.length
    · rw [textAt_modifyText_self r i g hi, hg]
    · have hnone : r.texts[i]? = none := List.getElem?_eq_none (by omega)
      simp [textAt, modifyText, hnone]
  · rw [textAt_modifyText_ne r g hij]

/-- The tokens of a line as a removal leaves them: each keeps its tags, a removed one has no
text, and the others have their current text. -/
def tokensOf (r : Removal) (tokens : List Token) : List Token :=
  tokens.zipIdx.map fun (t, i) =>
    { t with text := if r.isRemoved i then "" else r.texts[i]?.getD t.text }

/-- The brackets the token `t` at index `i` contributes once a removal has worked on it. -/
def bracketsAt (r : Removal) (p : Token × Nat) : List Char :=
  if r.isRemoved p.2 || p.1.isSpan then [] else brackets (r.textAt p.2)

/-- The brackets of the tokens from `k` on, as a removal leaves them. -/
def bracketsFrom (r : Removal) (ts : List Token) (k : Nat) : List Char :=
  (ts.zipIdx k).flatMap r.bracketsAt

theorem bracketsFrom_append (r : Removal) (ts us : List Token) (k : Nat) :
    r.bracketsFrom (ts ++ us) k = r.bracketsFrom ts k ++ r.bracketsFrom us (k + ts.length) := by
  simp [bracketsFrom, List.zipIdx_append]

/-- The brackets of the tokens a removal leaves, when it has a text for every token. -/
theorem bracketsOf_tokensOf (r : Removal) (tokens : List Token)
    (hlen : r.texts.length = tokens.length) :
    bracketsOf (r.tokensOf tokens) = r.bracketsFrom tokens 0 := by
  unfold tokensOf bracketsFrom bracketsOf
  rw [List.flatMap_map]
  apply List.flatMap_congr
  rintro ⟨t, i⟩ hti
  have hi : i < r.texts.length := hlen ▸ (List.mem_zipIdx' hti).1
  by_cases hrem : r.isRemoved i = true
  · simp [bracketsAt, hrem, Token.isSpan, brackets]
  · simp only [Bool.not_eq_true] at hrem
    simp [bracketsAt, hrem, textAt, List.getElem?_eq_getElem hi, Token.isSpan, Token.isScalar,
      Token.isComment]

/-- Tokens still untouched contribute the brackets of their punctuation. -/
theorem bracketsFrom_untouched (r : Removal) :
    ∀ (ts : List Token) (k : Nat),
      (∀ t i, (t, i) ∈ ts.zipIdx k → r.isRemoved i = false ∧ r.textAt i = t.text.toList) →
      r.bracketsFrom ts k = bracketsOf ts
  | [], _, _ => rfl
  | t :: ts, k, h => by
    have hk := h t k (by simp)
    rw [show t :: ts = [t] ++ ts from rfl, bracketsFrom_append, List.length_singleton,
      bracketsFrom_untouched r ts (k + 1) fun u i hu => h u i (by simp [hu])]
    simp [bracketsFrom, bracketsAt, hk.1, hk.2]

/-- Removed tokens contribute nothing. -/
theorem bracketsFrom_removed (r : Removal) :
    ∀ (ts : List Token) (k : Nat), (∀ t i, (t, i) ∈ ts.zipIdx k → r.isRemoved i = true) →
      r.bracketsFrom ts k = []
  | [], _, _ => rfl
  | t :: ts, k, h => by
    rw [show t :: ts = [t] ++ ts from rfl, bracketsFrom_append, List.length_singleton,
      bracketsFrom_removed r ts (k + 1) fun u i hu => h u i (by simp [hu])]
    simp [bracketsFrom, bracketsAt, h t k (by simp)]

/-- Two removals that agree on what is removed and on the brackets of every text leave the same
brackets. -/
theorem bracketsFrom_congr {r r' : Removal} {ts : List Token} {k : Nat}
    (h : ∀ t i, (t, i) ∈ ts.zipIdx k →
      r'.isRemoved i = r.isRemoved i ∧ brackets (r'.textAt i) = brackets (r.textAt i)) :
    r'.bracketsFrom ts k = r.bracketsFrom ts k := by
  unfold bracketsFrom
  apply List.flatMap_congr
  rintro ⟨t, i⟩ hti
  simp [bracketsAt, (h t i hti).1, (h t i hti).2]

end Removal

/-! ## The two halves of removing an entry -/

/-- The first half of `removeEntry`: the entry's tokens marked removed and the closers of the
collections the entry opened cut off the next token still in place, with that token's index. -/
def closeEntry (tokens : List Token) (r : Removal) (e : Entry) : Removal × Option Nat :=
  let first := e.tokenIndex
  let last := Flow.entryEnd tokens first
  let r := { r with removed := r.removed.mapIdx fun i b => b || (first ≤ i && i ≤ last) }
  let next := ((List.range' (last + 1) (tokens.length - (last + 1))).find? fun i =>
    !r.isRemoved i).bind (punctuationAt tokens)
  let opened := Flow.openCollections tokens first last
  (match next with
    | some i => if 0 < opened then r.modifyText i (Flow.stripClosers opened) else r
    | none => r, next)

/-- The second half of `removeEntry`: one separator next to the entry goes with it, the one
after it when there is one, else the one before it. -/
def separateEntry (tokens : List Token) (e : Entry) (r : Removal) (next : Option Nat) : Removal :=
  if e.role == .mappingValue then r
  else
    let (r, separated) := match next with
      | some i =>
        let t := r.textAt i
        let t := (Flow.stripLeading t ':').getD t
        match Flow.stripLeading t ',' with
        | some rest => (r.modifyText i fun _ => rest, true)
        | none => (r.modifyText i fun _ => t, false)
      | none => (r, false)
    if separated then r
    else
      let previous := ((List.range e.tokenIndex).reverse.find? fun i => !r.isRemoved i).bind
        (punctuationAt tokens)
      match previous with
      | some i =>
        match Flow.stripTrailingComma (r.textAt i) with
        | some rest => r.modifyText i fun _ => rest
        | none => r
      | none => r

theorem removeEntry_eq_separateEntry {tokens : List Token} {r : Removal} {e : Entry}
    (h : r.isRemoved e.tokenIndex = false) :
    removeEntry tokens r e =
      separateEntry tokens e (closeEntry tokens r e).1 (closeEntry tokens r e).2 := by
  simp only [removeEntry, h, Bool.false_eq_true, if_false]
  rfl

/-! ## What each half changes -/

namespace Removal

/-- `r'` comes from `r` by rewriting texts, keeping their brackets, and only at indices where
`P` holds. -/
structure Touches (r r' : Removal) (P : Nat → Prop) : Prop where
  removed : r'.removed = r.removed
  length : r'.texts.length = r.texts.length
  brackets_eq : ∀ j, brackets (r'.textAt j) = brackets (r.textAt j)
  texts_eq : ∀ j, ¬P j → r'.texts[j]? = r.texts[j]?

theorem Touches.refl (r : Removal) (P : Nat → Prop) : Touches r r P :=
  ⟨rfl, rfl, fun _ => rfl, fun _ _ => rfl⟩

theorem Touches.trans {r r' r'' : Removal} {P Q : Nat → Prop} (h : Touches r r' P)
    (h' : Touches r' r'' Q) : Touches r r'' fun j => P j ∨ Q j :=
  ⟨h'.removed.trans h.removed, h'.length.trans h.length,
    fun j => (h'.brackets_eq j).trans (h.brackets_eq j),
    fun j hj => (h'.texts_eq j fun hq => hj (.inr hq)).trans (h.texts_eq j fun hp => hj (.inl hp))⟩

theorem Touches.mono {r r' : Removal} {P Q : Nat → Prop} (h : Touches r r' P)
    (hPQ : ∀ j, P j → Q j) : Touches r r' Q :=
  ⟨h.removed, h.length, h.brackets_eq, fun j hj => h.texts_eq j fun hp => hj (hPQ j hp)⟩

theorem touches_modifyText (r : Removal) (i : Nat) {g : List Char → List Char}
    (hg : brackets (g (r.textAt i)) = brackets (r.textAt i)) :
    Touches r (r.modifyText i g) (· = i) :=
  ⟨rfl, by simp, brackets_textAt_modifyText r i hg, fun _ hj => texts_modifyText_ne r g (Ne.symm hj)⟩

end Removal

theorem punctuationAt_eq_some {tokens : List Token} {i j : Nat} (h : punctuationAt tokens i = some j) :
    j = i := by
  unfold punctuationAt at h
  split at h
  · split at h
    · cases h
    · cases h; rfl
  · cases h

theorem ne_colon_brackets : isOpener ':' = false ∧ isCloser ':' = false := by decide

theorem ne_comma_brackets : isOpener ',' = false ∧ isCloser ',' = false := by decide

/-- The separator before an entry: a trailing `,` of the last token in place before it goes. -/
theorem touches_previous (tokens : List Token) (f : Nat) (r : Removal) :
    r.Touches (match ((List.range f).reverse.find? fun i => !r.isRemoved i).bind
        (punctuationAt tokens) with
      | some i =>
        match stripTrailingComma (r.textAt i) with
        | some rest => r.modifyText i fun _ => rest
        | none => r
      | none => r) (· < f) := by
  split
  · rename_i i hprev
    obtain ⟨j, hj, hij⟩ := Option.bind_eq_some_iff.1 hprev
    have hi : i < f := by
      rw [punctuationAt_eq_some hij]
      simpa using List.mem_of_find?_eq_some hj
    split
    · rename_i rest hrest
      exact (Removal.touches_modifyText r i (brackets_stripTrailingComma hrest)).mono
        fun j hj => hj ▸ hi
    · exact .refl r _
  · exact .refl r _

/-- The separator half rewrites only the next token and tokens before the entry, and keeps their
brackets. -/
theorem touches_separateEntry (tokens : List Token) (e : Entry) (r : Removal) (next : Option Nat) :
    r.Touches (separateEntry tokens e r next) fun j => next = some j ∨ j < e.tokenIndex := by
  unfold separateEntry
  split
  · exact .refl r _
  cases next with
  | none =>
    simp only [Bool.false_eq_true, if_false]
    exact (touches_previous tokens e.tokenIndex r).mono fun j hj => .inr hj
  | some i =>
    dsimp only
    have hcolon : brackets ((stripLeading (r.textAt i) ':').getD (r.textAt i)) =
        brackets (r.textAt i) := by
      cases h : stripLeading (r.textAt i) ':' with
      | none => rfl
      | some t => exact brackets_stripLeading ne_colon_brackets h
    have hnext : ∀ j, j = i → some i = some j ∨ j < e.tokenIndex := fun j hj => .inl (hj ▸ rfl)
    cases hcomma : stripLeading ((stripLeading (r.textAt i) ':').getD (r.textAt i)) ',' with
    | some rest =>
      simp only [if_true]
      exact (Removal.touches_modifyText r i
        ((brackets_stripLeading ne_comma_brackets hcomma).trans hcolon)).mono hnext
    | none =>
      simp only [Bool.false_eq_true, if_false]
      exact ((Removal.touches_modifyText r i
        (g := fun _ => (stripLeading (r.textAt i) ':').getD (r.textAt i)) hcolon).mono hnext).trans
        ((touches_previous tokens e.tokenIndex _).mono fun j hj => .inr hj) |>.mono
        fun j hj => hj.elim id id

section CloseEntry

variable (tokens : List Token) (r : Removal) (e : Entry)

theorem closeEntry_removed :
    (closeEntry tokens r e).1.removed = r.removed.mapIdx fun i b =>
      b || (e.tokenIndex ≤ i && i ≤ entryEnd tokens e.tokenIndex) := by
  unfold closeEntry
  dsimp only
  split
  · split <;> rfl
  · rfl

/-- The closers half rewrites the text of the next token in place alone: it cuts the closers of
the collections the entry opened off its front. -/
theorem closeEntry_textAt (j : Nat) :
    (closeEntry tokens r e).1.textAt j =
      if (closeEntry tokens r e).2 = some j ∧
          0 < openCollections tokens e.tokenIndex (entryEnd tokens e.tokenIndex) then
        stripClosers (openCollections tokens e.tokenIndex (entryEnd tokens e.tokenIndex))
          (r.textAt j)
      else r.textAt j := by
  unfold closeEntry
  dsimp only
  split
  · rename_i i hi
    split
    · rename_i hpos
      by_cases hij : i = j
      · subst hij
        rw [if_pos ⟨hi, hpos⟩]
        by_cases hlen : i < r.texts.length
        · exact Removal.textAt_modifyText_self _ i _ hlen
        · have hnone : r.texts[i]? = none := List.getElem?_eq_none (by omega)
          simp [Removal.textAt, Removal.modifyText, hnone, stripClosers_nil]
      · rw [if_neg fun h => hij (Option.some.inj (hi.symm.trans h.1)),
          Removal.textAt_modifyText_ne _ _ hij]
        rfl
    · rename_i hpos
      rw [if_neg fun h => hpos h.2]
      rfl
  · rename_i hi
    rw [if_neg fun h => by rw [hi] at h; exact absurd h.1 (by simp)]
    rfl

theorem closeEntry_texts {j : Nat} (hj : (closeEntry tokens r e).2 ≠ some j) :
    (closeEntry tokens r e).1.texts[j]? = r.texts[j]? := by
  unfold closeEntry at hj ⊢
  dsimp only at hj ⊢
  split
  · rename_i i hi
    split
    · exact Removal.texts_modifyText_ne _ _ fun h => hj (h ▸ hi)
    · rfl
  · rfl

theorem length_closeEntry : (closeEntry tokens r e).1.texts.length = r.texts.length := by
  unfold closeEntry
  dsimp only
  split
  · split
    · simp
    · rfl
  · rfl

variable {tokens r e}

/-- After an entry that ends at `last`, with the token after it in place, the next token is that
one, when it is punctuation. -/
theorem closeEntry_next {T : Token}
    (hT : tokens[entryEnd tokens e.tokenIndex + 1]? = some T) (hs : T.isScalar = false)
    (hrem : r.removed[entryEnd tokens e.tokenIndex + 1]? = some false) :
    (closeEntry tokens r e).2 = some (entryEnd tokens e.tokenIndex + 1) := by
  have hlt : entryEnd tokens e.tokenIndex + 1 < tokens.length := (List.getElem?_eq_some_iff.1 hT).1
  unfold closeEntry
  dsimp only
  rw [Removal.find?_range'_of_not_removed hlt (by simp [Removal.isRemoved, hrem])]
  exact punctuationAt_of_getElem? hT hs

/-- After an entry that ends the line there is no next token. -/
theorem closeEntry_next_of_end (hend : tokens.length ≤ entryEnd tokens e.tokenIndex + 1) :
    (closeEntry tokens r e).2 = none := by
  unfold closeEntry
  dsimp only
  rw [Nat.sub_eq_zero_of_le hend]
  rfl

end CloseEntry

/-! ## One entry removed -/

theorem removeEntry_of_isRemoved {tokens : List Token} {r : Removal} {e : Entry}
    (h : r.isRemoved e.tokenIndex = true) : removeEntry tokens r e = r := by
  simp [removeEntry, h]

theorem isRemoved_of_removed_eq {r r' : Removal} {f last : Nat}
    (h : r'.removed = r.removed.mapIdx fun i b => b || (f ≤ i && i ≤ last)) (i : Nat) :
    r'.isRemoved i = (r.isRemoved i || (f ≤ i && i ≤ last)) := by
  simp only [Removal.isRemoved, h, List.getElem?_mapIdx]
  cases r.removed[i]? <;> simp

/-- What removing an entry that is still in place does: it removes the tokens from the entry's
first to its last scalar, cuts the closers of the collections it opened off the next token in
place, and otherwise rewrites texts only before the entry, keeping their brackets. -/
theorem removeEntry_spec (tokens : List Token) {r : Removal} {e : Entry}
    (hrem : r.isRemoved e.tokenIndex = false) :
    let r' := removeEntry tokens r e
    let last := entryEnd tokens e.tokenIndex
    let D := openCollections tokens e.tokenIndex last
    let next := (closeEntry tokens r e).2
    r'.texts.length = r.texts.length ∧ r'.removed.length = r.removed.length ∧
      (∀ i, r'.isRemoved i = (r.isRemoved i || (e.tokenIndex ≤ i && i ≤ last))) ∧
      (∀ i, brackets (r'.textAt i) =
        brackets (if next = some i ∧ 0 < D then stripClosers D (r.textAt i) else r.textAt i)) ∧
      ∀ i, e.tokenIndex ≤ i → next ≠ some i → r'.texts[i]? = r.texts[i]? := by
  intro r' last D next
  have htouch := touches_separateEntry tokens e (closeEntry tokens r e).1 next
  have hr' : r' = separateEntry tokens e (closeEntry tokens r e).1 next :=
    removeEntry_eq_separateEntry hrem
  rw [hr']
  have hremoved := htouch.removed.trans (closeEntry_removed tokens r e)
  refine ⟨htouch.length.trans (length_closeEntry tokens r e), by simp [hremoved],
    isRemoved_of_removed_eq hremoved, fun i => ?_, fun i hi hne => ?_⟩
  · rw [htouch.brackets_eq i, closeEntry_textAt]
  · rw [htouch.texts_eq i fun h => h.elim hne (Nat.not_lt.2 hi), closeEntry_texts tokens r e hne]

/-! ## Removing entries in token order -/

namespace Removal

/-- The invariant of removing the inline entries of a line in token order: every token has a
text and a flag, the brackets left are those of the line with balanced stretches taken out, the
tokens from `k` on are untouched, and every scalar from `m` up to `k` is removed already. -/
structure Keeps (tokens : List Token) (m k : Nat) (r : Removal) : Prop where
  length_texts : r.texts.length = tokens.length
  length_removed : r.removed.length = tokens.length
  erased : Erases (bracketsOf tokens) (r.bracketsFrom tokens 0)
  untouched : ∀ i t, k ≤ i → tokens[i]? = some t →
    r.texts[i]? = some t.text ∧ r.removed[i]? = some false
  settled : ∀ i t, m ≤ i → i < k → tokens[i]? = some t → t.isScalar = true →
    r.isRemoved i = true

theorem keeps_init (tokens : List Token) :
    Keeps tokens 0 0 ⟨tokens.map Token.text, tokens.map fun _ => false⟩ where
  length_texts := by simp
  length_removed := by simp
  erased := by
    rw [bracketsFrom_untouched _ tokens 0 fun t i hti => ?_]
    · exact .refl
    · have ht : tokens[i]? = some t := List.mem_zipIdx_iff_getElem?.1 hti
      obtain ⟨hi, rfl⟩ := List.getElem?_eq_some_iff.1 ht
      simp [hi]
  untouched i t _ ht := by
    obtain ⟨hi, rfl⟩ := List.getElem?_eq_some_iff.1 ht
    simp [hi]
  settled _ _ _ h := absurd h (Nat.not_lt_zero _)

/-- On a balanced line the brackets left are balanced. -/
theorem Keeps.balanced {tokens : List Token} {m k : Nat} {r : Removal} (hk : Keeps tokens m k r)
    (h : Balanced (bracketsOf tokens)) : Balanced (r.bracketsFrom tokens 0) :=
  hk.erased.balanced h

/-- Untouched tokens are in place with their own text. -/
theorem Keeps.untouched_zipIdx {tokens : List Token} {m k : Nat} {r : Removal}
    (hk : Keeps tokens m k r) {j : Nat} (hj : k ≤ j) :
    ∀ t i, (t, i) ∈ (tokens.drop j).zipIdx j →
      r.isRemoved i = false ∧ r.textAt i = t.text.toList := by
  intro t i hti
  obtain ⟨hji, hget⟩ := List.mem_zipIdx_iff_le_and_getElem?_sub.1 hti
  rw [List.getElem?_drop, Nat.add_sub_cancel' hji] at hget
  obtain ⟨htext, hrem⟩ := hk.untouched i t (by omega) hget
  simp [isRemoved, textAt, htext, hrem]

theorem getElem?_removed {r : Removal} {i : Nat} (h : i < r.removed.length) :
    r.removed[i]? = some (r.isRemoved i) := by
  simp [isRemoved, List.getElem?_eq_getElem h]

theorem bracketsFrom_take_drop (r : Removal) (tokens : List Token) {j : Nat}
    (hj : j ≤ tokens.length) :
    r.bracketsFrom tokens 0 = r.bracketsFrom (tokens.take j) 0 ++ r.bracketsFrom (tokens.drop j) j := by
  conv => lhs; rw [← List.take_append_drop j tokens]
  rw [bracketsFrom_append, List.length_take_of_le hj, Nat.zero_add]

/-! ### Removing one more entry -/

section Step

variable {tokens : List Token} {m k : Nat} {r : Removal} (hk : Keeps tokens m k r) {e : Entry}
  (hkf : k ≤ e.tokenIndex) {B R : List Token} (hsplit : tokens.drop (e.tokenIndex + 1) = B ++ R)
include hk hkf hsplit

/-- The tokens after an entry's stretch are untouched. -/
theorem Keeps.untouched_after_stretch :
    ∀ t i, (t, i) ∈ R.zipIdx (e.tokenIndex + 1 + B.length) →
      r.isRemoved i = false ∧ r.textAt i = t.text.toList := by
  have hRdrop : tokens.drop (e.tokenIndex + 1 + B.length) = R := by
    rw [← List.drop_drop, hsplit, List.drop_left]
  have := hk.untouched_zipIdx (j := e.tokenIndex + 1 + B.length) (by omega)
  rwa [hRdrop] at this

/-- The token after an entry's stretch, if any, is the next token still in place, and no
scalar, for the entry's scan stopped there. -/
theorem Keeps.next_after_stretch (hend : entryEnd tokens e.tokenIndex = e.tokenIndex + B.length)
    (hl : Lexed tokens) {D : Nat} (hstop : Stops D R) :
    (R = [] ∧ (closeEntry tokens r e).2 = none) ∨ ∃ T R', R = T :: R' ∧
      T.isScalar = false ∧ (closeEntry tokens r e).2 = some (e.tokenIndex + 1 + B.length) := by
  cases R with
  | nil =>
    refine .inl ⟨rfl, closeEntry_next_of_end ?_⟩
    have := congrArg List.length hsplit
    simp only [List.length_drop, List.length_append, List.length_nil] at this
    omega
  | cons T R' =>
    have hTs : T.isScalar = false := by
      rcases hstop with hc | ⟨hsc, -⟩
      · cases hsc : T.isScalar
        · rfl
        · have := hl.scalar_not_comment T (List.mem_of_getElem?
            ((getElem?_after_stretch hsplit 0).trans rfl)) hsc
          simp [hc] at this
      · exact hsc
    have hT : tokens[entryEnd tokens e.tokenIndex + 1]? = some T := by
      rw [hend, show e.tokenIndex + B.length + 1 = e.tokenIndex + 1 + B.length + 0 by omega,
        getElem?_after_stretch hsplit]
      rfl
    have hfree := (hk.untouched _ T (by omega) hT).2
    refine .inr ⟨T, R', rfl, hTs, ?_⟩
    rw [closeEntry_next hT hTs hfree, hend, Nat.add_right_comm]

end Step

section Removed

variable {tokens : List Token} {r : Removal} {e : Entry} {B : List Token} {D : Nat}
  (hend : entryEnd tokens e.tokenIndex = e.tokenIndex + B.length)
  (hopen : openCollections tokens e.tokenIndex (e.tokenIndex + B.length) = D)
  (hrem : r.isRemoved e.tokenIndex = false)
include hend hopen hrem

/-- Removing an entry takes the brackets of its own tokens and keeps those before it, when no
closers are cut there. -/
theorem bracketsFrom_removeEntry {t₀ : Token} {R : List Token}
    (hf : tokens[e.tokenIndex]? = some t₀) (hsplit : tokens.drop (e.tokenIndex + 1) = B ++ R)
    (hnext : ∀ i, (closeEntry tokens r e).2 = some i → e.tokenIndex ≤ i) :
    (Marks.removeEntry tokens r e).bracketsFrom tokens 0 =
      r.bracketsFrom (tokens.take e.tokenIndex) 0 ++
        (Marks.removeEntry tokens r e).bracketsFrom R (e.tokenIndex + 1 + B.length) := by
  obtain ⟨-, -, hremoved', hbr', -⟩ := removeEntry_spec tokens hrem
  simp only [hend, hopen] at hremoved' hbr'
  have hflt : e.tokenIndex < tokens.length := (List.getElem?_eq_some_iff.1 hf).1
  have hbefore : (Marks.removeEntry tokens r e).bracketsFrom (tokens.take e.tokenIndex) 0 =
      r.bracketsFrom (tokens.take e.tokenIndex) 0 := by
    refine bracketsFrom_congr fun t i hti => ?_
    have hi : i < e.tokenIndex := by
      have := (List.mem_zipIdx hti).2.1
      simp only [List.length_take, Nat.zero_add] at this
      omega
    refine ⟨by simp [hremoved' i, show ¬e.tokenIndex ≤ i by omega], ?_⟩
    rw [hbr' i, if_neg fun h => absurd (hnext i h.1) (by omega)]
  have hentry : (Marks.removeEntry tokens r e).bracketsFrom (t₀ :: B) e.tokenIndex = [] := by
    refine bracketsFrom_removed _ _ _ fun t i hti => ?_
    obtain ⟨h1, h2, -⟩ := List.mem_zipIdx hti
    simp only [List.length_cons] at h2
    simp [hremoved' i, h1, show i ≤ e.tokenIndex + B.length by omega]
  rw [bracketsFrom_take_drop _ tokens hflt.le, drop_eq_cons_of_getElem? hf, hsplit,
    ← List.cons_append, bracketsFrom_append, hbefore, hentry, List.nil_append, List.length_cons,
    show e.tokenIndex + (B.length + 1) = e.tokenIndex + 1 + B.length by omega]

/-- Past an entry's stretch a removal keeps the brackets of every token it cuts no closers
from. -/
theorem bracketsFrom_after_removeEntry (ts : List Token) {j : Nat}
    (hj : e.tokenIndex + 1 + B.length ≤ j)
    (hcut : ∀ i, j ≤ i → ¬((closeEntry tokens r e).2 = some i ∧ 0 < D)) :
    (Marks.removeEntry tokens r e).bracketsFrom ts j = r.bracketsFrom ts j := by
  obtain ⟨-, -, hremoved', hbr', -⟩ := removeEntry_spec tokens hrem
  simp only [hend, hopen] at hremoved' hbr'
  unfold bracketsFrom
  apply List.flatMap_congr
  rintro ⟨t, i⟩ hti
  have hji := (List.mem_zipIdx hti).1
  unfold bracketsAt
  rw [hremoved' i, hbr' i, if_neg (hcut i hji)]
  simp [show ¬i ≤ e.tokenIndex + B.length by omega]

/-- The token after an entry's stretch loses the closers cut off it. -/
theorem bracketsAt_cut_removeEntry {T : Token} (hT : T.isSpan = false) {i : Nat}
    (hi : e.tokenIndex + B.length < i) (hfree : r.isRemoved i = false ∧ r.textAt i = T.text.toList)
    (hN : (closeEntry tokens r e).2 = some i) (hD : 0 < D) :
    (Marks.removeEntry tokens r e).bracketsAt (T, i) = brackets (stripClosers D T.text.toList) := by
  obtain ⟨-, -, hremoved', hbr', -⟩ := removeEntry_spec tokens hrem
  simp only [hend, hopen] at hremoved' hbr'
  unfold bracketsAt
  rw [if_neg (by simp [hremoved' i, hfree.1, hT, show ¬i ≤ e.tokenIndex + B.length by omega]),
    hbr' i, if_pos (And.intro hN hD), hfree.2]

end Removed

/-- The step lemma: removing one more entry, at or after the scalars settled so far, keeps the
invariant, with the entry's own tokens settled and the tokens after the token behind it
untouched. -/
theorem Keeps.removeEntry {tokens : List Token} (hl : Lexed tokens) (ht : Tight tokens)
    (hsrc : Balanced (bracketsOf tokens)) {m k : Nat} {r : Removal} (hk : Keeps tokens m k r)
    {e : Entry} (hm : m ≤ e.tokenIndex) {t₀ : Token} (hf : tokens[e.tokenIndex]? = some t₀)
    (hs : t₀.isScalar = true) :
    ∃ m' k', m' ≤ e.tokenIndex ∧ Keeps tokens m' k' (Marks.removeEntry tokens r e) := by
  by_cases hrem : r.isRemoved e.tokenIndex = true
  · exact ⟨m, k, hm, by rw [removeEntry_of_isRemoved hrem]; exact hk⟩
  simp only [Bool.not_eq_true] at hrem
  have hkf : k ≤ e.tokenIndex := by
    by_contra hlt
    have := hk.settled _ t₀ hm (by omega) hf hs
    rw [hrem] at this
    cases this
  obtain ⟨B, R, D, hsplit, hend, hcom, hlast, hfb, hstop, hopen, -⟩ := entryEnd_split hf hs
  obtain ⟨hlen', hlenr', hremoved', -, htexts'⟩ := removeEntry_spec tokens hrem
  simp only [hend] at hremoved'
  have hRuntouched := hk.untouched_after_stretch hkf hsplit
  have hnext := hk.next_after_stretch hkf hsplit hend hl hstop
  have hnext_ne : ∀ i, i ≠ e.tokenIndex + 1 + B.length → (closeEntry tokens r e).2 ≠ some i := by
    rcases hnext with ⟨-, h⟩ | ⟨T, R', -, -, h⟩ <;> intro i hi hN <;> rw [h] at hN <;> simp_all
  have hold : r.bracketsFrom tokens 0 =
      r.bracketsFrom (tokens.take e.tokenIndex) 0 ++ bracketsOf (B ++ R) := by
    rw [bracketsFrom_take_drop r tokens (List.getElem?_eq_some_iff.1 hf).1.le,
      bracketsFrom_untouched r _ _ (hk.untouched_zipIdx hkf), drop_eq_cons_of_getElem? hf, hsplit]
    simp [Token.isSpan, hs]
  have hnew := bracketsFrom_removeEntry hend hopen hrem hf hsplit fun i h => by
    by_contra hi
    exact hnext_ne i (by omega) h
  have hbal := hk.balanced hsrc
  rw [hold, Flow.Balanced] at hbal
  obtain ⟨S, -, hS⟩ := nest_append_eq_some hbal
  -- the removal takes a balanced stretch out of the brackets: the entry's own, with the closers
  -- cut off the token after it
  have hcut : ∃ x p y, Balanced p ∧ r.bracketsFrom tokens 0 = x ++ p ++ y ∧
      (Marks.removeEntry tokens r e).bracketsFrom tokens 0 = x ++ y := by
    rw [hold, hnew]
    rcases entry_balanced hl ht hf hs hsplit hcom hlast hfb hstop hS with
      ⟨rfl, hB⟩ | ⟨T, R', pre, rfl, hT, hDpos, hpre, -, hclosed⟩
    · rw [bracketsFrom_after_removeEntry hend hopen hrem R le_rfl fun i _ h => Nat.lt_irrefl 0 h.2,
        bracketsFrom_untouched r R _ hRuntouched]
      exact ⟨_, _, _, hB, by simp only [bracketsOf_append, List.append_assoc], rfl⟩
    · have hN : (closeEntry tokens r e).2 = some (e.tokenIndex + 1 + B.length) := by
        rcases hnext with ⟨h, -⟩ | ⟨T', R'', -, -, hN⟩
        · cases h
        · exact hN
      have hafter : (Marks.removeEntry tokens r e).bracketsFrom (T :: R')
          (e.tokenIndex + 1 + B.length) = brackets (stripClosers D T.text.toList) ++ bracketsOf R' := by
        rw [show T :: R' = [T] ++ R' from rfl, bracketsFrom_append, List.length_singleton,
          bracketsFrom_after_removeEntry hend hopen hrem R' (by omega) fun i hi h => by
            rw [hN] at h; simp at h; omega,
          bracketsFrom_untouched r R' _ fun t i hti => hRuntouched t i (by simp [hti])]
        simp [bracketsFrom, bracketsAt_cut_removeEntry hend hopen hrem hT (by omega)
          (hRuntouched T _ (by simp)) hN hDpos]
      have hsplitT : bracketsOf (B ++ T :: R') = (bracketsOf B ++ brackets pre) ++
          brackets (stripClosers D T.text.toList) ++ bracketsOf R' := by
        conv => lhs; rw [bracketsOf_append, bracketsOf_cons, hpre]
        simp [hT]
      rw [hafter]
      exact ⟨_, _, _, hclosed, by rw [hsplitT]; simp only [List.append_assoc], rfl⟩
  obtain ⟨x, p, y, hp, hx, hx'⟩ := hcut
  refine ⟨e.tokenIndex, e.tokenIndex + 1 + B.length + 1, le_rfl,
    ⟨hlen'.trans hk.length_texts, hlenr'.trans hk.length_removed, hx' ▸ (hx ▸ hk.erased).erase hp,
      ?_, ?_⟩⟩
  · intro i t hi ht
    have hti := hk.untouched i t (by omega) ht
    have hilen : i < (Marks.removeEntry tokens r e).removed.length := by
      rw [hlenr', hk.length_removed]
      exact (List.getElem?_eq_some_iff.1 ht).1
    refine ⟨(htexts' i (by omega) (hnext_ne i (by omega))).trans hti.1, ?_⟩
    rw [getElem?_removed hilen, hremoved' i]
    simp [isRemoved, hti.2, show ¬i ≤ e.tokenIndex + B.length by omega]
  · intro i t hi1 hi2 ht hts
    by_cases hle : i ≤ e.tokenIndex + B.length
    · simp [hremoved' i, hi1, hle]
    · rw [show i = e.tokenIndex + 1 + B.length + 0 by omega, getElem?_after_stretch hsplit] at ht
      rcases hnext with ⟨rfl, -⟩ | ⟨T, R', rfl, hTs, -⟩
      · cases ht
      · cases ht
        simp [hTs] at hts

/-- The run lemma: removing entries in token order, each on a scalar at or after the scalars
settled so far, keeps the invariant. -/
theorem Keeps.foldl_removeEntry {tokens : List Token} (hl : Lexed tokens) (ht : Tight tokens)
    (hsrc : Balanced (bracketsOf tokens)) :
    ∀ (entries : List Entry) {m k : Nat} {r : Removal}, Keeps tokens m k r →
      entries.Pairwise (fun a b => a.tokenIndex ≤ b.tokenIndex) →
      (∀ e ∈ entries, m ≤ e.tokenIndex ∧
        ∃ t, tokens[e.tokenIndex]? = some t ∧ t.isScalar = true) →
      ∃ m' k', Keeps tokens m' k' (entries.foldl (Marks.removeEntry tokens) r)
  | [], m, k, _, hk, _, _ => ⟨m, k, hk⟩
  | e :: es, _, _, _, hk, hsorted, hentries => by
    obtain ⟨hm, t₀, hf, hs⟩ := hentries e (by simp)
    obtain ⟨m', k', hm', hk'⟩ := hk.removeEntry hl ht hsrc hm hf hs
    rw [List.pairwise_cons] at hsorted
    refine Keeps.foldl_removeEntry hl ht hsrc es hk' hsorted.2 fun e' he' => ⟨?_, ?_⟩
    · exact hm'.trans (hsorted.1 e' he')
    · exact (hentries e' (by simp [he'])).2

end Removal

/-- Removing the inline entries of a tight, balanced line in token order, each on a scalar, takes
balanced stretches out of its brackets. -/
theorem erases_removalOf {line : Line} (hl : Lexed line.tokens) (ht : Tight line.tokens)
    (hbal : Balanced (bracketsOf line.tokens)) {entries : List Entry}
    (hsorted : entries.Pairwise (fun a b => a.tokenIndex ≤ b.tokenIndex))
    (hscalar : ∀ e ∈ entries, ∃ t, line.tokens[e.tokenIndex]? = some t ∧ t.isScalar = true) :
    Erases (bracketsOf line.tokens) (bracketsOf ((removalOf line entries).tokensOf line.tokens)) := by
  obtain ⟨m, k, hk⟩ : ∃ m k, Removal.Keeps line.tokens m k (removalOf line entries) :=
    (Removal.keeps_init line.tokens).foldl_removeEntry hl ht hbal entries hsorted
      fun e he => ⟨Nat.zero_le _, hscalar e he⟩
  rw [Removal.bracketsOf_tokensOf _ _ hk.length_texts]
  exact hk.erased

end Marks

namespace Document

/-- Without renames, the tokens of a line render as its inline deletions leave them. -/
theorem renderTokens_pendingEdits {d : Document}
    (hren : ∀ e ∈ d.entries, ∀ s, e.mark ≠ .renamed s)
    (hnum : ∀ k line, d.line? k = some line → line.number = k) {l : Line}
    (hl : d.line? l.number = some l) :
    Edit.renderTokens d.pendingEdits l =
      (Marks.removalOf l (d.inlineDeletions l.number)).tokensOf l.tokens := by
  unfold Edit.renderTokens Marks.Removal.tokensOf
  apply List.map_congr_left
  rintro ⟨t, i⟩ hti
  dsimp only
  rw [replacement?_pendingEdits hren hnum hl (List.mem_zipIdx_iff_getElem?.1 hti),
    Edit.insertions_eq_nil fun _ _ => insertText_not_mem_pendingEdits _ _ _ _ _, splice_nil]

/-- After a deletion the tokens of a line render as the removal of its inline deletions leaves
them. -/
theorem Parsed.renderTokens_markAll_deleted {text : String} {d : Document} (hp : Parsed text d)
    (targets : List Nat) {l : Line} (hl : l ∈ d.lines) :
    Edit.renderTokens (Mutation.markAll d targets .deleted).pendingEdits l =
      (Marks.removalOf l ((Mutation.markAll d targets .deleted).inlineDeletions l.number)).tokensOf
        l.tokens := by
  have hline : (Mutation.markAll d targets .deleted).line? l.number = some l := by
    rw [Mutation.line?_markAll]
    exact hp.line?_of_mem hl
  exact renderTokens_pendingEdits (hp.not_renamed_markAll_deleted targets)
    (hp.number_of_line?_markAll targets .deleted) hline

/-- Deleting nodes keeps the flow collections of a tight line well nested: the brackets of the
line as rendered, outside scalars and comments, are the line's own with balanced stretches taken
out, so when the line's brackets are balanced and properly nested so are the rendered ones. Each
stretch is a removed entry with the closers of the collections it opened, and a collection
around it keeps both its brackets. -/
theorem delete_keeps_brackets_balanced {rule : IndentRule} {t : String} {d : Document}
    (h : Document.parse rule t = .ok d) (targets : List Nat) {l : Line} (hl : l ∈ d.lines)
    (hbal : Balanced (bracketsOf l.tokens)) (htight : Tight l.tokens) :
    Erases (bracketsOf l.tokens) (bracketsOf (Edit.renderTokens
        ((Mutation.delete.apply d targets).1.pendingEdits ++
          (Mutation.delete.apply d targets).2) l)) ∧
      Balanced (bracketsOf (Edit.renderTokens
        ((Mutation.delete.apply d targets).1.pendingEdits ++
          (Mutation.delete.apply d targets).2) l)) := by
  have hp := parse_parsed h
  obtain ⟨hscan, hroots, -⟩ := scan_of_parse h
  have hwf := Forest.parse_wellFormed hscan
  rw [← hroots] at hwf
  have hlexed : Lexed l.tokens := by
    rw [Line.tokens_of_scanFrom hscan l hl]
    exact lexed_lex l.text
  have hsorted := List.pairwise_map.1
    (inlineDeletions_sorted (Mutation.markAll d targets .deleted) l.number)
  have hscalar : ∀ x ∈ (Mutation.markAll d targets .deleted).inlineDeletions l.number,
      ∃ tk, l.tokens[x.tokenIndex]? = some tk ∧ tk.isScalar = true := by
    intro x hx
    obtain ⟨n, hn, -, -, hline, rfl⟩ := (hp.mem_inlineDeletions targets).1 hx
    exact hwf.scalar_on_line hp hl hn hline
  have herased := Marks.erases_removalOf hlexed htight hbal hsorted hscalar
  rw [← hp.renderTokens_markAll_deleted targets hl] at herased
  have happly : Mutation.delete.apply d targets = (Mutation.markAll d targets .deleted, []) := rfl
  rw [happly, List.append_nil]
  exact ⟨herased, herased.balanced hbal⟩

/-- Deleting the key `egg` of `- bacon: {egg: [spam, ham], k: v}`, whose line is tight and
balanced, takes its entry with the closer of its sequence. -/
theorem delete_keeps_brackets_balanced_nested : ∃ d,
    Document.parse {} "- bacon: {egg: [spam, ham], k: v}\n" = .ok d ∧ ∃ l ∈ d.lines,
      Balanced (bracketsOf l.tokens) ∧ Tight l.tokens ∧
      Erases (bracketsOf l.tokens) (bracketsOf (Edit.renderTokens
        ((Mutation.delete.apply d [1]).1.pendingEdits ++ (Mutation.delete.apply d [1]).2) l)) ∧
      Balanced (bracketsOf (Edit.renderTokens
        ((Mutation.delete.apply d [1]).1.pendingEdits ++ (Mutation.delete.apply d [1]).2) l)) := by
  obtain ⟨d, hd⟩ := parse_ok_of_isSome (by decide :
    (Document.parse {} "- bacon: {egg: [spam, ham], k: v}\n").toOption.isSome = true)
  have hcheck : (Document.parse {} "- bacon: {egg: [spam, ham], k: v}\n").toOption.map
      (fun d => d.lines.map fun l => decide (Balanced (bracketsOf l.tokens)) &&
        decide (Tight l.tokens)) = some [true] := by
    decide +kernel
  rw [hd] at hcheck
  simp only [Except.toOption, Option.map_some, Option.some.injEq, List.map_eq_singleton_iff,
    Bool.and_eq_true, decide_eq_true_eq] at hcheck
  obtain ⟨l, hlines, hbal, htight⟩ := hcheck
  have hl : l ∈ d.lines := hlines ▸ List.mem_singleton_self l
  exact ⟨d, hd, l, hl, hbal, htight, delete_keeps_brackets_balanced hd [1] hl hbal htight⟩

end Document

end YamlEdit
