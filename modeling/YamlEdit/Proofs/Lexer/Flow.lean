import YamlEdit.Proofs.Lexer.Words
import YamlEdit.Proofs.Delete.Flow

/-!
# Lexing a flat flow collection

A line `key: [a, b: c, d]`, indented by spaces and perhaps followed by white space and a comment,
lexes as its indentation, the key, the punctuation `: [`, the tokens of each entry with a `, `
token between each two, and the closer with the white space after it, then the comment. The
entries' keys and values are plain scalars: they open and end on an alphanumeric character and
hold no terminator or quote, so that each is read as one word.

The run is followed piece by piece through `tokensAfter`: each lemma reads one piece of text
from a state between spans or inside a word and names the tokens that piece finishes, leaving
the rest of the line to the next lemma.
-/

namespace YamlEdit

open YamlEdit.Text

namespace Lexer

/-- A plain scalar: it opens and ends on an alphanumeric character and holds no terminator or
quote, so the lexer reads it as one word. -/
structure Plain (w : String) : Prop where
  head : ∃ c cs, w.toList = c :: cs ∧ isAlphanumeric c = true
  last : ∀ c ∈ w.toList.getLast?, isAlphanumeric c = true
  inner : ∀ c ∈ w.toList, isTerminator c = false ∧ isQuote c = false

/-- A character the lexer gathers into punctuation between spans. -/
def Inert (c : Char) : Prop :=
  isAlphanumeric c = false ∧ isQuote c = false ∧ c ≠ '#'

theorem Plain.ne_nil {w : String} (hw : Plain w) : w.toList ≠ [] := by
  obtain ⟨c, cs, h, -⟩ := hw.head
  simp [h]

/-- `Plain` as a check on the characters. -/
def isPlain (w : String) : Bool :=
  (w.toList.head?.any isAlphanumeric && w.toList.getLast?.all isAlphanumeric) &&
    w.toList.all fun c => !isTerminator c && !isQuote c

theorem plain_iff_isPlain {w : String} : Plain w ↔ isPlain w = true := by
  simp only [isPlain, Bool.and_eq_true, Option.any_eq_true, Option.all_eq_true, List.all_eq_true,
    Bool.not_eq_true']
  constructor
  · rintro ⟨⟨c, cs, hw, hc⟩, hlast, hinner⟩
    exact ⟨⟨⟨c, by simp [hw], hc⟩, hlast⟩, fun c hc => by simpa using hinner c hc⟩
  · rintro ⟨⟨⟨c, hc, hal⟩, hlast⟩, hinner⟩
    obtain ⟨cs, hw⟩ : ∃ cs, w.toList = c :: cs := by
      cases h : w.toList with
      | nil => simp [h] at hc
      | cons c' cs =>
        simp only [h, List.head?_cons, Option.some.injEq] at hc
        exact ⟨cs, by rw [hc]⟩
    exact ⟨⟨c, cs, hw, hal⟩, hlast, fun c hc => by simpa using hinner c hc⟩

instance (w : String) : Decidable (Plain w) := decidable_of_iff _ plain_iff_isPlain.symm

theorem inert_space : Inert ' ' := ⟨by decide, by decide, by decide⟩

end Lexer

/-- An entry whose key and value are plain scalars. -/
def FlowEntry.Plain (e : FlowEntry) : Prop :=
  Lexer.Plain e.key ∧ ∀ v ∈ e.value, Lexer.Plain v

namespace Lexer

namespace State

/-- Between spans, with the punctuation `P` tagged `tags` pending and nothing finished. -/
def between (P : List Char) (tags : List Tag) : State :=
  ⟨.outside, P, [], tags, []⟩

/-- Inside the word `w`, nothing finished. -/
def inWord (w : List Char) : State :=
  ⟨.word, w, [], [.scalar], []⟩

/-- The token a pending span becomes, if it has text. -/
def pending (P : List Char) (tags : List Tag) : List Token :=
  if P = [] then [] else [⟨String.ofList P, tags⟩]

/-- The rest of a plain word joins the word: characters that are not alphanumeric are held back
and returned to the word by the next alphanumeric one. -/
theorem foldl_step_wordRest (cs : List Char)
    (hcs : ∀ c ∈ cs, isTerminator c = false ∧ isQuote c = false)
    (hlast : ∀ c ∈ cs.getLast?, isAlphanumeric c = true) :
    ∀ (cur held : List Char) (tags : List Tag) (done : List Token), (held = [] ∨ cs ≠ []) →
      cs.foldl step ⟨if held = [] then .word else .held, cur, held, tags, done⟩ =
        ⟨.word, cur ++ held ++ cs, [], tags, done⟩ := by
  induction cs with
  | nil =>
    intro cur held tags done h
    simp only [ne_eq, not_true_eq_false, or_false] at h
    simp [h]
  | cons c cs ih =>
    intro cur held tags done _
    obtain ⟨ht, hq⟩ := hcs c (by simp)
    have hcs' : ∀ d ∈ cs, isTerminator d = false ∧ isQuote d = false :=
      fun d hd => hcs d (by simp [hd])
    have hlast' : ∀ d ∈ cs.getLast?, isAlphanumeric d = true := by
      intro d hd
      cases cs with
      | nil => simp at hd
      | cons _ _ => exact hlast d (by simpa using hd)
    have hmore : isAlphanumeric c = false → cs ≠ [] := by
      rintro hc rfl
      simp [hlast c (by simp)] at hc
    rw [List.foldl_cons]
    by_cases hh : held = []
    · subst hh
      by_cases hc : isAlphanumeric c
      · have hstep : step ⟨.word, cur, [], tags, done⟩ c = ⟨.word, cur ++ [c], [], tags, done⟩ := by
          simp [step, ht, hc, push]
        simpa [hstep] using ih hcs' hlast' (cur ++ [c]) [] tags done (.inl rfl)
      · have hstep : step ⟨.word, cur, [], tags, done⟩ c = ⟨.held, cur, [c], tags, done⟩ := by
          simp [step, ht, hc]
        simpa [hstep] using ih hcs' hlast' cur [c] tags done (.inr (hmore (by simpa using hc)))
    · by_cases hc : isAlphanumeric c
      · have hstep : step ⟨.held, cur, held, tags, done⟩ c =
            ⟨.word, cur ++ held ++ [c], [], tags, done⟩ := by
          simp [step, ht, hc, push]
        simpa [hh, hstep] using ih hcs' hlast' (cur ++ held ++ [c]) [] tags done (.inl rfl)
      · have hstep : step ⟨.held, cur, held, tags, done⟩ c = ⟨.held, cur, held ++ [c], tags, done⟩ := by
          simp [step, ht, hc, hq]
        simpa [hh, hstep] using ih hcs' hlast' cur (held ++ [c]) tags done
          (.inr (hmore (by simpa using hc)))

/-- A plain word read between spans finishes the pending punctuation and is then the span being
built. -/
theorem tokensAfter_between_word {P : List Char} {tags : List Tag} (hP : P = [] → tags = [])
    {w : String} (hw : Plain w) (rest : List Char) :
    (between P tags).tokensAfter (w.toList ++ rest) =
      pending P tags ++ (inWord w.toList).tokensAfter rest := by
  obtain ⟨c, cs, hwc, hc⟩ := hw.head
  have hfirst : (between P tags).step c = (inWord [c]).prepend (pending P tags) := by
    by_cases hPe : P = []
    · subst hPe
      simp [between, step, hc, emit, tag, push, hP rfl, inWord, prepend, pending]
    · simp [between, step, hc, emit, hPe, tag, push, inWord, prepend, pending]
  have hrest : cs.foldl step (inWord [c]) = inWord (c :: cs) := by
    have := foldl_step_wordRest cs (fun d hd => hw.inner d (by simp [hwc, hd]))
      (by intro d hd; apply hw.last; cases cs <;> simp_all) [c] [] [.scalar] [] (.inl rfl)
    simpa [inWord] using this
  rw [hwc, List.cons_append, tokensAfter_cons, hfirst, tokensAfter_prepend, tokensAfter_append,
    hrest]

/-- A terminator after a word finishes the word; `:` starts mapping punctuation. -/
theorem tokensAfter_inWord_terminator {w : List Char} (hw : w ≠ []) {t : Char}
    (ht : t = ':' ∨ t = ',' ∨ t = ']' ∨ t = '}') (rest : List Char) :
    (inWord w).tokensAfter (t :: rest) =
      ⟨String.ofList w, [.scalar]⟩ ::
        (between [t] (if t = ':' then [.mapping] else [])).tokensAfter rest := by
  have hstep : (inWord w).step t =
      (between [t] (if t = ':' then [.mapping] else [])).prepend [⟨String.ofList w, [.scalar]⟩] := by
    rcases ht with rfl | rfl | rfl | rfl <;>
      simp [inWord, step, isTerminator, emit, hw, afterWord, tag, push, between, prepend]
  rw [tokensAfter_cons, hstep, tokensAfter_prepend]
  rfl

/-- Punctuation and white space read between spans join the pending punctuation, with their
tags. -/
theorem tokensAfter_between_inert (Q : List Char) (hQ : ∀ c ∈ Q, Inert c) :
    ∀ (P : List Char) (tags : List Tag) (rest : List Char),
      (between P tags).tokensAfter (Q ++ rest) =
        (between (P ++ Q) (tags ++ Q.filterMap punctuationTag?)).tokensAfter rest := by
  induction Q with
  | nil => intro P tags rest; simp
  | cons c Q ih =>
    intro P tags rest
    obtain ⟨ha, hq, hh⟩ := hQ c (by simp)
    have hstep : (between P tags).step c =
        between (P ++ [c]) (tags ++ (punctuationTag? c).toList) := by
      cases ht : punctuationTag? c <;> simp [between, step, ha, hq, hh, ht, tag, push]
    rw [List.cons_append, tokensAfter_cons, hstep, ih (fun d hd => hQ d (by simp [hd]))]
    cases ht : punctuationTag? c <;> simp [ht]

/-- Between spans, the end of the line finishes the pending punctuation. -/
theorem tokensAfter_between_nil (P : List Char) (tags : List Tag) :
    (between P tags).tokensAfter [] = pending P tags := by
  by_cases hP : P = [] <;> simp [between, finish, emit, hP, pending]

theorem foldl_step_comment (cs : List Char) :
    ∀ (cur : List Char) (tags : List Tag) (done : List Token),
      cs.foldl step ⟨.comment, cur, [], tags, done⟩ = ⟨.comment, cur ++ cs, [], tags, done⟩ := by
  induction cs with
  | nil => simp
  | cons c cs ih =>
    intro cur tags done
    rw [List.foldl_cons, show step ⟨.comment, cur, [], tags, done⟩ c = ⟨.comment, cur ++ [c], [], tags, done⟩
      from rfl, ih]
    simp

/-- Between spans, a comment finishes the pending punctuation and runs to the end of the line. -/
theorem tokensAfter_between_comment {P : List Char} (hP : P ≠ []) (tags : List Tag)
    (rest : List Char) :
    (between P tags).tokensAfter ('#' :: rest) =
      [⟨String.ofList P, tags⟩, ⟨String.ofList ('#' :: rest), [.comment]⟩] := by
  have ha : isAlphanumeric '#' = false := by decide
  have hstep : (between P tags).step '#' =
      ⟨.comment, ['#'], [], [.comment], [⟨String.ofList P, tags⟩]⟩ := by
    simp [between, step, emit, hP, tag, push, ha, isQuote]
  rw [tokensAfter_cons, hstep, tokensAfter, foldl_step_comment]
  simp [finish, emit]

/-- An entry read between spans, up to the punctuation that ends it, finishes the pending
punctuation and the entry's tokens. -/
theorem tokensAfter_entry {P : List Char} (hP : P ≠ []) (tags : List Tag) {e : FlowEntry}
    (he : e.Plain) {t : Char} (ht : t = ',' ∨ t = ']' ∨ t = '}') (rest : List Char) :
    (between P tags).tokensAfter ((Token.join e.tokens).toList ++ t :: rest) =
      ⟨String.ofList P, tags⟩ :: e.tokens ++ (between [t] []).tokensAfter rest := by
  have hne : t ≠ ':' := by rcases ht with rfl | rfl | rfl <;> decide
  have hpend : pending P tags = [⟨String.ofList P, tags⟩] := by simp [pending, hP]
  cases hv : e.value with
  | none =>
    have hj : (Token.join e.tokens).toList = e.key.toList := by
      simp [FlowEntry.tokens, hv, Token.join]
    rw [hj, tokensAfter_between_word (fun h => absurd h hP) he.1, hpend,
      tokensAfter_inWord_terminator he.1.ne_nil (.inr ht), if_neg hne]
    simp [FlowEntry.tokens, hv]
  | some v =>
    have hvp : Plain v := he.2 v hv
    have hj : (Token.join e.tokens).toList ++ t :: rest =
        e.key.toList ++ ':' :: ([' '] ++ (v.toList ++ t :: rest)) := by
      simp [FlowEntry.tokens, hv, Token.join]
    rw [hj, tokensAfter_between_word (fun h => absurd h hP) he.1, hpend,
      tokensAfter_inWord_terminator he.1.ne_nil (.inl rfl), if_pos rfl,
      tokensAfter_between_inert [' '] (by simpa using inert_space),
      tokensAfter_between_word (by simp) hvp, tokensAfter_inWord_terminator hvp.ne_nil (.inr ht),
      if_neg hne]
    have hsp : punctuationTag? ' ' = none := rfl
    simp [FlowEntry.tokens, hv, pending, hsp]

/-- The entries of a collection read between spans, up to its closer, finish the pending
punctuation, the entries' tokens and the separators between them. -/
theorem tokensAfter_entries (front : List (FlowEntry × Bool)) {last : FlowEntry}
    (hfront : ∀ p ∈ front, p.1.Plain) (hlast : last.Plain) {t : Char} (ht : t = ']' ∨ t = '}') :
    ∀ {P : List Char}, P ≠ [] → ∀ (tags : List Tag) (rest : List Char),
      (between P tags).tokensAfter
          ((Token.join (leadingTokens front ++ last.tokens)).toList ++ t :: rest) =
        ⟨String.ofList P, tags⟩ :: (leadingTokens front ++ last.tokens) ++
          (between [t] []).tokensAfter rest := by
  induction front with
  | nil =>
    intro P hP tags rest
    simpa [leadingTokens] using tokensAfter_entry hP tags hlast (.inr ht) rest
  | cons p front ih =>
    intro P hP tags rest
    have hj : (Token.join (leadingTokens (p :: front) ++ last.tokens)).toList ++ t :: rest =
        (Token.join p.1.tokens).toList ++ ',' ::
          ([' '] ++ ((Token.join (leadingTokens front ++ last.tokens)).toList ++ t :: rest)) := by
      simp [leadingTokens, Token.join, separator]
    have hsp : punctuationTag? ' ' = none := rfl
    rw [hj, tokensAfter_entry hP tags (hfront p (by simp)) (.inl rfl),
      tokensAfter_between_inert [' '] (by simpa using inert_space),
      ih (fun q hq => hfront q (by simp [hq])) (by simp)]
    simp [leadingTokens, hsp, separator]

end State

/-- A line holding a flow collection as the value of a key: `key: [body]`, indented by spaces, with
spaces and perhaps a comment after the closer. -/
def flowLineText (indent : Nat) (key : String) (opener : Char) (body : String) (closer : Char)
    (spaces : Nat) (comment : String) : String :=
  String.ofList (List.replicate indent ' ') ++ key ++ ": " ++ String.singleton opener ++ body ++
    String.singleton closer ++ String.ofList (List.replicate spaces ' ') ++ comment

/-- The tokens in front of the collection on such a line: the indentation and the key. -/
def flowLineHead (indent : Nat) (key : String) : List Token :=
  (if indent = 0 then [] else [⟨String.ofList (List.replicate indent ' '), []⟩]) ++
    [⟨key, [.scalar]⟩]

/-- The token of `: ` and the opener. -/
def openerToken (opener : Char) : Token :=
  ⟨String.ofList [':', ' ', opener], [.mapping, if opener = '[' then .sequence else .mapping]⟩

/-- The token of the closer and the spaces after it. -/
def closerToken (closer : Char) (spaces : Nat) : Token :=
  ⟨String.ofList (closer :: List.replicate spaces ' '), []⟩

/-- The comment at the end of the line, if there is one. -/
def commentTokens (comment : String) : List Token :=
  if comment = "" then [] else [⟨comment, [.comment]⟩]

/-- The tokens of such a line, given those of the entries with their separators. -/
def flowLineTokens (indent : Nat) (key : String) (opener : Char) (entries : List Token)
    (closer : Char) (spaces : Nat) (comment : String) : List Token :=
  flowLineHead indent key ++ [openerToken opener] ++ entries ++
    closerToken closer spaces :: commentTokens comment

/-- The token index of the first entry of such a line. -/
def firstEntryIndex (indent : Nat) : Nat :=
  (if indent = 0 then 0 else 1) + 2

theorem length_flowLineHead (indent : Nat) (key : String) :
    (flowLineHead indent key).length + 1 = firstEntryIndex indent := by
  unfold flowLineHead firstEntryIndex
  split <;> simp

/-- The key is the last token in front of the collection. -/
theorem getElem?_flowLineHead (indent : Nat) (key : String) (rest : List Token) :
    (flowLineHead indent key ++ rest)[(flowLineHead indent key).length - 1]? =
      some ⟨key, [.scalar]⟩ := by
  unfold flowLineHead
  split <;> simp

/-- The tokens of such a line spell it. -/
theorem join_flowLineTokens (indent : Nat) (key : String) (opener : Char) (entries : List Token)
    (closer : Char) (spaces : Nat) (comment : String) :
    Token.join (flowLineTokens indent key opener entries closer spaces comment) =
      flowLineText indent key opener (Token.join entries) closer spaces comment := by
  have hhead : Token.join (flowLineHead indent key) =
      String.ofList (List.replicate indent ' ') ++ key := by
    unfold flowLineHead
    split <;> simp_all [Token.join]
  have hcomment : Token.join (commentTokens comment) = comment := by
    unfold commentTokens
    split <;> simp_all [Token.join]
  simp only [flowLineTokens, Token.join, List.map_append, List.map_cons, String.join_append,
    String.join_cons] at hhead hcomment ⊢
  rw [hhead, hcomment, ← String.toList_inj]
  simp [flowLineText, openerToken, closerToken]

/-- The entries joined by `, ` spell the tokens of the entries and separators. -/
theorem join_leadingTokens (front : List (FlowEntry × Bool)) (last : FlowEntry) :
    Token.join (leadingTokens front ++ last.tokens) =
      ", ".intercalate ((front.map Prod.fst ++ [last]).map FlowEntry.text) := by
  induction front with
  | nil => simp [leadingTokens, FlowEntry.text]
  | cons p front ih =>
    rw [List.map_cons, List.cons_append, List.map_cons,
      String.intercalate_cons_of_ne_nil (by simp), ← ih]
    simp [leadingTokens, Token.join, FlowEntry.text, separator, String.join_append,
      String.append_assoc]

/-- A flat flow collection as the value of a key lexes as its pieces. -/
theorem lex_flowLine (indent : Nat) {key : String} (hkey : Plain key) {opener : Char}
    (ho : opener = '[' ∨ opener = '{') (front : List (FlowEntry × Bool)) {last : FlowEntry}
    (hfront : ∀ p ∈ front, p.1.Plain) (hlast : last.Plain) {closer : Char}
    (hc : closer = ']' ∨ closer = '}') (spaces : Nat) {comment : String}
    (hcomment : comment = "" ∨ comment.toList.head? = some '#') :
    lex (flowLineText indent key opener
        (", ".intercalate ((front.map Prod.fst ++ [last]).map FlowEntry.text)) closer spaces comment) =
      flowLineTokens indent key opener (leadingTokens front ++ last.tokens) closer spaces
        comment := by
  have hspaces : ∀ n, ∀ c ∈ List.replicate n ' ', Inert c := by
    intro n c hc
    rw [List.eq_of_mem_replicate hc]
    exact inert_space
  have hblank : ∀ n, (List.replicate n ' ').filterMap punctuationTag? = [] := by
    intro n
    have hsp : punctuationTag? ' ' = none := rfl
    simp [hsp]
  have hinert : ∀ c ∈ [' ', opener], Inert c := by
    rcases ho with rfl | rfl <;> simp [Inert] <;> decide
  have hline : (flowLineText indent key opener
      (", ".intercalate ((front.map Prod.fst ++ [last]).map FlowEntry.text)) closer spaces
      comment).toList = List.replicate indent ' ' ++ (key.toList ++ ':' :: ([' ', opener] ++
        ((Token.join (leadingTokens front ++ last.tokens)).toList ++ closer ::
          (List.replicate spaces ' ' ++ comment.toList)))) := by
    rw [← join_leadingTokens]
    simp [flowLineText]
  have hne : flowLineText indent key opener
      (", ".intercalate ((front.map Prod.fst ++ [last]).map FlowEntry.text)) closer spaces comment ≠
      "" := by
    intro h
    have := congrArg String.toList h
    rw [hline] at this
    simp at this
  rw [State.lex_eq_tokensAfter hne, hline, show ({} : State) = State.between [] [] from rfl,
    State.tokensAfter_between_inert _ (hspaces indent), hblank,
    State.tokensAfter_between_word (by simp) hkey,
    State.tokensAfter_inWord_terminator hkey.ne_nil (.inl rfl), if_pos rfl,
    State.tokensAfter_between_inert _ hinert,
    State.tokensAfter_entries front hfront hlast hc (by simp),
    State.tokensAfter_between_inert _ (hspaces spaces), hblank]
  have hopen : [' ', opener].filterMap punctuationTag? =
      [if opener = '[' then .sequence else .mapping] := by
    rcases ho with rfl | rfl <;> rfl
  have hpend : State.pending (List.replicate indent ' ') [] =
      if indent = 0 then [] else [⟨String.ofList (List.replicate indent ' '), []⟩] := by
    cases indent <;> simp [State.pending]
  simp only [List.nil_append, hpend, hopen, String.ofList_toList, List.singleton_append]
  rcases hcomment with rfl | hc
  · rw [String.toList_empty, State.tokensAfter_between_nil]
    simp [State.pending, flowLineTokens, flowLineHead, openerToken, closerToken, commentTokens]
  · obtain ⟨rest, hrest⟩ : ∃ rest, comment.toList = '#' :: rest := by
      cases h : comment.toList with
      | nil => simp [h] at hc
      | cons a rest => simp_all
    have hne : comment ≠ "" := by
      rintro rfl
      simp at hrest
    rw [hrest, State.tokensAfter_between_comment (by simp)]
    simp [flowLineTokens, flowLineHead, openerToken, closerToken, commentTokens, hne, ← hrest]

end Lexer

end YamlEdit
