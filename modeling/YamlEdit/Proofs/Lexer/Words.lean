import YamlEdit.Proofs.Lexer
import YamlEdit.Text.WhiteSpace

/-!
# Renaming words keeps the lexing

A word is an unquoted scalar token: it starts on an alphanumeric character. Replacing words of a
line by other alphanumeric words and lexing the line again gives back the same tokens, with the
new texts in place of the old ones.

The lexer decides where a token ends from the characters after it, so the proof has to locate
the state the lexer is in when it reaches a word. Three facts of a run do that work:

* finished tokens are never taken back (`tokensAfter_eq_done_append`), and the span being built
  is the start of the next token to be finished (`tokensAfter_pending`);
* an alphanumeric character read inside a span joins that span (`step_alnum_inside`), so a token
  that starts on such a character was started between spans, where the lexer begins afresh
  (`afterTokens_before_word`);
* a word is finished before any further character joins it, and from there on the run does not
  look at its text (`Swapped.tokensAfter`).

The main statement is `lex_retextAt`.
-/

namespace YamlEdit.Lexer

open YamlEdit.Text

/-- No alphanumeric character is white space. -/
theorem isWhiteSpace_eq_false_of_isAlphanumeric {c : Char} (h : isAlphanumeric c) :
    isWhiteSpace c = false := by
  have hranges : whiteSpaceRanges.all fun r =>
      (List.range (r.2 + 1 - r.1)).all fun k => !inRanges (r.1 + k) alphanumericRanges := by
    decide +kernel
  rw [isWhiteSpace, List.any_eq_false]
  intro r hr hin
  simp only [Bool.and_eq_true, decide_eq_true_eq] at hin
  have hk := List.all_eq_true.1 (List.all_eq_true.1 hranges r hr) (c.toNat - r.1)
    (List.mem_range.2 (by omega))
  rw [Nat.add_sub_cancel' hin.1] at hk
  simp only [isAlphanumeric] at h
  simp [h] at hk

theorem isTerminator_eq_false {c : Char} (h : isAlphanumeric c) : isTerminator c = false := by
  simp only [isTerminator, Bool.or_eq_false_iff, beq_eq_false_iff_ne, ne_eq]
  refine ⟨⟨⟨⟨?_, ?_⟩, ?_⟩, ?_⟩, ?_⟩ <;> rintro rfl <;> revert h <;> decide

theorem isQuote_eq_false {c : Char} (h : isAlphanumeric c) : isQuote c = false := by
  simp only [isQuote, Bool.or_eq_false_iff, beq_eq_false_iff_ne, ne_eq]
  refine ⟨?_, ?_⟩ <;> rintro rfl <;> revert h <;> decide

@[simp] theorem toList_join_cons (t : Token) (ts : List Token) :
    (Token.join (t :: ts)).toList = t.text.toList ++ (Token.join ts).toList := by
  simp [Token.join]

@[simp] theorem toList_join_append (ts us : List Token) :
    (Token.join (ts ++ us)).toList = (Token.join ts).toList ++ (Token.join us).toList := by
  simp [Token.join]

/-- Tokens with text spell nothing only when there are none. -/
theorem eq_nil_of_join {ts : List Token} (hne : ∀ t ∈ ts, t.text ≠ "")
    (h : (Token.join ts).toList = []) : ts = [] := by
  cases ts with
  | nil => rfl
  | cons t ts =>
    rw [toList_join_cons, List.append_eq_nil_iff, String.toList_eq_nil_iff] at h
    exact absurd h.1 (hne t (by simp))

namespace State

/-- The tokens a run finishes with after reading `cs` from the state `s`. -/
def tokensAfter (s : State) (cs : List Char) : List Token :=
  (cs.foldl step s).finish

@[simp] theorem tokensAfter_nil (s : State) : s.tokensAfter [] = s.finish := rfl

@[simp] theorem tokensAfter_cons (s : State) (c : Char) (cs : List Char) :
    s.tokensAfter (c :: cs) = (s.step c).tokensAfter cs := rfl

theorem tokensAfter_append (s : State) (cs ds : List Char) :
    s.tokensAfter (cs ++ ds) = (cs.foldl step s).tokensAfter ds := by
  simp [tokensAfter]

theorem lex_eq_tokensAfter {line : String} (h : line ≠ "") :
    lex line = ({} : State).tokensAfter line.toList := by
  simp [lex, tokensAfter, h]

@[simp] theorem push_done (s : State) (cs : List Char) : (s.push cs).done = s.done := rfl

@[simp] theorem push_mode (s : State) (cs : List Char) : (s.push cs).mode = s.mode := rfl

@[simp] theorem push_held (s : State) (cs : List Char) : (s.push cs).held = s.held := rfl

@[simp] theorem push_tags (s : State) (cs : List Char) : (s.push cs).tags = s.tags := rfl

@[simp] theorem push_current (s : State) (cs : List Char) :
    (s.push cs).current = s.current ++ cs := rfl

theorem emit_done (s : State) :
    s.emit.done = s.done ++ if s.current = [] then [] else [⟨String.ofList s.current, s.tags⟩] := by
  unfold emit
  split <;> simp_all

/-- A scalar opens on an alphanumeric character or a quote. -/
def OpensScalar (cs : List Char) : Prop :=
  ∃ c, cs.head? = some c ∧ (isAlphanumeric c || isQuote c) = true

@[simp] theorem opensScalar_singleton (c : Char) :
    OpensScalar [c] ↔ (isAlphanumeric c || isQuote c) = true := by
  simp [OpensScalar]

@[simp] theorem opensScalar_append {cs : List Char} (h : cs ≠ []) (ds : List Char) :
    OpensScalar (cs ++ ds) ↔ OpensScalar cs := by
  cases cs with
  | nil => exact absurd rfl h
  | cons c cs => simp [OpensScalar]

/-- Facts about spans that every state reached from the initial one keeps. -/
structure Shape (s : State) : Prop where
  /-- Only between spans can the span being built be empty. -/
  current_ne : s.mode ≠ .outside → s.current ≠ []
  /-- Characters are held back only while something is held. -/
  held_ne : s.mode = .held → s.held ≠ []
  /-- A quoted scalar closes on a quote. -/
  close_quote : ∀ q, s.mode = .quoted q → isQuote q = true
  /-- Finished tokens are not empty. -/
  done_ne : ∀ t ∈ s.done, t.text ≠ ""
  /-- A finished scalar opens as a scalar does. -/
  done_head : ∀ t ∈ s.done, .scalar ∈ t.tags → OpensScalar t.text.toList
  /-- So does a scalar being built. -/
  current_head : .scalar ∈ s.tags → OpensScalar s.current

theorem afterWord_mode_ne_held (s : State) (c : Char) : (s.afterWord c).mode ≠ .held := by
  rw [afterWord_mode]
  split <;> simp

theorem afterWord_mode_ne_quoted (s : State) (c q : Char) : (s.afterWord c).mode ≠ .quoted q := by
  rw [afterWord_mode]
  split <;> simp

theorem shape_init : ({} : State).Shape where
  current_ne h := absurd rfl h
  held_ne h := nomatch h
  close_quote _ h := nomatch h
  done_ne := by simp
  done_head := by simp
  current_head := by simp

theorem shape_step {s : State} (hw : s.Wf) (hs : s.Shape) (c : Char) : (s.step c).Shape := by
  obtain ⟨h1, h2, h3, h4, h5⟩ := hw
  obtain ⟨k1, k2, k3, k4, k5, k6⟩ := hs
  unfold step
  cases hm : s.mode with
  | outside =>
    dsimp only
    split
    · constructor <;> simp_all [push, tag, emit_done, or_imp]
    split
    · constructor <;> simp_all [push, tag, emit_done, or_imp]
    split
    · constructor <;> simp_all [push, tag, emit_done, or_imp]
    split
    · rename_i t ht
      have hne := scalar_eq_of_punctuationTag? ht
      constructor <;> simp_all [push, tag]
    · constructor <;> simp_all [push]
  | _ =>
    dsimp only
    repeat' split
    all_goals constructor <;> simp_all [-afterWord_mode, push, tag, emit_done, or_imp,
      afterWord_mode_ne_held, afterWord_mode_ne_quoted]

theorem shape_run (cs : List Char) {s : State} (hw : s.Wf) (hs : s.Shape) :
    (cs.foldl step s).Shape := by
  induction cs generalizing s with
  | nil => exact hs
  | cons c cs ih => exact ih (wf_step hw c) (shape_step hw hs c)

/-! ### Finished tokens are never read again -/

/-- The state `s` with the tokens `ts` finished before its own. -/
def prepend (ts : List Token) (s : State) : State :=
  { s with done := ts ++ s.done }

@[simp] theorem emit_prepend (ts : List Token) (s : State) :
    (s.prepend ts).emit = s.emit.prepend ts := by
  unfold emit prepend
  split <;> simp_all

@[simp] theorem tag_prepend (ts : List Token) (s : State) (t : Tag) :
    (s.prepend ts).tag t = (s.tag t).prepend ts := rfl

@[simp] theorem push_prepend (ts : List Token) (s : State) (cs : List Char) :
    (s.prepend ts).push cs = (s.push cs).prepend ts := rfl

@[simp] theorem afterWord_prepend (ts : List Token) (s : State) (c : Char) :
    (s.prepend ts).afterWord c = (s.afterWord c).prepend ts := by
  unfold afterWord
  split
  · rfl
  · split <;> rfl

theorem step_prepend (ts : List Token) (s : State) (c : Char) :
    (s.prepend ts).step c = (s.step c).prepend ts := by
  obtain ⟨m, cur, held, tags, done⟩ := s
  cases m <;> simp only [step, prepend, emit, tag, push, afterWord] <;> repeat' split
  all_goals by_cases held = [] <;> simp_all

theorem finish_prepend (ts : List Token) (s : State) : (s.prepend ts).finish = ts ++ s.finish := by
  simp only [finish, emit_prepend]
  generalize s.emit = e
  obtain ⟨m, cur, held, tags, done⟩ := e
  simp only [prepend, push, emit]
  by_cases held = [] <;> by_cases cur ++ held = [] <;> simp_all

theorem tokensAfter_prepend (ts : List Token) (s : State) (cs : List Char) :
    (s.prepend ts).tokensAfter cs = ts ++ s.tokensAfter cs := by
  induction cs generalizing s with
  | nil => exact finish_prepend ts s
  | cons c cs ih => simp only [tokensAfter_cons, step_prepend, ih]

/-- A run only appends to the tokens finished before it. -/
theorem tokensAfter_eq_done_append (s : State) (cs : List Char) :
    ∃ rest, s.tokensAfter cs = s.done ++ rest := by
  refine ⟨({ s with done := [] } : State).tokensAfter cs, ?_⟩
  rw [← tokensAfter_prepend]
  simp [prepend]

/-! ### The span being built is only ever extended or finished whole -/

/-- The state `s` building the span `cs` instead of its own. -/
def withCurrent (cs : List Char) (s : State) : State :=
  { s with current := cs }

@[simp] theorem withCurrent_current (cs : List Char) (s : State) :
    (s.withCurrent cs).current = cs := rfl

/-- Two states of runs over the same characters after the finished tokens `done` that differ
only in the text of the next token: the first has `u ++ x` where the second has `v ++ x`, while
the token is being built and after it is finished. -/
inductive Swapped (done : List Token) (u v : List Char) : State → State → Prop
  | building {m x held tags} :
      Swapped done u v ⟨m, u ++ x, held, tags, done⟩ ⟨m, v ++ x, held, tags, done⟩
  | finished {m current held tags rest x t} :
      Swapped done u v ⟨m, current, held, tags, done ++ ⟨String.ofList (u ++ x), t⟩ :: rest⟩
        ⟨m, current, held, tags, done ++ ⟨String.ofList (v ++ x), t⟩ :: rest⟩

theorem swapped_withCurrent (s : State) (v : List Char) :
    Swapped s.done s.current v s (s.withCurrent v) := by
  obtain ⟨m, current, held, tags, done⟩ := s
  simpa [withCurrent] using (Swapped.building : Swapped done current v
    ⟨m, current ++ [], held, tags, done⟩ ⟨m, v ++ [], held, tags, done⟩)

section Swap

variable {done : List Token} {u v : List Char} (hu : u ≠ []) (hv : v ≠ [])
include hu hv

/-- The step lemma: the lexer reads the text of the span being built only to see that it is
not empty. -/
theorem Swapped.step {σ σ' : State} (h : Swapped done u v σ σ') (c : Char) :
    Swapped done u v (σ.step c) (σ'.step c) := by
  -- every branch of a step either extends the span or appends to the finished tokens
  cases h with
  | building =>
    rename_i m x held tags
    cases m <;> simp only [State.step, emit, tag, push, afterWord] <;> repeat' split
    all_goals simp_all [-String.ofList_append]
    all_goals first | exact .building | exact .finished
  | finished =>
    rename_i m current held tags rest x t
    cases m <;> simp only [State.step, emit, tag, push, afterWord] <;> repeat' split
    all_goals simp_all [-String.ofList_append]
    all_goals first | exact .building | exact .finished

theorem Swapped.finish {σ σ' : State} (h : Swapped done u v σ σ') :
    ∃ x t rest, σ.finish = done ++ ⟨String.ofList (u ++ x), t⟩ :: rest ∧
      σ'.finish = done ++ ⟨String.ofList (v ++ x), t⟩ :: rest := by
  cases h with
  | building =>
    rename_i m x held tags
    simp only [State.finish, emit, push]
    by_cases held = [] <;> simp_all [-String.ofList_append] <;> exact ⟨x, rfl, rfl⟩
  | finished =>
    rename_i m current held tags rest x t
    simp only [State.finish, emit, push]
    repeat' split
    all_goals simp_all [-String.ofList_append]
    all_goals exact ⟨x, rfl, rfl⟩

/-- The run lemma: two runs that differ only in the text of the next token finish the same
tokens but for that text. -/
theorem Swapped.tokensAfter {σ σ' : State} (h : Swapped done u v σ σ') (cs : List Char) :
    ∃ x t rest, σ.tokensAfter cs = done ++ ⟨String.ofList (u ++ x), t⟩ :: rest ∧
      σ'.tokensAfter cs = done ++ ⟨String.ofList (v ++ x), t⟩ :: rest := by
  induction cs generalizing σ σ' with
  | nil => exact Swapped.finish hu hv h
  | cons c cs ih => exact ih (h.step hu hv c)

end Swap

/-- A run finishes the span being built as the start of its next token, and would finish any
other non-empty text in its place the same way. -/
theorem tokensAfter_withCurrent {s : State} (hs : s.current ≠ []) {v : List Char} (hv : v ≠ [])
    (cs : List Char) :
    ∃ x t rest, s.tokensAfter cs = s.done ++ ⟨String.ofList (s.current ++ x), t⟩ :: rest ∧
      (s.withCurrent v).tokensAfter cs = s.done ++ ⟨String.ofList (v ++ x), t⟩ :: rest :=
  (swapped_withCurrent s v).tokensAfter hs hv cs

/-- The span being built is the start of the next token a run finishes. -/
theorem tokensAfter_pending {s : State} (hs : s.current ≠ []) (cs : List Char) :
    ∃ x t rest, s.tokensAfter cs = s.done ++ ⟨String.ofList (s.current ++ x), t⟩ :: rest :=
  let ⟨x, t, rest, h, _⟩ := tokensAfter_withCurrent hs hs cs
  ⟨x, t, rest, h⟩

/-- A finished token is a token the run finishes. -/
theorem tokensAfter_of_done {s : State} {done extra : List Token} {t : Token}
    (hd : s.done = done ++ t :: extra) (cs : List Char) :
    ∃ rest, s.tokensAfter cs = done ++ t :: rest := by
  obtain ⟨more, hmore⟩ := tokensAfter_eq_done_append s cs
  exact ⟨extra ++ more, by simp [hmore, hd]⟩

theorem token_eq_of_done {s : State} {done rest extra : List Token} {t t' : Token}
    (hd : s.done = done ++ t :: extra) {cs : List Char}
    (h : s.tokensAfter cs = done ++ t' :: rest) : t' = t := by
  obtain ⟨more, hmore⟩ := tokensAfter_of_done hd cs
  rw [h] at hmore
  exact (List.cons.inj (List.append_cancel_left hmore)).1

theorem emit_done_of_ne {s : State} (h : s.current ≠ []) :
    s.emit.done = s.done ++ [⟨String.ofList s.current, s.tags⟩] := by
  simp [emit_done, h]

@[simp] theorem push_push (s : State) (cs ds : List Char) : (s.push cs).push ds = s.push (cs ++ ds) := by
  simp [push]

/-! ### Where a word starts -/

/-- Inside a span, an alphanumeric character joins the span, after whatever was held back. -/
theorem step_alnum_inside {s : State} (hw : s.Wf) (hs : s.Shape) (hm : s.mode ≠ .outside) {c : Char}
    (hc : isAlphanumeric c) :
    (s.step c).done = s.done ∧ (s.step c).current = s.current ++ s.held ++ [c] := by
  have hq := isQuote_eq_false hc
  unfold step
  cases hmode : s.mode with
  | outside => exact absurd hmode hm
  | held => simp [isTerminator_eq_false hc, hc, push]
  | word => simp [isTerminator_eq_false hc, hc, push, hw.held_nil (by simp [hmode])]
  | quoted q =>
    have hqc : (q == c) = false := by
      have := hs.close_quote q hmode
      simp only [beq_eq_false_iff_ne]
      rintro rfl
      simp_all
    simp [hqc, push, hw.held_nil (by simp [hmode])]
  | comment => simp [push, hw.held_nil (by simp [hmode])]

/-- Between spans, an alphanumeric character opens a word. -/
theorem step_outside_alnum {s : State} (hw : s.Wf) (hm : s.mode = .outside) {c : Char}
    (hc : isAlphanumeric c) : s.step c = ⟨.word, [c], [], [.scalar], s.emit.done⟩ := by
  have hh := hw.held_nil (by simp [hm])
  unfold step
  simpa [hm, hc, push, tag, hh] using hw.tags_nil

/-- Alphanumeric characters extend a word. -/
theorem foldl_step_word {cs : List Char} (hcs : ∀ c ∈ cs, isAlphanumeric c) {s : State}
    (hm : s.mode = .word) : cs.foldl step s = s.push cs := by
  induction cs generalizing s with
  | nil => simp [push]
  | cons c cs ih =>
    have hc := hcs c (by simp)
    have hstep : s.step c = s.push [c] := by
      unfold step
      simp [hm, isTerminator_eq_false hc, hc]
    rw [List.foldl_cons, hstep, ih (fun d hd => hcs d (by simp [hd])) (s := s.push [c]) (by simp [hm]),
      push_push]
    rfl

/-- What a word ends as, once characters are held back after it: the word alone, or the word
with all that was held and more. -/
theorem tokensAfter_held {s : State} (hm : s.mode = .held) (hc : s.current ≠ []) (hh : s.held ≠ [])
    (cs : List Char) :
    ∃ x t rest, s.tokensAfter cs = s.done ++ ⟨String.ofList x, t⟩ :: rest ∧
      (x = s.current ∨ s.current.length + s.held.length < x.length) := by
  induction cs generalizing s with
  | nil =>
    refine ⟨s.current, s.tags, [⟨String.ofList s.held, []⟩], ?_, .inl rfl⟩
    simp [finish, push, emit, hh, hc]
  | cons c cs ih =>
    rw [tokensAfter_cons]
    have finishes : ∀ (s' : State) extra,
        s'.done = s.done ++ ⟨String.ofList s.current, s.tags⟩ :: extra →
        ∃ x t rest, s'.tokensAfter cs = s.done ++ ⟨String.ofList x, t⟩ :: rest ∧
          (x = s.current ∨ s.current.length + s.held.length < x.length) := by
      intro s' extra hd
      obtain ⟨more, hmore⟩ := tokensAfter_eq_done_append s' cs
      exact ⟨s.current, s.tags, extra ++ more, by simp [hmore, hd], .inl rfl⟩
    unfold step
    simp only [hm]
    split
    · exact finishes _ [] (by simp [emit_done_of_ne hc])
    split
    · obtain ⟨x, t, rest, h⟩ := tokensAfter_pending (s := ({ s with mode := .word, held := [] } : State).push
        (s.held ++ [c])) (by simp [push, hc]) cs
      refine ⟨_, t, rest, h, .inr ?_⟩
      simp [push]
    split
    · exact finishes _ [⟨String.ofList s.held, []⟩] (by simp [emit, push, hh, hc])
    · obtain ⟨x, t, rest, h, hx⟩ :=
        ih (s := { s with mode := .held, held := s.held ++ [c] }) rfl hc (by simp)
      refine ⟨x, t, rest, h, ?_⟩
      dsimp only at hx
      rcases hx with rfl | hx
      · exact .inl rfl
      · simp only [List.length_append, List.length_singleton] at hx
        exact .inr (by omega)

/-- A run that finishes a word as `current ++ held ++ y` reads `y` as part of the word: the word
absorbs everything held back and ends up in the word mode again. -/
theorem foldl_step_word_rest {s : State}
    (hm : s.mode = .word ∧ s.held = [] ∨ s.mode = .held ∧ s.held ≠ []) (hc : s.current ≠ [])
    {y cs : List Char} {t : List Tag} {rest : List Token}
    (h : s.tokensAfter (y ++ cs) = s.done ++ ⟨String.ofList (s.current ++ s.held ++ y), t⟩ :: rest) :
    y.foldl step s = ⟨.word, s.current ++ s.held ++ y, [], s.tags, s.done⟩ := by
  induction y generalizing s with
  | nil =>
    rcases hm with ⟨hm, hh⟩ | ⟨hm, hh⟩
    · obtain ⟨m, current, held, tags, done⟩ := s
      simp_all
    · obtain ⟨x, t', rest', h', hx⟩ := tokensAfter_held hm hc hh cs
      rw [List.nil_append, h'] at h
      have hxe : x = s.current ++ s.held := by
        simpa [-String.ofList_append, String.ofList_inj] using congrArg Token.text (List.cons.inj (List.append_cancel_left h)).1
      subst hxe
      rcases hx with hx | hx
      · exact absurd (List.append_right_eq_self.1 hx) hh
      · simp at hx
  | cons a y ih =>
    -- a word that is finished before `a` would be shorter than the one the run finishes
    have finishes : ∀ extra, (s.step a).done = s.done ++ ⟨String.ofList s.current, s.tags⟩ :: extra → False := by
      intro extra hd
      have := token_eq_of_done hd h
      simp only [Token.mk.injEq, String.ofList_inj] at this
      have := congrArg List.length this.1
      simp at this
    rw [List.cons_append, tokensAfter_cons] at h
    rw [List.foldl_cons]
    rcases hm with ⟨hm, hh⟩ | ⟨hm, hh⟩
    · by_cases ht : isTerminator a
      · exact (finishes [] (by simp [step, hm, ht, emit_done_of_ne hc])).elim
      by_cases hal : isAlphanumeric a
      · have hstep : s.step a = s.push [a] := by simp [step, hm, ht, hal]
        rw [hstep] at h ⊢
        have := ih (s := s.push [a]) (.inl ⟨by simp [hm], by simp [hh]⟩) (by simp [push, hc])
          (by simpa [push, hh, -String.ofList_append] using h)
        simpa [push, hh] using this
      · have hstep : s.step a = { s with mode := .held, held := [a] } := by simp [step, hm, ht, hal, hh]
        rw [hstep] at h ⊢
        have := ih (s := { s with mode := .held, held := [a] }) (.inr ⟨rfl, by simp⟩) hc
          (by simpa [hh, -String.ofList_append] using h)
        simpa [hh] using this
    · by_cases ht : isTerminator a
      · exact (finishes [] (by simp [step, hm, ht, emit_done_of_ne hc])).elim
      by_cases hal : isAlphanumeric a
      · have hstep : s.step a = ({ s with mode := .word, held := [] } : State).push (s.held ++ [a]) := by
          simp [step, hm, ht, hal]
        rw [hstep] at h ⊢
        have := ih (s := ({ s with mode := .word, held := [] } : State).push (s.held ++ [a]))
          (.inl ⟨by simp [push], by simp [push]⟩) (by simp [push, hc])
          (by simpa [push, -String.ofList_append] using h)
        simpa [push] using this
      by_cases hq : isQuote a
      · exact (finishes [⟨String.ofList s.held, []⟩] (by simp [step, hm, ht, hal, hq, emit, push, hh, hc])).elim
      · have hstep : s.step a = { s with held := s.held ++ [a] } := by simp [step, hm, ht, hal, hq]
        rw [hstep] at h ⊢
        have := ih (s := { s with held := s.held ++ [a] }) (.inr ⟨hm, by simp⟩) hc
          (by simpa [-String.ofList_append] using h)
        simpa using this

/-! ### The state in front of a word -/

theorem finish_tokens {s : State} (hw : s.Wf) (hs : s.Shape) :
    ∀ t ∈ s.finish, t.text ≠ "" ∧ (.scalar ∈ t.tags → OpensScalar t.text.toList) := by
  have he := hw.emit
  have hdone : ∀ t ∈ s.emit.done, t.text ≠ "" ∧ (.scalar ∈ t.tags → OpensScalar t.text.toList) := by
    intro t ht
    rw [mem_emit_done] at ht
    rcases ht with ht | ⟨hc, rfl⟩
    · exact ⟨hs.done_ne t ht, hs.done_head t ht⟩
    · exact ⟨by simpa using hc, by simpa using hs.current_head⟩
  unfold finish
  dsimp only
  split
  · exact hdone
  · rename_i hh
    intro t ht
    rw [mem_emit_done] at ht
    rcases ht with ht | ⟨hc, rfl⟩
    · exact hdone t ht
    · refine ⟨by simpa [push] using hc, fun hsc => ?_⟩
      simp only [push, emit_tags s hw] at hsc
      simp at hsc

end State

/-- The tokens of a line with text have text, and a scalar among them opens as a scalar does. -/
theorem lex_tokens {line : String} (hl : line ≠ "") :
    ∀ t ∈ lex line, t.text ≠ "" ∧ (.scalar ∈ t.tags → State.OpensScalar t.text.toList) := by
  rw [State.lex_eq_tokensAfter hl]
  have hrun := State.run line.toList {} State.wf_init
  exact State.finish_tokens hrun.1 (State.shape_run _ State.wf_init State.shape_init)

/-- A scalar token of any line opens as a scalar does. -/
theorem lex_scalar_opens {line : String} {t : Token} (ht : t ∈ lex line) (hs : .scalar ∈ t.tags) :
    State.OpensScalar t.text.toList := by
  by_cases hl : line = ""
  · subst hl
    have h0 : lex "" = [⟨"", []⟩] := rfl
    rw [h0, List.mem_singleton] at ht
    subst ht
    simp at hs
  · exact (lex_tokens hl t ht).2 hs

/-- A scalar's text is not blank: it opens on an alphanumeric character or a quote. -/
theorem isBlank_of_opensScalar {cs : List Char} (h : State.OpensScalar cs) :
    Text.isBlank cs = false := by
  obtain ⟨c, hc, hopen⟩ := h
  obtain ⟨rest, rfl⟩ : ∃ rest, cs = c :: rest := by
    cases cs with
    | nil => cases hc
    | cons a rest => exact ⟨rest, by simpa using hc⟩
  have hwhite : isWhiteSpace c = false := by
    rcases Bool.or_eq_true_iff.1 hopen with ha | hq
    · exact isWhiteSpace_eq_false_of_isAlphanumeric ha
    · simp only [isQuote, Bool.or_eq_true, beq_iff_eq] at hq
      rcases hq with rfl | rfl <;> decide
  simp [Text.isBlank, hwhite]

/-- The state of a run over the text of the tokens `ts`. -/
def afterTokens (ts : List Token) : State :=
  (Token.join ts).toList.foldl State.step {}

theorem afterTokens_wf (ts : List Token) : (afterTokens ts).Wf :=
  (State.run _ {} State.wf_init).1

theorem afterTokens_shape (ts : List Token) : (afterTokens ts).Shape :=
  State.shape_run _ State.wf_init State.shape_init

theorem afterTokens_read (ts : List Token) : (afterTokens ts).read = (Token.join ts).toList := by
  rw [afterTokens, (State.run (Token.join ts).toList {} State.wf_init).2]
  simp [State.read, Token.join]

theorem tokensAfter_afterTokens {line : String} (hl : line ≠ "") {pre rest : List Token}
    (hT : lex line = pre ++ rest) :
    (afterTokens pre).tokensAfter (Token.join rest).toList = pre ++ rest := by
  have hline : line.toList = (Token.join pre).toList ++ (Token.join rest).toList := by
    rw [← toList_join_append, ← hT, join_lex]
  rw [afterTokens, ← State.tokensAfter_append, ← hline, ← State.lex_eq_tokensAfter hl, hT]

/-- A token of a line that starts on an alphanumeric character is a word opened between spans:
the run over the tokens in front of it stands between spans, with nothing held back, and has
finished exactly those tokens once it finishes its span. -/
theorem afterTokens_before_word {line : String} (hl : line ≠ "") {pre rest : List Token} {t : Token}
    (hT : lex line = pre ++ t :: rest) {a : Char} (ha : t.text.toList.head? = some a)
    (hal : isAlphanumeric a) :
    (afterTokens pre).mode = .outside ∧ (afterTokens pre).held = [] ∧
      (afterTokens pre).emit.done = pre := by
  obtain ⟨y, hy⟩ : ∃ y, t.text.toList = a :: y := by
    cases h : t.text.toList with
    | nil => simp [h] at ha
    | cons b y => simp_all
  have hne : ∀ u ∈ lex line, u.text ≠ "" := fun u hu => (lex_tokens hl u hu).1
  have hpre_ne : ∀ u ∈ pre, u.text ≠ "" := fun u hu => hne u (by simp [hT, hu])
  have hw := afterTokens_wf pre
  have hs := afterTokens_shape pre
  have hread := afterTokens_read pre
  have hall := tokensAfter_afterTokens hl hT
  rw [toList_join_cons, hy, List.cons_append, State.tokensAfter_cons] at hall
  generalize afterTokens pre = s at hw hs hread hall ⊢
  obtain ⟨E, hE⟩ := State.tokensAfter_eq_done_append s (a :: (y ++ (Token.join rest).toList))
  rw [State.tokensAfter_cons, hall] at hE
  have hmore_ne : ∀ more, pre = s.done ++ more → ∀ u ∈ more, u.text ≠ "" :=
    fun more h u hu => hpre_ne u (by simp [h, hu])
  -- the run has finished some of the tokens in front of the word, `pre = s.done ++ more`, and
  -- `more` spells the span being built and what is held back
  obtain ⟨more, hmore⟩ : ∃ more, pre = s.done ++ more := by
    rcases List.append_eq_append_iff.1 hE with ⟨a', hd, ht⟩ | ⟨c', hc', -⟩
    · cases a' with
      | nil => exact ⟨[], by simp [hd]⟩
      | cons t' a'' =>
        obtain ⟨rfl, -⟩ := List.cons.inj ht
        have hlen := congrArg List.length hread
        simp [State.read, hd, hy] at hlen
    · exact ⟨c', hc'⟩
  have hspell : (Token.join more).toList = s.current ++ s.held := by
    rw [hmore, toList_join_append, State.read, List.append_assoc] at hread
    exact (List.append_cancel_left hread).symm
  have hrun : (s.step a).tokensAfter (y ++ (Token.join rest).toList) = s.done ++ (more ++ t :: rest) := by
    rw [hall, hmore, List.append_assoc]
  by_cases hm : s.mode = .outside
  · have hh : s.held = [] := hw.held_nil (by simp [hm])
    refine ⟨hm, hh, ?_⟩
    by_cases hc : s.current = []
    · have hnil : more = [] := eq_nil_of_join (hmore_ne more hmore) (by simp [hspell, hc, hh])
      simp [State.emit, hc, hmore, hnil]
    · rw [State.step_outside_alnum hw hm hal, State.emit_done_of_ne hc] at hrun
      obtain ⟨E', hE'⟩ := State.tokensAfter_of_done (s := ⟨.word, [a], [], [.scalar], _⟩) rfl
        (y ++ (Token.join rest).toList)
      rw [hrun] at hE'
      have hcut := List.append_cancel_left hE'
      cases more with
      | nil => simp_all [Token.join]
      | cons m more' =>
        obtain ⟨rfl, -⟩ := List.cons.inj hcut
        have hnil : more' = [] := by
          refine eq_nil_of_join (fun u hu => hmore_ne _ hmore u (by simp [hu])) ?_
          simpa [hh] using hspell
        rw [State.emit_done_of_ne hc, hmore, hnil]
  · exfalso
    have hc : s.current ≠ [] := hs.current_ne hm
    obtain ⟨hd, hcur⟩ := State.step_alnum_inside hw hs hm hal
    obtain ⟨x, tg, rest', h'⟩ :=
      State.tokensAfter_pending (s := s.step a) (by simp [hcur]) (y ++ (Token.join rest).toList)
    rw [hrun, hd, hcur] at h'
    have hcut := List.append_cancel_left h'
    cases more with
    | nil => simp_all [Token.join]
    | cons m more' =>
      obtain ⟨rfl, -⟩ := List.cons.inj hcut
      have hlen := congrArg List.length hspell
      simp at hlen

/-! ### Renaming words -/

/-- The tokens `ts`, counted from `k`, with the text of those at the positions that `sel` picks
replaced by `w`. -/
def retextAt (sel : Nat → Bool) (w : String) : Nat → List Token → List Token
  | _, [] => []
  | k, t :: ts => (if sel k then { t with text := w } else t) :: retextAt sel w (k + 1) ts

@[simp] theorem length_retextAt (sel : Nat → Bool) (w : String) (k : Nat) (ts : List Token) :
    (retextAt sel w k ts).length = ts.length := by
  induction ts generalizing k with
  | nil => rfl
  | cons t ts ih => simp [retextAt, ih]

@[simp] theorem map_tags_retextAt (sel : Nat → Bool) (w : String) (k : Nat) (ts : List Token) :
    (retextAt sel w k ts).map Token.tags = ts.map Token.tags := by
  induction ts generalizing k with
  | nil => rfl
  | cons t ts ih => by_cases hk : sel k <;> simp [retextAt, hk, ih]

theorem getElem?_retextAt (sel : Nat → Bool) (w : String) :
    ∀ (k : Nat) (ts : List Token) (i : Nat),
      (retextAt sel w k ts)[i]? = ts[i]?.map fun t => if sel (k + i) then { t with text := w } else t
  | _, [], _ => rfl
  | k, t :: ts, 0 => by simp [retextAt]
  | k, t :: ts, i + 1 => by
    rw [retextAt, List.getElem?_cons_succ, getElem?_retextAt sel w (k + 1) ts i, List.getElem?_cons_succ,
      Nat.add_right_comm, Nat.add_assoc]

/-- The renamed text puts `w` in place of the picked tokens' texts. -/
theorem join_retextAt (sel : Nat → Bool) (w : String) :
    ∀ (k : Nat) (ts : List Token), Token.join (retextAt sel w k ts) =
      String.join ((ts.zipIdx k).map fun (t, i) => if sel i then w else t.text)
  | _, [] => rfl
  | k, t :: ts => by
    have := join_retextAt sel w (k + 1) ts
    simp only [Token.join] at this ⊢
    by_cases hk : sel k <;> simp [retextAt, hk, this]

theorem afterTokens_append_singleton (pre : List Token) (t : Token) :
    afterTokens (pre ++ [t]) = t.text.toList.foldl State.step (afterTokens pre) := by
  simp [afterTokens, Token.join]

section Retext

variable {line : String} {sel : Nat → Bool} {w : String} (hw : w.toList ≠ [])
  (hwa : ∀ c ∈ w.toList, isAlphanumeric c)
  (hsel : ∀ k t, (lex line)[k]? = some t → sel k = true →
    ∃ a, t.text.toList.head? = some a ∧ isAlphanumeric a)
include hw hwa hsel

/-- The run over a line whose words at the positions `sel` picks are renamed: from the state in
front of any suffix of the line's tokens, the renamed suffix lexes as itself. -/
theorem tokensAfter_retextAt (hl : line ≠ "") :
    ∀ ts pre, lex line = pre ++ ts →
      (afterTokens pre).tokensAfter (Token.join (retextAt sel w pre.length ts)).toList =
        pre ++ retextAt sel w pre.length ts := by
  intro ts
  -- induction on the suffix, from the end of the line back to its start
  induction ts with
  | nil =>
    intro pre hT
    exact tokensAfter_afterTokens hl hT
  | cons t ts ih =>
    intro pre hT
    have hT' : lex line = (pre ++ [t]) ++ ts := by simp [hT]
    have hnext := ih (pre ++ [t]) hT'
    rw [afterTokens_append_singleton, ← State.tokensAfter_append, List.length_append,
      List.length_singleton] at hnext
    simp only [retextAt, toList_join_cons]
    by_cases hk : sel pre.length
    · obtain ⟨a, ha, hal⟩ := hsel pre.length t (by simp [hT]) hk
      obtain ⟨hm, -, hdone⟩ := afterTokens_before_word hl hT ha hal
      obtain ⟨y, hy⟩ : ∃ y, t.text.toList = a :: y := by
        cases h : t.text.toList with
        | nil => simp [h] at ha
        | cons b y => simp_all
      obtain ⟨b, z, hbz⟩ : ∃ b z, w.toList = b :: z := by
        cases h : w.toList with
        | nil => exact absurd h hw
        | cons b z => exact ⟨b, z, rfl⟩
      have hwf := afterTokens_wf pre
      have hstep : ∀ c, isAlphanumeric c →
          (afterTokens pre).step c = ⟨.word, [c], [], [.scalar], pre⟩ := by
        intro c hc
        rw [State.step_outside_alnum hwf hm hc, hdone]
      have ht : t = ⟨String.ofList (a :: y), t.tags⟩ := by
        rw [← hy, String.ofList_toList]
      have hword : y.foldl State.step ((afterTokens pre).step a) = ⟨.word, a :: y, [], [.scalar], pre⟩ := by
        have hrun : (State.mk .word [a] [] [.scalar] pre).tokensAfter
            (y ++ (Token.join (retextAt sel w (pre.length + 1) ts)).toList) =
            pre ++ ⟨String.ofList ([a] ++ [] ++ y), t.tags⟩ :: retextAt sel w (pre.length + 1) ts := by
          rw [hy, List.cons_append, State.tokensAfter_cons, hstep a hal] at hnext
          rw [hnext, List.append_assoc, List.singleton_append, ht]
          rfl
        rw [hstep a hal]
        exact State.foldl_step_word_rest (.inl ⟨rfl, rfl⟩) (by simp) hrun
      have hnew : z.foldl State.step ((afterTokens pre).step b) =
          State.withCurrent w.toList ⟨.word, a :: y, [], [.scalar], pre⟩ := by
        have hz : ∀ c ∈ z, isAlphanumeric c := fun c hc => hwa c (by simp [hbz, hc])
        rw [hstep b (hwa b (by simp [hbz])), State.foldl_step_word hz rfl]
        simp [State.push, State.withCurrent, hbz]
      rw [hy, List.cons_append, State.tokensAfter_cons, State.tokensAfter_append, hword] at hnext
      obtain ⟨x, tg, rest, horig, hren⟩ := State.tokensAfter_withCurrent
        (s := ⟨.word, a :: y, [], [.scalar], pre⟩) (by simp) hw
        (Token.join (retextAt sel w (pre.length + 1) ts)).toList
      rw [horig, List.append_assoc, List.singleton_append] at hnext
      dsimp only at hnext hren
      obtain ⟨htok, hrest⟩ := List.cons.inj (List.append_cancel_left hnext)
      have hx : x = [] := by simpa [hy] using congrArg (fun u : Token => u.text.toList.length) htok
      have htg : tg = t.tags := by rw [← htok]
      rw [if_pos hk, hbz, List.cons_append, State.tokensAfter_cons, State.tokensAfter_append, hnew,
        hren, hx, hrest, htg]
      simp
    · rw [if_neg hk, hnext, List.append_assoc, List.singleton_append]

/-- Renaming words of a line to alphanumeric words keeps its lexing: the renamed line lexes as
the line's tokens with the new texts in place. -/
theorem lex_retextAt : lex (Token.join (retextAt sel w 0 (lex line))) = retextAt sel w 0 (lex line) := by
  by_cases hl : line = ""
  · subst hl
    have h0 : lex "" = [⟨"", []⟩] := rfl
    cases h : sel 0 with
    | false => simp [h0, retextAt, h, Token.join]
    | true =>
      obtain ⟨a, ha, -⟩ := hsel 0 ⟨"", []⟩ (by simp [h0]) h
      simp at ha
  · have hrun := tokensAfter_retextAt hw hwa hsel hl (lex line) [] rfl
    have hinit : afterTokens [] = {} := rfl
    rw [hinit, List.length_nil, List.nil_append] at hrun
    have hjoin : Token.join (retextAt sel w 0 (lex line)) ≠ "" := by
      intro he
      rw [he, String.toList_empty, State.tokensAfter_nil] at hrun
      have hlen := congrArg List.length hrun
      have hlex : lex line ≠ [] := by
        intro hnil
        have := join_lex line
        simp [hnil, Token.join] at this
        exact hl this
      simp [State.finish, State.emit] at hlen
      exact hlex (List.eq_nil_of_length_eq_zero hlen.symm)
    rw [State.lex_eq_tokensAfter hjoin, hrun]

end Retext

end YamlEdit.Lexer
