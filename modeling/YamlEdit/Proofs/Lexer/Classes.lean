import YamlEdit.Proofs.Lexer.Gaps

/-!
# The classes of a line's tokens

Every token the lexer cuts from a line belongs to one of five classes (`Lexeme`): a word, a
quoted scalar closed by its own quote, a quoted scalar left open, a comment, or punctuation.
A word runs from an alphanumeric character to an alphanumeric character and holds no character
that ends a word; punctuation carries only mapping and sequence tags and holds neither an
alphanumeric character nor `#`. A comment and an open quoted scalar run to the end of the line,
so only the line's last token can be one of them. In particular a `#` is always inside a quoted
scalar or the comment.

The invariant of a run, `State.Classified`, says that every finished token is a class member
that may stand anywhere on the line, and that the span being built is the start of the member
its mode builds (`State.Building`).
-/

namespace YamlEdit.Lexer

open YamlEdit.Text

/-- The text of a word, an unquoted scalar: it starts and ends on an alphanumeric character and
holds no character that ends a word. -/
def Word (cs : List Char) : Prop :=
  (∃ c ∈ cs.head?, isAlphanumeric c) ∧ (∃ c ∈ cs.getLast?, isAlphanumeric c) ∧
    ∀ c ∈ cs, isTerminator c = false

/-- The classes of the tokens of a line. The flag says whether the token may be the line's last:
a comment and a quoted scalar left open run to the end of the line. -/
inductive Lexeme : Bool → Token → Prop where
  /-- An unquoted scalar. -/
  | word {text : String} {last : Bool} : Word text.toList → Lexeme last ⟨text, [.scalar]⟩
  /-- A scalar quoted by `q`, up to the first `q` after the opening one. -/
  | quoted {q : Char} {body : List Char} {last : Bool} : isQuote q = true → q ∉ body →
      Lexeme last ⟨String.ofList (q :: body ++ [q]), [.scalar]⟩
  /-- A scalar quoted by `q` that no later `q` closes. -/
  | unclosed {q : Char} {body : List Char} : isQuote q = true → q ∉ body →
      Lexeme true ⟨String.ofList (q :: body), [.scalar]⟩
  /-- A comment. -/
  | comment {text : String} : Lexeme true ⟨text, [.comment]⟩
  /-- Punctuation and white space, tagged as mapping or sequence punctuation or not at all. -/
  | punctuation {text : String} {tags : List Tag} {last : Bool} :
      (∀ g ∈ tags, g = .mapping ∨ g = .sequence) →
      (∀ c ∈ text.toList, isAlphanumeric c = false ∧ c ≠ '#') → Lexeme last ⟨text, tags⟩

namespace Lexeme

/-- What may stand anywhere on a line may stand last. -/
theorem mono {t : Token} (h : Lexeme false t) (last : Bool) : Lexeme last t := by
  cases h with
  | word hw => exact .word hw
  | quoted hq hb => exact .quoted hq hb
  | punctuation htags hcs => exact .punctuation htags hcs

/-- A token is a scalar, a comment, or carries mapping and sequence tags only. -/
theorem tags {last : Bool} {t : Token} (h : Lexeme last t) :
    t.tags = [.scalar] ∨ t.tags = [.comment] ∨ ∀ g ∈ t.tags, g = .mapping ∨ g = .sequence := by
  cases h with
  | word | quoted | unclosed => exact .inl rfl
  | comment => exact .inr (.inl rfl)
  | punctuation htags => exact .inr (.inr htags)

/-- Only the last token of a line can be a comment. -/
theorem tags_ne_comment {t : Token} (h : Lexeme false t) : t.tags ≠ [.comment] := by
  cases h with
  | word | quoted => simp
  | punctuation htags =>
    intro hc
    have h := htags .comment (by simp only at hc; simp [hc])
    simp at h

/-- A `#` stands inside a quoted scalar or a comment. -/
theorem hash {last : Bool} {t : Token} (h : Lexeme last t) (hh : '#' ∈ t.text.toList) :
    t.tags = [.comment] ∨ t.tags = [.scalar] ∧ ∃ q, isQuote q = true ∧ t.text.toList.head? = some q := by
  cases h with
  | word hw => exact absurd (hw.2.2 '#' hh) (by decide)
  | @quoted q body _ hq => exact .inr ⟨rfl, q, hq, by simp⟩
  | @unclosed q body hq => exact .inr ⟨rfl, q, hq, by simp⟩
  | comment => exact .inl rfl
  | punctuation _ hcs => exact absurd rfl (hcs '#' hh).2

end Lexeme

/-- The tokens of a line sort into classes: each may stand where it stands. -/
def Classes (ts : List Token) : Prop :=
  (∀ t ∈ ts.dropLast, Lexeme false t) ∧ ∀ t ∈ ts.getLast?, Lexeme true t

theorem classes_of_forall {ts : List Token} (h : ∀ t ∈ ts, Lexeme false t) : Classes ts :=
  ⟨fun t ht => h t (List.dropLast_sublist _ |>.subset ht),
    fun t ht => (h t (List.mem_of_getLast? ht)).mono true⟩

theorem classes_append_singleton {ts : List Token} {t : Token} (h : ∀ u ∈ ts, Lexeme false u)
    (ht : Lexeme true t) : Classes (ts ++ [t]) := by
  refine ⟨fun u hu => ?_, fun u hu => ?_⟩
  · rw [List.dropLast_concat] at hu
    exact h u hu
  · simp only [List.getLast?_append, List.getLast?_singleton, Option.some_or, Option.mem_def,
      Option.some.injEq] at hu
    exact hu ▸ ht

theorem isAlphanumeric_eq_false_of_isTerminator {c : Char} (h : isTerminator c = true) :
    isAlphanumeric c = false := by
  cases ha : isAlphanumeric c
  · rfl
  · simp [isTerminator_eq_false ha] at h

/-- A character held back after a word is neither alphanumeric nor `#`. -/
theorem held_inert {d : Char} (h : isAlphanumeric d = false ∧ isTerminator d = false) :
    isAlphanumeric d = false ∧ d ≠ '#' := by
  refine ⟨h.1, ?_⟩
  rintro rfl
  exact absurd h.2 (by decide)

/-- Characters held back after a word, finished on their own, are untagged punctuation. -/
theorem lexeme_held {held : List Char}
    (h : ∀ c ∈ held, isAlphanumeric c = false ∧ isTerminator c = false) (last : Bool) :
    Lexeme last ⟨String.ofList held, []⟩ :=
  .punctuation (by simp) fun d hd => held_inert (h d (by simpa using hd))

theorem word_singleton {c : Char} (hc : isAlphanumeric c = true) : Word [c] :=
  ⟨⟨c, rfl, hc⟩, ⟨c, rfl, hc⟩, by simp [isTerminator_eq_false hc]⟩

/-- A word goes on through what was held back after it, up to the next alphanumeric character. -/
theorem Word.extend {cs : List Char} (hw : Word cs) (held : List Char)
    (hheld : ∀ c ∈ held, isTerminator c = false)
    {c : Char} (hc : isAlphanumeric c = true) : Word (cs ++ held ++ [c]) := by
  obtain ⟨⟨a, ha, hal⟩, -, hterm⟩ := hw
  refine ⟨⟨a, ?_, hal⟩, ⟨c, by simp, hc⟩, ?_⟩
  · obtain ⟨rest, rfl⟩ := List.head?_eq_some_iff.1 ha
    simp
  · intro d hd
    simp only [List.mem_append, List.mem_singleton] at hd
    rcases hd with (hd | hd) | rfl
    · exact hterm d hd
    · exact hheld d hd
    · exact isTerminator_eq_false hc

theorem Word.ne_nil {cs : List Char} (hw : Word cs) : cs ≠ [] := by
  rintro rfl
  obtain ⟨⟨c, hc, -⟩, -⟩ := hw
  cases hc

namespace State

/-- What the span being built holds in each mode: punctuation between spans; a word, and after
it characters held back that neither continue nor end it; the opening quote of a quoted scalar
and what follows it, without that quote; or a comment. -/
def Building (s : State) : Prop :=
  match s.mode with
  | .outside => (∀ g ∈ s.tags, g = .mapping ∨ g = .sequence) ∧
      ∀ c ∈ s.current, isAlphanumeric c = false ∧ c ≠ '#'
  | .word => s.tags = [.scalar] ∧ Word s.current
  | .held => s.tags = [.scalar] ∧ Word s.current ∧
      ∀ c ∈ s.held, isAlphanumeric c = false ∧ isTerminator c = false
  | .quoted q => s.tags = [.scalar] ∧ isQuote q = true ∧ ∃ body, s.current = q :: body ∧ q ∉ body
  | .comment => s.tags = [.comment]

/-- What a run keeps about classes: the finished tokens may stand anywhere, and the span being
built is the start of a class member. -/
structure Classified (s : State) : Prop where
  /-- Every finished token is a class member that may stand anywhere on the line. -/
  done : ∀ t ∈ s.done, Lexeme false t
  /-- The span being built is what its mode builds. -/
  building : s.Building

theorem lexeme_word {s : State} (htags : s.tags = [.scalar]) (hword : Word s.current)
    (last : Bool) : Lexeme last ⟨String.ofList s.current, s.tags⟩ :=
  htags ▸ .word (by simpa using hword)

/-- The span being built, once finished, may stand last. -/
theorem Building.lexeme {s : State} (hb : s.Building) :
    Lexeme true ⟨String.ofList s.current, s.tags⟩ := by
  unfold Building at hb
  split at hb
  · exact .punctuation hb.1 (by simpa using hb.2)
  · exact lexeme_word hb.1 hb.2 true
  · exact lexeme_word hb.1 hb.2.1 true
  · obtain ⟨htags, hq, body, hcur, hbody⟩ := hb
    rw [htags, hcur]
    exact .unclosed hq hbody
  · rw [hb]
    exact .comment

/-- Emitting a span that may stand anywhere keeps the finished tokens classified. -/
theorem done_emit {s : State} (hd : ∀ t ∈ s.done, Lexeme false t)
    (hc : s.current ≠ [] → Lexeme false ⟨String.ofList s.current, s.tags⟩) :
    ∀ t ∈ s.emit.done, Lexeme false t := by
  intro t ht
  rw [mem_emit_done] at ht
  rcases ht with ht | ⟨hne, rfl⟩
  · exact hd t ht
  · exact hc hne

theorem classified_init : ({} : State).Classified :=
  ⟨by simp, by simp [Building]⟩

/-- A terminator ends a word: `:` starts mapping punctuation, `#` a comment, and `]`, `}` and
`,` untagged punctuation, each holding what was held back and the terminator. -/
theorem building_afterWord {σ : State} {c : Char} (hc : isTerminator c = true)
    (hm : σ.mode = if c = '#' then .comment else .outside)
    (htags : σ.tags = if c = ':' then [.mapping] else if c = '#' then [.comment] else [])
    (hcur : σ.current = []) (held : List Char)
    (hheld : ∀ d ∈ held, isAlphanumeric d = false ∧ isTerminator d = false) :
    (σ.push (held ++ [c])).Building := by
  have hal := isAlphanumeric_eq_false_of_isTerminator hc
  unfold Building
  simp only [push_mode, hm, push_tags, htags, push_current, hcur, List.nil_append]
  by_cases hh : c = '#'
  · simp [hh]
  · simp only [hh, if_false]
    refine ⟨fun g hg => ?_, fun d hd => ?_⟩
    · split at hg <;> simp_all
    · simp only [List.mem_append, List.mem_singleton] at hd
      rcases hd with hd | rfl
      · exact held_inert (hheld d hd)
      · exact ⟨hal, hh⟩

/-- Between spans, what was gathered is punctuation: a word, a quoted scalar or a comment opens
after it, and any other character joins it. -/
theorem Classified.step_outside {s : State} (hw : s.Wf) (hc : s.Classified)
    (hm : s.mode = .outside) (c : Char) : (s.step c).Classified := by
  obtain ⟨hd, hb⟩ := hc
  simp only [Building, hm] at hb
  obtain ⟨htags, hcur⟩ := hb
  have hnone : s.emit.tags = [] := emit_tags s hw
  have hpunct := done_emit hd fun _ => .punctuation htags (by simpa using hcur)
  unfold step
  simp only [hm]
  split
  · exact ⟨hpunct, by simp [-emit_tags_eq, Building, push, tag, word_singleton, *]⟩
  split
  · exact ⟨hpunct, by simp [-emit_tags_eq, Building, push, tag, *]⟩
  split
  · exact ⟨hpunct, by simp [-emit_tags_eq, Building, push, tag, hnone]⟩
  rename_i hal _ hh
  have hjoin : ∀ d ∈ s.current ++ [c], isAlphanumeric d = false ∧ d ≠ '#' := by
    intro d hd
    simp only [List.mem_append, List.mem_singleton] at hd
    rcases hd with hd | rfl
    · exact hcur d hd
    · exact ⟨by simpa using hal, by simpa using hh⟩
  split
  · rename_i t ht
    refine ⟨hd, ?_⟩
    simp only [Building, push_mode, hm, push_tags, tag, push_current]
    refine ⟨fun g hg => ?_, hjoin⟩
    simp only [List.mem_append, List.mem_singleton] at hg
    rcases hg with hg | rfl
    · exact htags g hg
    · unfold punctuationTag? at ht
      split at ht
      · cases ht; exact .inr rfl
      · split at ht <;> cases ht; exact .inl rfl
  · exact ⟨hd, by simpa [Building, push, hm] using And.intro htags hjoin⟩

/-- Inside a word, a terminator finishes it, an alphanumeric character extends it, and any other
character is held back. -/
theorem Classified.step_word {s : State} (hw : s.Wf) (hc : s.Classified) (hm : s.mode = .word)
    (c : Char) : (s.step c).Classified := by
  obtain ⟨hd, hb⟩ := hc
  simp only [Building, hm] at hb
  obtain ⟨htags, hword⟩ := hb
  have hh : s.held = [] := hw.held_nil (by simp [hm])
  unfold step
  simp only [hm]
  split
  · rename_i ht
    refine ⟨by simpa using done_emit hd fun _ => lexeme_word htags hword false, ?_⟩
    exact building_afterWord ht (by simp)
      (by simp only [afterWord_tags, emit_tags s hw, List.nil_append]) (by simp) [] (by simp)
  split
  · rename_i _ hal
    exact ⟨hd, by simpa [Building, push, hm, htags, hh] using Word.extend hword [] (by simp) hal⟩
  · rename_i ht hal
    refine ⟨hd, ?_⟩
    simp only [Building, List.nil_append, List.mem_singleton, forall_eq, hh]
    exact ⟨htags, hword, by simpa using hal, by simpa using ht⟩

/-- With characters held back after a word, a terminator finishes the word and starts
punctuation with them, an alphanumeric character returns them to the word, a quote finishes the
word and then them as punctuation of their own, and any other character is held back too. -/
theorem Classified.step_held {s : State} (hw : s.Wf) (hc : s.Classified) (hm : s.mode = .held)
    (c : Char) : (s.step c).Classified := by
  obtain ⟨hd, hb⟩ := hc
  simp only [Building, hm] at hb
  obtain ⟨htags, hword, hheld⟩ := hb
  have hnone : s.emit.tags = [] := emit_tags s hw
  have hfin := done_emit hd fun _ => lexeme_word htags hword false
  unfold step
  simp only [hm]
  split
  · rename_i ht
    refine ⟨by simpa using hfin, ?_⟩
    exact building_afterWord ht (by simp) (by simp only [afterWord_tags, hnone, List.nil_append])
      (by simp) s.held hheld
  split
  · rename_i _ hal
    refine ⟨hd, ?_⟩
    simp only [Building, push_mode, push_tags, push_current, ← List.append_assoc]
    exact ⟨htags, Word.extend hword s.held (fun d hd => (hheld d hd).2) hal⟩
  split
  · have hgap : ∀ t ∈ (({ s.emit with held := [] } : State).push s.held).emit.done,
        Lexeme false t :=
      done_emit (by simpa using hfin) fun _ => by
        simpa [-emit_tags_eq, push, hnone] using lexeme_held hheld false
    refine ⟨by simpa [tag, push] using hgap, ?_⟩
    simp only [Building, push_mode, push_tags, tag, push_current, emit_current, List.nil_append]
    refine ⟨?_, by assumption, [], rfl, by simp⟩
    rw [emit_tags_eq]
    split <;> simp [-emit_tags_eq, push, hnone]
  · rename_i ht hal hq
    refine ⟨hd, ?_⟩
    simp only [Building, List.mem_append, List.mem_singleton]
    refine ⟨htags, hword, fun d hd => ?_⟩
    rcases hd with hd | rfl
    · exact hheld d hd
    · exact ⟨by simpa using hal, by simpa using ht⟩

/-- Inside a quoted scalar, its quote closes and finishes it, and any other character joins it. -/
theorem Classified.step_quoted {s : State} (hc : s.Classified) {q : Char}
    (hm : s.mode = .quoted q) (c : Char) : (s.step c).Classified := by
  obtain ⟨hd, hb⟩ := hc
  simp only [Building, hm] at hb
  obtain ⟨htags, hq, body, hcur, hbody⟩ := hb
  unfold step
  simp only [hm]
  split
  · rename_i hqc
    obtain rfl : q = c := by simpa using hqc
    have hne : ({ s.push [q] with mode := .outside } : State).current ≠ [] := by simp [push]
    refine ⟨fun t ht => ?_, by simp [Building]⟩
    rw [emit_done_of_ne hne] at ht
    simp only [List.mem_append, List.mem_singleton] at ht
    rcases ht with ht | rfl
    · exact hd t ht
    · simp only [push, hcur, htags, List.cons_append]
      exact .quoted hq hbody
  · rename_i hqc
    refine ⟨hd, ?_⟩
    simp only [Building, push_mode, hm, push_tags, push_current, hcur]
    refine ⟨htags, hq, body ++ [c], rfl, ?_⟩
    simp only [List.mem_append, List.mem_singleton, not_or]
    exact ⟨hbody, fun h => hqc (by simp [h])⟩

theorem classified_step {s : State} (hw : s.Wf) (hc : s.Classified) (c : Char) :
    (s.step c).Classified := by
  cases hm : s.mode with
  | outside => exact hc.step_outside hw hm c
  | word => exact hc.step_word hw hm c
  | held => exact hc.step_held hw hm c
  | quoted q => exact hc.step_quoted hm c
  | comment =>
    have hb := hc.building
    simp only [Building, hm] at hb
    unfold step
    simp only [hm]
    exact ⟨hc.done, by simp [Building, push, hm, hb]⟩

theorem classified_run (cs : List Char) {s : State} (hw : s.Wf) (hc : s.Classified) :
    (cs.foldl step s).Classified := by
  induction cs generalizing s with
  | nil => exact hc
  | cons c cs ih => exact ih (wf_step hw c) (classified_step hw hc c)

/-- The tokens a run finishes with sort into classes: the span being built may end the line,
and characters still held back after a word end it as punctuation. -/
theorem finish_classes {s : State} (hw : s.Wf) (hc : s.Classified) : Classes s.finish := by
  obtain ⟨hd, hb⟩ := hc
  unfold finish
  dsimp only
  split
  · rw [emit_done]
    split
    · simpa using classes_of_forall hd
    · exact classes_append_singleton hd hb.lexeme
  · rename_i hheld
    have hm : s.mode = .held := by
      by_contra hm
      exact hheld (by simp [hw.held_nil hm])
    simp only [Building, hm] at hb
    obtain ⟨htags, hword, hheld'⟩ := hb
    rw [emit_done_of_ne (by simpa [push] using hheld)]
    refine classes_append_singleton (done_emit hd fun _ => lexeme_word htags hword false) ?_
    simpa [-emit_tags_eq, push, emit_tags s hw] using lexeme_held hheld' true

end State

/-- The tokens of any line sort into classes. -/
theorem lex_classes (line : String) : Classes (lex line) := by
  unfold lex
  split
  · exact classes_of_forall (by simp [Lexeme.punctuation])
  · exact State.finish_classes (State.run line.toList {} State.wf_init).1
      (State.classified_run _ State.wf_init State.classified_init)

/-- Each token of a line may stand somewhere on it. -/
theorem Classes.lexeme {ts : List Token} (h : Classes ts) {t : Token} (ht : t ∈ ts) :
    ∃ last, Lexeme last t := by
  have hne := List.ne_nil_of_mem ht
  rw [← List.dropLast_append_getLast hne, List.mem_append, List.mem_singleton] at ht
  rcases ht with ht | ht
  · exact ⟨false, h.1 t ht⟩
  · exact ⟨true, h.2 t (by rw [List.getLast?_eq_some_getLast hne, ht]; rfl)⟩

/-- The span lexer partitions a line into tokens of its classes. The tokens spell the line, and
each is non-empty unless the line is. Every token is a scalar, a comment, or punctuation tagged
only as mapping or sequence punctuation; a comment can only be the last token, and every `#`
lies in a quoted scalar or in that comment. No two neighbouring tokens are both punctuation. A
word starts and ends on an alphanumeric character and holds none of `:`, `]`, `}`, `,` and `#`;
a quoted scalar starts on its quote and either ends on that quote after its opening or is the
last token; punctuation holds no alphanumeric character (`Lexeme`). -/
theorem lex_partitions (line : String) :
    Token.join (lex line) = line ∧ lex "" = [⟨"", []⟩] ∧
      (line ≠ "" → ∀ t ∈ lex line, t.text ≠ "") ∧
      (∀ t ∈ lex line, t.tags = [.scalar] ∨ t.tags = [.comment] ∨
        ∀ g ∈ t.tags, g = .mapping ∨ g = .sequence) ∧
      (∀ t ∈ (lex line).dropLast, t.tags ≠ [.comment]) ∧
      (∀ t ∈ lex line, '#' ∈ t.text.toList → t.tags = [.comment] ∨
        t.tags = [.scalar] ∧ ∃ q, isQuote q = true ∧ t.text.toList.head? = some q) ∧
      (lex line).IsChain Spaced ∧
      (∀ t ∈ (lex line).dropLast, Lexeme false t) ∧ (∀ t ∈ (lex line).getLast?, Lexeme true t) := by
  have hc := lex_classes line
  refine ⟨join_lex line, rfl, fun hl t ht => (lex_tokens hl t ht).1, fun t ht => ?_,
    fun t ht => (hc.1 t ht).tags_ne_comment, fun t ht hh => ?_, lex_spaced line, hc.1, hc.2⟩
  · obtain ⟨last, hl⟩ := hc.lexeme ht
    exact hl.tags
  · obtain ⟨last, hl⟩ := hc.lexeme ht
    exact hl.hash hh

theorem lex_partitions_quoted_hash :
    "k: 'a # b' # c" ≠ "" ∧ ∀ t ∈ lex "k: 'a # b' # c", t.text ≠ "" :=
  ⟨by decide, (lex_partitions "k: 'a # b' # c").2.2.1 (by decide)⟩

/-- A `#` inside quotes stays in the quoted scalar; the comment starts at the next one. -/
example : lex "k: 'a # b' # c" = [⟨"k", [.scalar]⟩, ⟨": ", [.mapping]⟩, ⟨"'a # b'", [.scalar]⟩,
    ⟨" ", []⟩, ⟨"# c", [.comment]⟩] := by
  decide

end YamlEdit.Lexer
