import YamlEdit.Token.Lexer

/-!
# The span lexer partitions its line

The lexer never drops, doubles or reorders a character: the finished tokens, the span being
built and the held-back characters always spell what has been read, so the tokens of a line
concatenate back to it. A token that carries the scalar tag carries no other tag, which is what
lets every scalar token of a line stand for exactly one node. A comment runs to the end of its
line, so only the last token of a line can carry the comment tag: no scalar is hidden behind one.
-/

namespace YamlEdit.Lexer

/-- A tag list in which the scalar tag, if present, stands alone. -/
def ScalarAlone (tags : List Tag) : Prop :=
  tags = [.scalar] ∨ .scalar ∉ tags

theorem scalarAlone_of_not_mem {tags : List Tag} (h : .scalar ∉ tags) : ScalarAlone tags :=
  .inr h

@[simp] theorem scalarAlone_scalar : ScalarAlone [.scalar] :=
  .inl rfl

theorem scalar_eq_of_punctuationTag? {c : Char} {t : Tag} (h : punctuationTag? c = some t) :
    (Tag.scalar = t) = False := by
  unfold punctuationTag? at h
  split at h
  · cases h; simp
  · split at h <;> cases h; simp

@[simp] theorem scalar_not_mem_closing (c : Char) :
    .scalar ∉ (if c = ':' then [Tag.mapping] else if c = '#' then [Tag.comment] else []) := by
  split
  · simp
  · split <;> simp

namespace State

/-- The characters read so far: the finished tokens, the span being built, then the characters
held back after it. -/
def read (s : State) : List Char :=
  (Token.join s.done).toList ++ s.current ++ s.held

/-- What every state reached from the initial one satisfies. -/
structure Wf (s : State) : Prop where
  /-- Characters are held back only in the held mode. -/
  held_nil : s.mode ≠ .held → s.held = []
  /-- An empty span has no tags yet. -/
  tags_nil : s.current = [] → s.tags = []
  /-- The span being built has the scalar tag alone or not at all. -/
  tags_alone : ScalarAlone s.tags
  /-- Punctuation gathered outside of any span is not a scalar. -/
  outside_tags : s.mode = .outside → .scalar ∉ s.tags
  /-- Every finished token has the scalar tag alone or not at all. -/
  done_alone : ∀ t ∈ s.done, ScalarAlone t.tags

@[simp] theorem emit_current (s : State) : s.emit.current = [] := by
  unfold emit; split <;> simp_all

@[simp] theorem emit_held (s : State) : s.emit.held = s.held := by
  unfold emit; split <;> rfl

@[simp] theorem emit_mode (s : State) : s.emit.mode = s.mode := by
  unfold emit; split <;> rfl

/-- Emitting moves the span's text to the end of the finished tokens. -/
@[simp] theorem join_emit_done (s : State) :
    (Token.join s.emit.done).toList = (Token.join s.done).toList ++ s.current := by
  unfold emit
  split
  · simp_all
  · simp [Token.join, String.join_append]

@[simp] theorem read_emit (s : State) : s.emit.read = s.read := by
  simp [read]

@[simp] theorem tag_held (s : State) (t : Tag) : (s.tag t).held = s.held := rfl

@[simp] theorem tag_current (s : State) (t : Tag) : (s.tag t).current = s.current := rfl

@[simp] theorem tag_mode (s : State) (t : Tag) : (s.tag t).mode = s.mode := rfl

@[simp] theorem read_tag (s : State) (t : Tag) : (s.tag t).read = s.read := rfl

@[simp] theorem tag_done (s : State) (t : Tag) : (s.tag t).done = s.done := rfl

@[simp] theorem afterWord_done (s : State) (c : Char) : (s.afterWord c).done = s.done := by
  unfold afterWord; split
  · rfl
  · split <;> rfl

@[simp] theorem afterWord_current (s : State) (c : Char) :
    (s.afterWord c).current = s.current := by
  unfold afterWord; split
  · rfl
  · split <;> rfl

@[simp] theorem afterWord_held (s : State) (c : Char) : (s.afterWord c).held = s.held := by
  unfold afterWord; split
  · rfl
  · split <;> rfl

theorem read_push (s : State) (cs : List Char) (h : s.held = []) :
    (s.push cs).read = s.read ++ cs := by
  simp [read, push, h]

@[simp] theorem emit_tags_eq (s : State) : s.emit.tags = if s.current = [] then s.tags else [] := by
  unfold emit
  split <;> simp_all

@[simp] theorem mem_emit_done (s : State) (t : Token) :
    t ∈ s.emit.done ↔ t ∈ s.done ∨ s.current ≠ [] ∧ t = ⟨String.ofList s.current, s.tags⟩ := by
  unfold emit
  split <;> simp_all

@[simp] theorem afterWord_tags (s : State) (c : Char) :
    (s.afterWord c).tags =
      s.tags ++ (if c = ':' then [.mapping] else if c = '#' then [.comment] else []) := by
  unfold afterWord
  split
  · simp_all [tag]
  · split <;> simp_all [tag]

@[simp] theorem afterWord_mode (s : State) (c : Char) :
    (s.afterWord c).mode = if c = '#' then .comment else .outside := by
  unfold afterWord
  split
  · simp_all
  · split <;> simp_all

/-- Emitting leaves no tags behind in a well-formed state. -/
theorem emit_tags (s : State) (hs : s.Wf) : s.emit.tags = [] := by
  unfold emit
  split
  · exact hs.tags_nil (by simp_all)
  · rfl

theorem emit_done_alone (s : State) (hs : s.Wf) :
    ∀ t ∈ s.emit.done, ScalarAlone t.tags := by
  unfold emit
  split
  · exact hs.done_alone
  · intro t ht
    simp only [List.mem_append, List.mem_singleton] at ht
    rcases ht with ht | rfl
    · exact hs.done_alone t ht
    · exact hs.tags_alone

theorem read_step (s : State) (c : Char) (hs : s.Wf) :
    (s.step c).read = s.read ++ [c] := by
  unfold step
  cases hm : s.mode with
  | held =>
    dsimp only
    repeat' split
    all_goals simp [read, push]
  | _ =>
    have hh : s.held = [] := hs.held_nil (by simp [hm])
    dsimp only
    repeat' split
    all_goals simp [read, push, hh]

theorem Wf.emit {s : State} (hs : s.Wf) : s.emit.Wf where
  held_nil h := by rw [emit_held]; exact hs.held_nil (by simpa using h)
  tags_nil _ := emit_tags s hs
  tags_alone := by rw [emit_tags s hs]; exact .inr (by simp)
  outside_tags _ := by rw [emit_tags s hs]; simp
  done_alone := emit_done_alone s hs

theorem wf_step {s : State} (hs : s.Wf) (c : Char) : (s.step c).Wf := by
  obtain ⟨h1, h2, h3, h4, h5⟩ := hs
  unfold step
  cases hm : s.mode with
  | outside =>
    have hh : s.held = [] := h1 (by simp [hm])
    dsimp only
    split
    · constructor <;> simp_all [push, tag, or_imp]
    split
    · constructor <;> simp_all [push, tag, or_imp]
    split
    · constructor <;> simp_all [push, tag, or_imp, scalarAlone_of_not_mem]
    cases hp : punctuationTag? c with
    | none => constructor <;> simp_all [push]
    | some t =>
      have ht := scalar_eq_of_punctuationTag? hp
      constructor <;> simp_all [push, tag, scalarAlone_of_not_mem]
  | held =>
    dsimp only
    repeat' split
    all_goals constructor <;> simp_all [push, tag, or_imp, scalarAlone_of_not_mem]
  | _ =>
    have hh : s.held = [] := h1 (by simp [hm])
    dsimp only
    repeat' split
    all_goals constructor <;> simp_all [push, or_imp, scalarAlone_of_not_mem]

theorem wf_init : ({} : State).Wf where
  held_nil _ := rfl
  tags_nil _ := rfl
  tags_alone := .inr (by simp)
  outside_tags _ := by simp
  done_alone := by simp

/-- A run over any characters keeps the state well formed and appends them to what was read. -/
theorem run (cs : List Char) (s : State) (hs : s.Wf) :
    (cs.foldl step s).Wf ∧ (cs.foldl step s).read = s.read ++ cs := by
  induction cs generalizing s with
  | nil => exact ⟨hs, by simp⟩
  | cons c cs ih =>
    obtain ⟨hwf, hread⟩ := ih (s.step c) (wf_step hs c)
    refine ⟨hwf, ?_⟩
    rw [List.foldl_cons, hread, read_step s c hs]
    simp

theorem join_finish (s : State) : (Token.join s.finish).toList = s.read := by
  unfold finish
  dsimp only
  split
  · simp_all [read]
  · simp [read, push]

theorem finish_alone (s : State) (hs : s.Wf) : ∀ t ∈ s.finish, ScalarAlone t.tags := by
  have he := hs.emit
  unfold finish
  dsimp only
  split
  · exact he.done_alone
  · intro t ht
    rw [mem_emit_done] at ht
    rcases ht with ht | ⟨-, rfl⟩
    · exact he.done_alone t ht
    · show ScalarAlone s.emit.tags
      rw [emit_tags s hs]
      exact scalarAlone_of_not_mem (by simp)

/-- What a run keeps about comments: no finished token is a comment, and the span being built
carries the comment tag only in the comment mode, which no character leaves. -/
structure CommentLast (s : State) : Prop where
  /-- No finished token carries the comment tag. -/
  done_free : ∀ t ∈ s.done, .comment ∉ t.tags
  /-- The comment tag marks the span of the comment mode. -/
  tags_comment : .comment ∈ s.tags → s.mode = .comment

theorem commentLast_init : ({} : State).CommentLast :=
  ⟨by simp, by simp⟩

/-- Outside the comment mode, emitting finishes a token without the comment tag. -/
theorem CommentLast.emit {s : State} (hw : s.Wf) (hc : s.CommentLast)
    (hm : s.mode ≠ .comment) : s.emit.CommentLast := by
  refine ⟨fun t ht => ?_, fun h => ?_⟩
  · rw [mem_emit_done] at ht
    rcases ht with ht | ⟨-, rfl⟩
    · exact hc.done_free t ht
    · exact fun h => hm (hc.tags_comment h)
  · rw [emit_tags s hw] at h
    cases h

theorem commentLast_step {s : State} (hw : s.Wf) (hc : s.CommentLast) (c : Char) :
    (s.step c).CommentLast := by
  unfold step
  cases hm : s.mode with
  | comment => exact ⟨hc.done_free, fun _ => by simp [push, hm]⟩
  | quoted close =>
    have hno : .comment ∉ s.tags := fun h => by simp [hc.tags_comment h] at hm
    dsimp only
    split
    · refine ⟨fun t ht => ?_, fun h => by simp [push] at h⟩
      simp only [mem_emit_done, push] at ht
      rcases ht with ht | ⟨-, rfl⟩
      · exact hc.done_free t ht
      · exact hno
    · exact ⟨hc.done_free, fun h => absurd (by simpa [push] using h) hno⟩
  | outside =>
    have hno : .comment ∉ s.tags := fun h => by simp [hc.tags_comment h] at hm
    have he := hc.emit hw (by simp [hm])
    dsimp only
    split
    · refine ⟨he.done_free, fun h => ?_⟩
      simp only [push, tag] at h
      rw [emit_tags s hw] at h
      simp at h
    split
    · refine ⟨he.done_free, fun h => ?_⟩
      simp only [push, tag] at h
      rw [emit_tags s hw] at h
      simp at h
    split
    · exact ⟨he.done_free, fun _ => by simp [push, tag]⟩
    cases hp : punctuationTag? c with
    | none => exact ⟨hc.done_free, fun h => absurd (by simpa [push] using h) hno⟩
    | some t =>
      have ht : t ≠ .comment := by
        unfold punctuationTag? at hp
        split at hp
        · cases hp; simp
        · split at hp <;> cases hp; simp
      refine ⟨hc.done_free, fun h => ?_⟩
      simp only [push, tag, List.mem_append, List.mem_singleton] at h
      rcases h with h | h
      · exact absurd h hno
      · exact absurd h.symm ht
  | word =>
    have hno : .comment ∉ s.tags := fun h => by simp [hc.tags_comment h] at hm
    have he := hc.emit hw (by simp [hm])
    dsimp only
    split
    · refine ⟨fun t ht => he.done_free t (by simpa [push] using ht), fun h => ?_⟩
      simp only [push, afterWord_tags, emit_tags s hw, List.nil_append] at h
      simp only [push, afterWord_mode]
      split at h
      · simp at h
      · split at h
        · simp_all
        · simp at h
    split
    · exact ⟨hc.done_free, fun h => absurd (by simpa [push] using h) hno⟩
    · exact ⟨hc.done_free, fun h => absurd h hno⟩
  | held =>
    have hno : .comment ∉ s.tags := fun h => by simp [hc.tags_comment h] at hm
    have he := hc.emit hw (by simp [hm])
    dsimp only
    split
    · refine ⟨fun t ht => he.done_free t (by simpa [push] using ht), fun h => ?_⟩
      simp only [push, afterWord_tags, emit_tags s hw, List.nil_append] at h
      simp only [push, afterWord_mode]
      split at h
      · simp at h
      · split at h
        · simp_all
        · simp at h
    split
    · exact ⟨hc.done_free, fun h => absurd (by simpa [push] using h) hno⟩
    split
    · refine ⟨fun t ht => ?_, fun h => by simp_all [push, tag, emit_tags_eq]⟩
      simp only [mem_emit_done, tag_done, push] at ht
      rcases ht with (ht | ⟨-, rfl⟩) | ⟨-, rfl⟩
      · exact hc.done_free t ht
      · exact hno
      · simpa [tag, emit_tags_eq] using fun _ => hno
    · exact ⟨hc.done_free, fun h => absurd h hno⟩

theorem commentLast_run (cs : List Char) {s : State} (hw : s.Wf) (hc : s.CommentLast) :
    (cs.foldl step s).CommentLast := by
  induction cs generalizing s with
  | nil => exact hc
  | cons c cs ih => exact ih (wf_step hw c) (commentLast_step hw hc c)

/-- Of the tokens a run finishes with, only the last can be a comment: a comment mode holds
nothing back, and outside it no tag of the span is the comment tag. -/
theorem finish_commentLast {s : State} (hw : s.Wf) (hc : s.CommentLast) :
    ∀ t ∈ s.finish.dropLast, .comment ∉ t.tags := by
  intro t ht
  by_cases hm : s.mode = .comment
  · have hh : s.held = [] := hw.held_nil (by simp [hm])
    simp only [finish, emit_held, hh, List.isEmpty_nil, ↓reduceIte] at ht
    unfold emit at ht
    split at ht
    · exact hc.done_free t (List.dropLast_sublist _ |>.subset ht)
    · rw [List.dropLast_concat] at ht
      exact hc.done_free t ht
  · have he := hc.emit hw hm
    have hmem := List.dropLast_sublist _ |>.subset ht
    simp only [finish] at hmem
    split at hmem
    · exact he.done_free t hmem
    · rw [mem_emit_done] at hmem
      rcases hmem with hmem | ⟨-, rfl⟩
      · exact he.done_free t (by simpa [push] using hmem)
      · simpa [push] using fun _ h => hm (hc.tags_comment h)

end State

/-- The tokens of a line spell the line. -/
theorem join_lex (line : String) : Token.join (lex line) = line := by
  unfold lex
  split
  · simp_all [Token.join]
  · rw [← String.toList_inj, State.join_finish,
      (State.run line.toList {} State.wf_init).2]
    simp [State.read, Token.join]

/-- A token of a line that carries the scalar tag carries no other tag. -/
theorem lex_scalarAlone (line : String) : ∀ t ∈ lex line, ScalarAlone t.tags := by
  unfold lex
  split
  · simp [ScalarAlone]
  · exact State.finish_alone _ (State.run line.toList {} State.wf_init).1

/-- Only the last token of a line can be a comment. -/
theorem lex_commentLast (line : String) : ∀ t ∈ (lex line).dropLast, .comment ∉ t.tags := by
  unfold lex
  split
  · simp
  · have hrun := State.run line.toList {} State.wf_init
    exact State.finish_commentLast hrun.1 (State.commentLast_run _ State.wf_init State.commentLast_init)

end YamlEdit.Lexer
