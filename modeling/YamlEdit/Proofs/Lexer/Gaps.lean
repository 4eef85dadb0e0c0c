import Mathlib.Data.List.Chain
import YamlEdit.Proofs.Lexer.Words

/-!
# Punctuation never stands next to punctuation

Between two spans the lexer gathers every character into one punctuation token, and it finishes
that token only when a scalar or a comment starts. Characters held back after a word become a
token of their own only when a quoted scalar follows, or at the end of the line. So of two
neighbouring tokens of a line at least one is a scalar or a comment: whatever closes the
collections around a scalar sits in the one punctuation token after it.

The invariant of a run, `State.Alternating`, keeps the finished tokens alternating and records
that the last finished token is punctuation only while a scalar or a comment is being built.
-/

namespace YamlEdit

/-- Whether a token is a scalar or a comment, a span the lexer opens on a character of its
own, rather than the punctuation and white space between such spans. -/
def Token.isSpan (t : Token) : Bool :=
  t.isScalar || t.isComment

theorem Token.isSpan_mk {text : String} {tags : List Tag}
    (h : .scalar ∈ tags ∨ .comment ∈ tags) : Token.isSpan ⟨text, tags⟩ = true := by
  rcases h with h | h <;> simp [Token.isSpan, Token.isScalar, Token.isComment, h]

namespace Lexer

/-- Of two neighbouring tokens, at least one is a scalar or a comment. -/
def Spaced (t u : Token) : Prop :=
  (t.isSpan || u.isSpan) = true

namespace State

/-- What a run keeps about punctuation: the finished tokens alternate, a punctuation token is
the last finished one only while a span is being built, and a span being built is tagged as a
scalar or a comment. -/
structure Alternating (s : State) : Prop where
  /-- No two finished neighbours are punctuation. -/
  done_spaced : s.done.IsChain Spaced
  /-- After finished punctuation the lexer is inside a span. -/
  after_gap : ∀ t ∈ s.done.getLast?, t.isSpan = false → s.mode ≠ .outside
  /-- Inside a span, the span is a scalar or a comment. -/
  inside_tags : s.mode ≠ .outside → .scalar ∈ s.tags ∨ .comment ∈ s.tags

theorem alternating_init : ({} : State).Alternating :=
  ⟨.nil, by simp, fun h => absurd rfl h⟩

/-- Emitting keeps the finished tokens alternating: a span finished inside a span is a scalar or
a comment, and one finished between spans follows a scalar or a comment. -/
theorem Alternating.emit_spaced {s : State} (ha : s.Alternating) : s.emit.done.IsChain Spaced := by
  rw [emit_done]
  split
  · simpa using ha.done_spaced
  · refine ha.done_spaced.append (.singleton _) fun t ht u hu => ?_
    simp only [List.head?_cons, Option.mem_def, Option.some.injEq] at hu
    subst hu
    by_cases hm : s.mode = .outside
    · cases hspan : t.isSpan
      · exact absurd hm (ha.after_gap t ht hspan)
      · simp [Spaced, hspan]
    · simp [Spaced, Token.isSpan_mk (ha.inside_tags hm)]

/-- Emitting a span built inside a span leaves a scalar or a comment last. -/
theorem Alternating.emit_last {s : State} (ha : s.Alternating) (hs : s.Shape)
    (hm : s.mode ≠ .outside) : ∀ t ∈ s.emit.done.getLast?, t.isSpan = true := by
  intro t ht
  rw [emit_done_of_ne (hs.current_ne hm)] at ht
  simp only [List.getLast?_append, List.getLast?_singleton, Option.some_or, Option.mem_def,
    Option.some.injEq] at ht
  subst ht
  exact Token.isSpan_mk (ha.inside_tags hm)

/-- A state whose finished tokens are those of an emitted span, and which is inside a span
itself or has just finished a scalar or a comment, alternates. -/
theorem Alternating.of_emit {s σ : State} (ha : s.Alternating) (hdone : σ.done = s.emit.done)
    (hlast : σ.mode = .outside → ∀ t ∈ s.emit.done.getLast?, t.isSpan = true)
    (htags : σ.mode ≠ .outside → .scalar ∈ σ.tags ∨ .comment ∈ σ.tags) :
    σ.Alternating := by
  refine ⟨hdone ▸ ha.emit_spaced, fun t ht hgap hm => ?_, htags⟩
  rw [hdone] at ht
  simp [hlast hm t ht] at hgap

theorem alternating_step {s : State} (hw : s.Wf) (hs : s.Shape) (ha : s.Alternating) (c : Char) :
    (s.step c).Alternating := by
  have hnone : s.emit.tags = [] := emit_tags s hw
  unfold step
  cases hm : s.mode with
  | outside =>
    dsimp only
    -- a word, a quoted scalar and a comment each open a span after emitting the punctuation
    -- gathered so far; more punctuation only joins it
    split
    · exact ha.of_emit rfl (fun h => by simp [push] at h) fun _ => by simp [push, tag]
    split
    · exact ha.of_emit rfl (fun h => by simp [push] at h) fun _ => by simp [push, tag]
    split
    · exact ha.of_emit rfl (fun h => by simp [push] at h) fun _ => by simp [push, tag]
    have hsame : ∀ σ : State, σ.done = s.done → σ.mode = .outside → σ.Alternating :=
      fun σ hd hσ => ⟨hd ▸ ha.done_spaced,
        fun t ht hgap => absurd hm (ha.after_gap t (hd ▸ ht) hgap), fun h => absurd hσ h⟩
    split
    · exact hsame _ rfl (by simp [push, hm])
    · exact hsame _ rfl (by simp [push, hm])
  | word =>
    dsimp only
    split
    · refine ha.of_emit (by simp [push]) (fun _ => ha.emit_last hs (by simp [hm])) fun h => ?_
      simp only [push, afterWord_mode, afterWord_tags, hnone, List.nil_append] at h ⊢
      split at h
      · simp_all
      · exact absurd rfl h
    split
    · exact ⟨ha.done_spaced, fun t ht hgap => by simp [push, hm], fun _ => by
        simpa [push] using ha.inside_tags (by simp [hm])⟩
    · exact ⟨ha.done_spaced, fun t ht hgap => by simp, fun _ => ha.inside_tags (by simp [hm])⟩
  | held =>
    dsimp only
    split
    · refine ha.of_emit (by simp [push]) (fun _ => ha.emit_last hs (by simp [hm])) fun h => ?_
      simp only [push, afterWord_mode, afterWord_tags, hnone, List.nil_append] at h ⊢
      split at h
      · simp_all
      · exact absurd rfl h
    split
    · exact ⟨ha.done_spaced, fun t ht hgap => by simp [push], fun _ => by
        simpa [push] using ha.inside_tags (by simp [hm])⟩
    split
    · have hheld : s.held ≠ [] := hs.held_ne hm
      have hword := ha.emit_last hs (by simp [hm])
      refine ⟨?_, fun _ _ _ => by simp [push, tag], fun _ => by simp [push, tag, emit_tags_eq]⟩
      simp only [tag_done, push_done]
      rw [emit_done_of_ne (by simpa [push] using hheld)]
      refine ha.emit_spaced.append (.singleton _) fun t ht u _ => ?_
      simp [Spaced, hword t (by simpa [push] using ht)]
    · exact ⟨ha.done_spaced, fun t ht hgap => by simp, fun _ => ha.inside_tags (by simp [hm])⟩
  | quoted close =>
    dsimp only
    split
    · have hq : ({ s.push [c] with mode := .outside } : State).current ≠ [] := by simp [push]
      refine ⟨?_, fun t ht hgap => ?_, fun h => by simp at h⟩
      · rw [emit_done_of_ne hq]
        refine ha.done_spaced.append (.singleton _) fun t _ u hu => ?_
        simp only [List.head?_cons, Option.mem_def, Option.some.injEq] at hu
        subst hu
        simp [Spaced, Token.isSpan_mk (ha.inside_tags (by simp [hm]))]
      · rw [emit_done_of_ne hq] at ht
        simp only [List.getLast?_append, List.getLast?_singleton, Option.some_or, Option.mem_def,
          Option.some.injEq] at ht
        subst ht
        simp [Token.isSpan_mk (ha.inside_tags (by simp [hm]))] at hgap
    · exact ⟨ha.done_spaced, fun t ht hgap => by simp [push, hm], fun _ => by
        simpa [push] using ha.inside_tags (by simp [hm])⟩
  | comment =>
    exact ⟨ha.done_spaced, fun t ht hgap => by simp [push, hm], fun _ => by
      simpa [push] using ha.inside_tags (by simp [hm])⟩

theorem alternating_run (cs : List Char) {s : State} (hw : s.Wf) (hs : s.Shape)
    (ha : s.Alternating) : (cs.foldl step s).Alternating := by
  induction cs generalizing s with
  | nil => exact ha
  | cons c cs ih =>
    exact ih (wf_step hw c) (shape_step hw hs c) (alternating_step hw hs ha c)

/-- The tokens a run finishes with alternate: characters still held back at the end follow the
word they were held after. -/
theorem finish_spaced {s : State} (hw : s.Wf) (hs : s.Shape) (ha : s.Alternating) :
    s.finish.IsChain Spaced := by
  unfold finish
  dsimp only
  split
  · exact ha.emit_spaced
  · rename_i hheld
    have hm : s.mode = .held := by
      by_contra hm
      exact hheld (by simp [hw.held_nil hm])
    have hword := ha.emit_last hs (by simp [hm])
    rw [emit_done_of_ne (by simpa [push] using hheld)]
    refine ha.emit_spaced.append (.singleton _) fun t ht u _ => ?_
    simp [Spaced, hword t (by simpa [push] using ht)]

end State

/-- Of two neighbouring tokens of a line, at least one is a scalar or a comment. -/
theorem lex_spaced (line : String) : (lex line).IsChain Spaced := by
  unfold lex
  split
  · exact .singleton _
  · have hw := State.run line.toList {} State.wf_init
    exact State.finish_spaced hw.1 (State.shape_run _ State.wf_init State.shape_init)
      (State.alternating_run _ State.wf_init State.shape_init State.alternating_init)

end Lexer

end YamlEdit
