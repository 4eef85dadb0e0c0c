import YamlEdit.Proofs.Parsed

/-!
# Lines that differ in their scalars build the same forest

The forest builder reads, of a line, its number, its level, the tags of its tokens and the
texts of its punctuation; the text and byte range of a scalar token only become the name and
range of the scalar's node. So lines that differ only in the texts of scalar tokens and in their
byte ranges build forests of one shape: node for node the same ids, lines, token indices,
collection styles, roles and flags (`parse_skeleton`). The *skeleton* of an entry is the entry
with its name and range cleared; `eq_mapEntriesAll_of_skeleton` turns equal skeletons back into
an equation between the forests.
-/

namespace YamlEdit

namespace Entry

/-- The entry with its name and byte range cleared. -/
def skeleton (e : Entry) : Entry :=
  { e with name := "", range := ⟨0, 0⟩ }

@[simp] theorem skeleton_id (e : Entry) : e.skeleton.id = e.id := rfl

@[simp] theorem skeleton_startLine (e : Entry) : e.skeleton.startLine = e.startLine := rfl

@[simp] theorem skeleton_endLine (e : Entry) : e.skeleton.endLine = e.endLine := rfl

@[simp] theorem skeleton_tokenIndex (e : Entry) : e.skeleton.tokenIndex = e.tokenIndex := rfl

end Entry

namespace Node

mutual

/-- Changes every entry of a tree. -/
def mapEntries (f : Entry → Entry) : Node → Node
  | ⟨e, cs⟩ => ⟨f e, mapEntriesAll f cs⟩

/-- Changes every entry of a list of trees. -/
def mapEntriesAll (f : Entry → Entry) : List Node → List Node
  | [] => []
  | n :: ns => mapEntries f n :: mapEntriesAll f ns

end

theorem mapEntriesAll_eq_map (f : Entry → Entry) (ns : List Node) :
    mapEntriesAll f ns = ns.map (mapEntries f) := by
  induction ns with
  | nil => rfl
  | cons n ns ih => simp [mapEntriesAll, ih]

@[simp] theorem mapEntries_mk (f : Entry → Entry) (e : Entry) (cs : List Node) :
    mapEntries f ⟨e, cs⟩ = ⟨f e, cs.map (mapEntries f)⟩ := by
  rw [mapEntries, mapEntriesAll_eq_map]

@[simp] theorem mapEntries_entry (f : Entry → Entry) (n : Node) :
    (mapEntries f n).entry = f n.entry := by
  cases n; simp

end Node

namespace Line

/-- Two lines that differ at most in the texts of their scalar tokens and in their byte
ranges. -/
structure Retexted (l l' : Line) : Prop where
  number : l'.number = l.number
  level : l'.level = l.level
  tags : l'.tokens.map Token.tags = l.tokens.map Token.tags
  punctuation : ∀ (i : Nat) (t : Token), l.tokens[i]? = some t → t.isScalar = false → l'.tokens[i]? = some t

variable {l l' : Line}

theorem Retexted.length (h : l.Retexted l') : l'.tokens.length = l.tokens.length := by
  simpa using congrArg List.length h.tags

/-- A token of one line is a token of the other with the same tags, and the same text unless it
is a scalar. -/
theorem Retexted.token (h : l.Retexted l') (i : Nat) :
    (l.tokens[i]?).map Token.tags = (l'.tokens[i]?).map Token.tags ∧
      ∀ t : Token, l.tokens[i]? = some t → t.isScalar = false → l'.tokens[i]? = some t := by
  refine ⟨?_, h.punctuation i⟩
  have := congrArg (·[i]?) h.tags
  simpa using this.symm

end Line

namespace Forest

open Line

variable {l l' : Line}

/-- The role of a scalar depends on the token in front of it only through its tags and, for
punctuation, its text. -/
theorem roleOf_congr {t t' : Option Token} (htags : t.map Token.tags = t'.map Token.tags)
    (htext : ∀ u, t = some u → u.isScalar = false → t' = some u) (flow : FlowStyle) :
    roleOf t' flow = roleOf t flow := by
  cases t with
  | none =>
    cases t' with
    | none => rfl
    | some u' => cases htags
  | some u =>
    cases hs : u.isScalar with
    | false => rw [htext u rfl hs]
    | true =>
      cases t' with
      | none => cases htags
      | some u' =>
        have hs' : u'.isScalar = true := by
          simp only [Option.map_some, Option.some.injEq] at htags
          simpa [Token.isScalar, htags] using hs
        simp [roleOf, hs, hs']

theorem isKeyBefore_congr {t t' : Option Token} (htags : t.map Token.tags = t'.map Token.tags)
    (htext : ∀ u, t = some u → u.isScalar = false → t' = some u) :
    isKeyBefore t' = isKeyBefore t := by
  cases t with
  | none =>
    cases t' with
    | none => rfl
    | some u' => cases htags
  | some u =>
    cases hs : u.isScalar with
    | false => rw [htext u rfl hs]
    | true =>
      cases t' with
      | none => cases htags
      | some u' =>
        have hs' : u'.isScalar = true := by
          simp only [Option.map_some, Option.some.injEq] at htags
          simpa [Token.isScalar, htags] using hs
        simp [isKeyBefore, hs, hs']

@[simp] theorem entryAt_id (line : Line) (index id : Nat) (c : Cursor) :
    (entryAt line index id c).id = id := rfl

/-- An entry read off either line has the same skeleton. -/
theorem skeleton_entryAt (h : l.Retexted l') (index id : Nat) (c : Cursor) :
    (entryAt l' index id c).skeleton = (entryAt l index id c).skeleton := by
  have hrole : roleOf (if index = 0 then none else l'.tokens[index - 1]?) c.flow =
      roleOf (if index = 0 then none else l.tokens[index - 1]?) c.flow := by
    split
    · rfl
    · exact roleOf_congr (h.token _).1 (h.token _).2 c.flow
  have hkey := isKeyBefore_congr (h.token (index + 1)).1 (h.token (index + 1)).2
  simp [entryAt, Entry.skeleton, h.number, hrole, hkey]

/-- Two builders that hold the same table and entries with the same skeletons. -/
def Builder.Similar (b b' : Builder) : Prop :=
  b'.table = b.table ∧
    b'.placed.map (Prod.map Entry.skeleton id) = b.placed.map (Prod.map Entry.skeleton id)

theorem Builder.Similar.nextId {b b' : Builder} (hb : b.Similar b') : b'.nextId = b.nextId := by
  simpa [Builder.nextId] using congrArg List.length hb.2

theorem Builder.Similar.addScalar {b b' : Builder} (hb : b.Similar b') (h : l.Retexted l')
    (index : Nat) (c : Cursor) : (b.addScalar l index c).Similar (b'.addScalar l' index c) := by
  have hid := hb.nextId
  obtain ⟨ht, hp⟩ := hb
  have he := skeleton_entryAt h index b.nextId c
  unfold Builder.addScalar
  simp only [h.level, ht, hid]
  split <;> refine ⟨rfl, ?_⟩ <;> simp [hp, he]

theorem placeTags_similar (h : l.Retexted l') (index : Nat) :
    ∀ (tags : List Tag) (c : Cursor) {b b' : Builder}, b.Similar b' →
      (placeTags l' index c b' tags).1 = (placeTags l index c b tags).1 ∧
        (placeTags l index c b tags).2.Similar (placeTags l' index c b' tags).2
  | [], _, _, _, hb => ⟨rfl, hb⟩
  | .comment :: _, _, _, _, hb => ⟨rfl, hb⟩
  | .scalar :: ts, c, _, _, hb => placeTags_similar h index ts _ (hb.addScalar h index c)
  | .mapping :: ts, _, _, _, hb => placeTags_similar h index ts _ hb
  | .sequence :: ts, _, _, _, hb => placeTags_similar h index ts _ hb

theorem placeTokens_similar (h : l.Retexted l') :
    ∀ (index : Nat) (c : Cursor) (ts ts' : List Token), ts'.map Token.tags = ts.map Token.tags →
      ∀ {b b' : Builder}, b.Similar b' → (placeTokens l index c b ts).Similar (placeTokens l' index c b' ts')
  | _, _, [], [], _, _, _, hb => hb
  | index, c, t :: ts, t' :: ts', htags, b, b', hb => by
    simp only [List.map_cons, List.cons.injEq] at htags
    obtain ⟨hcur, hnext⟩ := placeTags_similar h index t.tags c hb
    unfold placeTokens
    rw [htags.1]
    -- the tags decide, on both lines alike, whether the line goes on after the token
    generalize placeTags l index c b t.tags = q at hcur hnext ⊢
    generalize placeTags l' index c b' t.tags = q' at hcur hnext ⊢
    obtain ⟨o, bb⟩ := q
    obtain ⟨o', bb'⟩ := q'
    dsimp only at hcur hnext
    subst hcur
    cases o' with
    | some c' => exact placeTokens_similar h (index + 1) c' ts ts' htags.2 hnext
    | none => exact hnext

/-- The run lemma of the builder: lines that differ only in their scalars place entries with the
same skeletons, under the same parents. -/
theorem foldl_placeLine_similar :
    ∀ {lines lines' : List Line}, List.Forall₂ Line.Retexted lines lines' →
      ∀ {b b' : Builder}, b.Similar b' → (lines.foldl placeLine b).Similar (lines'.foldl placeLine b')
  | [], [], .nil, _, _, hb => hb
  | l :: _, l' :: _, .cons h hs, _, _, hb => by
    refine foldl_placeLine_similar hs ?_
    unfold placeLine
    rw [h.level]
    exact placeTokens_similar h 0 _ l.tokens l'.tokens h.tags hb

/-- Gathering commutes with clearing names and ranges, which keeps ids and lines. -/
theorem gather_skeleton (p : Entry × Option Nat) (done : List (Option Nat × Node)) :
    gather (Prod.map Entry.skeleton id p) (done.map (Prod.map id (Node.mapEntries Entry.skeleton))) =
      (gather p done).map (Prod.map id (Node.mapEntries Entry.skeleton)) := by
  simp [gather, List.filter_map, Function.comp_def, List.foldl_map, Entry.skeleton]

theorem assemble_skeleton (placed : List (Entry × Option Nat)) :
    assemble (placed.map (Prod.map Entry.skeleton id)) =
      (assemble placed).map (Node.mapEntries Entry.skeleton) := by
  have hfold : (placed.map (Prod.map Entry.skeleton id)).foldr gather [] =
      (placed.foldr gather []).map (Prod.map id (Node.mapEntries Entry.skeleton)) := by
    induction placed with
    | nil => rfl
    | cons p ps ih => rw [List.map_cons, List.foldr_cons, ih, gather_skeleton, List.foldr_cons]
  simp [assemble, hfold, List.filter_map, Function.comp_def]

/-- Lines that differ only in their scalars build forests with the same skeletons. -/
theorem parse_skeleton {lines lines' : List Line} (h : List.Forall₂ Line.Retexted lines lines') :
    (parse lines').map (Node.mapEntries Entry.skeleton) = (parse lines).map (Node.mapEntries Entry.skeleton) := by
  have hsim := foldl_placeLine_similar h (show ({} : Builder).Similar {} from ⟨rfl, rfl⟩)
  rw [parse, parse, ← assemble_skeleton, ← assemble_skeleton]
  exact congrArg assemble hsim.2

/-! ### Nodes stand on scalar tokens -/

/-- The entries the tokens of a line add from `index` on stand on tokens with the scalar tag. -/
theorem placeTokens_scalar (line : Line) :
    ∀ (index : Nat) (c : Cursor) (b : Builder) (ts : List Token), ts = line.tokens.drop index →
      ∃ more, (placeTokens line index c b ts).placed = b.placed ++ more ∧
        ∀ p ∈ more, p.1.startLine = line.number ∧
          ∃ t, line.tokens[p.1.tokenIndex]? = some t ∧ .scalar ∈ t.tags
  | _, _, b, [], _ => ⟨[], by simp [placeTokens]⟩
  | index, c, b, t :: ts, hts => by
    obtain ⟨more, hm, hp, hl⟩ := placeTags_placed line index t.tags c b
    have ht : line.tokens[index]? = some t := by
      rw [← List.head?_drop, ← hts]
      rfl
    have hts' : ts = line.tokens.drop (index + 1) := by
      rw [← List.drop_drop, ← hts]
      rfl
    have hmore : ∀ p ∈ more, p.1.startLine = line.number ∧
        ∃ t, line.tokens[p.1.tokenIndex]? = some t ∧ .scalar ∈ t.tags := by
      intro p hp'
      obtain ⟨c', hc'⟩ := hp p hp'
      have hpos : 0 < t.tags.count .scalar := Nat.lt_of_lt_of_le (List.length_pos_of_mem hp') hl
      rw [hc']
      exact ⟨rfl, t, ht, List.count_pos_iff.1 hpos⟩
    unfold placeTokens
    split
    · rename_i c'' b' heq
      rw [heq] at hm
      obtain ⟨rest, hr, hrp⟩ := placeTokens_scalar line (index + 1) c'' b' ts hts'
      refine ⟨more ++ rest, by rw [hr, hm, List.append_assoc], fun p hp' => ?_⟩
      rcases List.mem_append.1 hp' with hp' | hp'
      · exact hmore p hp'
      · exact hrp p hp'
    · rename_i b' heq
      rw [heq] at hm
      exact ⟨more, hm, hmore⟩

theorem placements_scalar (lines : List Line) :
    ∀ p ∈ placements lines, ∃ l ∈ lines, l.number = p.1.startLine ∧
      ∃ t, l.tokens[p.1.tokenIndex]? = some t ∧ .scalar ∈ t.tags := by
  suffices h : ∀ b : Builder, ∃ more, (lines.foldl placeLine b).placed = b.placed ++ more ∧
      ∀ p ∈ more, ∃ l ∈ lines, l.number = p.1.startLine ∧
        ∃ t, l.tokens[p.1.tokenIndex]? = some t ∧ .scalar ∈ t.tags by
    obtain ⟨more, hm, hp⟩ := h {}
    intro p hp'
    rw [placements, hm] at hp'
    exact hp p (by simpa using hp')
  induction lines with
  | nil => exact fun b => ⟨[], by simp⟩
  | cons l ls ih =>
    intro b
    obtain ⟨more, hm, hp⟩ := placeTokens_scalar l 0 { level := l.level } b l.tokens rfl
    obtain ⟨rest, hr, hrp⟩ := ih (placeLine b l)
    refine ⟨more ++ rest, by rw [List.foldl_cons, hr, placeLine, hm, List.append_assoc], ?_⟩
    intro p hp'
    rcases List.mem_append.1 hp' with hp' | hp'
    · obtain ⟨hl, t, ht, hs⟩ := hp p hp'
      exact ⟨l, List.mem_cons_self, hl.symm, t, ht, hs⟩
    · obtain ⟨l', hl', rest'⟩ := hrp p hp'
      exact ⟨l', List.mem_cons_of_mem _ hl', rest'⟩

/-- Every node of a forest stands on a token with the scalar tag. -/
theorem parse_scalar {lines : List Line} :
    ∀ n ∈ Node.preorderAll (parse lines), ∃ l ∈ lines, l.number = n.entry.startLine ∧
      ∃ t, l.tokens[n.entry.tokenIndex]? = some t ∧ .scalar ∈ t.tags := by
  intro n hn
  obtain ⟨p, hp, he⟩ := Document.entry_of_parse hn
  obtain ⟨l, hl, hnum, t, ht, hs⟩ := placements_scalar lines p hp
  rw [he]
  exact ⟨l, hl, hnum, t, ht, hs⟩

end Forest

namespace Entry

/-- Two entries with one skeleton differ at most in their names and ranges. -/
theorem eq_of_skeleton {e e' : Entry} (h : e'.skeleton = e.skeleton) :
    e' = { e with name := e'.name, range := e'.range } := by
  cases e; cases e'
  simp only [skeleton, mk.injEq] at h ⊢
  simp [h]

end Entry

namespace Node

mutual

/-- Two trees with one skeleton are related by `mapEntries g` when every entry of the second is
`g` of the entry with the same skeleton in the first. -/
theorem eq_mapEntries_of_skeleton (g : Entry → Entry) :
    ∀ n n' : Node, mapEntries Entry.skeleton n' = mapEntries Entry.skeleton n →
      (∀ m ∈ preorder n, ∀ m' ∈ preorder n', m'.entry.skeleton = m.entry.skeleton →
        m'.entry = g m.entry) →
      n' = mapEntries g n
  | ⟨e, cs⟩, ⟨e', cs'⟩, h, hg => by
    simp only [mapEntries_mk, mk.injEq] at h
    have he : e' = g e := hg ⟨e, cs⟩ (mem_preorder_self _) ⟨e', cs'⟩ (mem_preorder_self _) h.1
    have hcs := eq_mapEntriesAll_of_skeleton g cs cs' h.2 fun m hm m' hm' =>
      hg m (List.mem_cons_of_mem _ hm) m' (List.mem_cons_of_mem _ hm')
    rw [mapEntries_mk, he, hcs]

theorem eq_mapEntriesAll_of_skeleton (g : Entry → Entry) :
    ∀ ns ns' : List Node, ns'.map (mapEntries Entry.skeleton) = ns.map (mapEntries Entry.skeleton) →
      (∀ m ∈ preorderAll ns, ∀ m' ∈ preorderAll ns', m'.entry.skeleton = m.entry.skeleton →
        m'.entry = g m.entry) →
      ns' = ns.map (mapEntries g)
  | [], [], _, _ => rfl
  | [], _ :: _, h, _ => by simp at h
  | _ :: _, [], h, _ => by simp at h
  | n :: ns, n' :: ns', h, hg => by
    simp only [List.map_cons, List.cons.injEq] at h
    rw [List.map_cons,
      eq_mapEntries_of_skeleton g n n' h.1 fun m hm m' hm' =>
        hg m (by simp [preorderAll_cons, hm]) m' (by simp [preorderAll_cons, hm']),
      eq_mapEntriesAll_of_skeleton g ns ns' h.2 fun m hm m' hm' =>
        hg m (by simp [preorderAll_cons, hm]) m' (by simp [preorderAll_cons, hm'])]

end

end Node

end YamlEdit
