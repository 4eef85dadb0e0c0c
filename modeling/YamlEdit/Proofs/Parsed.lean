import YamlEdit.Proofs.Forest
import YamlEdit.Proofs.Lookup
import YamlEdit.Proofs.Scan

/-!
# Freshly parsed documents

What a successful parse guarantees about the document it returns: its lines spell the text,
its forest is searchable, no node is marked, every node stands on a token of its own, and every
node spans lines of the document from its own line on.
-/

namespace YamlEdit

open Node Forest

/-- Distinct line numbers give every token of the lines a position of its own. -/
theorem tokenPositions_nodup {lines : List Line} (h : (lines.map Line.number).Nodup) :
    (tokenPositions lines).Nodup := by
  unfold tokenPositions
  rw [List.nodup_flatMap]
  refine ⟨fun l _ => (List.nodup_range' _).map fun a b hab => (Prod.mk.inj hab).2, ?_⟩
  refine (List.pairwise_map.1 h).imp fun {a b} hne x hxa hxb => ?_
  obtain ⟨_, _, rfl⟩ := List.mem_map.1 hxa
  obtain ⟨_, _, hx⟩ := List.mem_map.1 hxb
  exact hne (Prod.mk.inj hx).1.symm

section Lines

variable {lines : List Line} (hs : ∀ l ∈ lines, ∀ t ∈ l.tokens, Lexer.ScalarAlone t.tags)
include hs

/-- Each placed entry was placed for a token of one of the lines. -/
theorem placements_placedAt :
    ∀ p ∈ placements lines, ∃ l ∈ lines, ∃ i, PlacedAt l i p := by
  obtain ⟨more, hmore, hplaced, -⟩ := foldl_placeLine_placed lines hs {}
  intro p hp
  rw [placements, hmore] at hp
  exact hplaced p (by simpa using hp)

theorem position_mem_tokenPositions {p : Entry × Option Nat} (hp : p ∈ placements lines) :
    position p ∈ tokenPositions lines := by
  obtain ⟨more, hmore, -, hsub⟩ := foldl_placeLine_placed lines hs {}
  rw [placements, hmore, List.nil_append] at hp
  exact hsub.subset (List.mem_map_of_mem hp)

/-- Distinct line numbers give every placed entry a position of its own. -/
theorem placements_positions_nodup (hn : (lines.map Line.number).Nodup) :
    ((placements lines).map position).Nodup := by
  obtain ⟨more, hmore, -, hsub⟩ := foldl_placeLine_placed lines hs {}
  rw [placements, hmore]
  exact hsub.nodup (tokenPositions_nodup hn)

/-- With distinct line numbers, each placed entry is the unmarked entry of a token of one of
the lines, and is named by that token's text. -/
theorem placements_token (hn : (lines.map Line.number).Nodup) {p : Entry × Option Nat}
    (hp : p ∈ placements lines) : p.1.mark = .unmodified ∧ ∃ l ∈ lines, p.1.startLine = l.number ∧
      ∃ tk, l.tokens[p.1.tokenIndex]? = some tk ∧ p.1.name = tk.text := by
  obtain ⟨l, hl, i, c, hc⟩ := placements_placedAt hs p hp
  have hpos := position_mem_tokenPositions hs hp
  rw [position, hc] at hpos
  obtain ⟨l', hl', hmap⟩ := List.mem_flatMap.1 hpos
  obtain ⟨j, hj, hji⟩ := List.mem_map.1 hmap
  simp only [entryAt, Prod.mk.injEq] at hji
  have hll : l' = l := List.inj_on_of_nodup_map hn hl' hl hji.1
  subst hll
  rw [List.mem_range'_1] at hj
  have hi : i < l'.tokens.length := by omega
  rw [hc]
  exact ⟨rfl, l', hl', rfl, l'.tokens[i], List.getElem?_eq_getElem hi, by
    simp [entryAt, List.getElem?_eq_getElem hi]⟩

end Lines

namespace Document

/-- What a freshly parsed document guarantees. -/
structure Parsed (text : String) (d : Document) : Prop where
  scanned : Line.Scanned text d.lines
  searchable : Searchable d.roots
  unmarked : ∀ n ∈ preorderAll d.roots, n.entry.mark = .unmodified
  /-- No two nodes stand on the same token. -/
  positions : ∀ n ∈ preorderAll d.roots, ∀ m ∈ preorderAll d.roots,
    n.entry.startLine = m.entry.startLine → n.entry.tokenIndex = m.entry.tokenIndex → n = m
  /-- A node stands on a token of its line, and is named by that token's text. -/
  tokens : ∀ n ∈ preorderAll d.roots, ∃ l ∈ d.lines, l.number = n.entry.startLine ∧
    ∃ tk, l.tokens[n.entry.tokenIndex]? = some tk ∧ n.entry.name = tk.text
  /-- A node spans lines of the document, from its own line on. -/
  spans : ∀ n ∈ preorderAll d.roots,
    1 ≤ n.entry.startLine ∧ n.entry.startLine ≤ n.entry.endLine ∧ n.entry.endLine ≤ d.lines.length

/-- Every node of a parsed forest carries a placed entry, apart from its end line. -/
theorem entry_of_parse {lines : List Line} {n : Node} (hn : n ∈ preorderAll (Forest.parse lines)) :
    ∃ p ∈ placements lines, n.entry = { p.1 with endLine := n.entry.endLine } := by
  obtain ⟨p, hp, he⟩ := ((parse_assembledFrom lines).entries n hn).1
  exact ⟨p, List.mem_of_getElem? hp, he⟩

theorem parse_ok_of_isSome {rule : IndentRule} {text : String}
    (h : (Document.parse rule text).toOption.isSome = true) : ∃ d, Document.parse rule text = .ok d := by
  cases hp : Document.parse rule text with
  | error e =>
    rw [hp] at h
    cases h
  | ok d => exact ⟨d, rfl⟩

theorem scan_ok_of_isSome {rule : IndentRule} {text : String}
    (h : (Line.scan rule text).toOption.isSome = true) : ∃ lines, Line.scan rule text = .ok lines := by
  cases hs : Line.scan rule text with
  | error e =>
    rw [hs] at h
    cases h
  | ok lines => exact ⟨lines, rfl⟩

theorem parse_parsed {rule : IndentRule} {text : String} {d : Document}
    (h : Document.parse rule text = .ok d) : Parsed text d := by
  unfold Document.parse at h
  split at h
  · cases h
  rename_i lines hscan
  cases h
  have hs := Line.scan_scanned hscan
  have ha := parse_assembledFrom lines
  have hnum : (lines.map Line.number).Nodup := by
    rw [hs.numbers]
    exact List.nodup_range' _
  have hnode : ∀ n ∈ preorderAll (Forest.parse lines),
      n.entry.mark = .unmodified ∧ ∃ l ∈ lines, n.entry.startLine = l.number ∧
        ∃ tk, l.tokens[n.entry.tokenIndex]? = some tk ∧ n.entry.name = tk.text := by
    intro n hn
    obtain ⟨p, hp, he⟩ := entry_of_parse hn
    rw [he]
    exact placements_token hs.tokens_alone hnum hp
  have hline : ∀ n ∈ preorderAll (Forest.parse lines),
      1 ≤ n.entry.startLine ∧ n.entry.startLine ≤ lines.length := by
    intro n hn
    obtain ⟨l, hl, heq, -⟩ := (hnode n hn).2
    have hmem : l.number ∈ List.range' 1 lines.length := by
      rw [← hs.numbers]
      exact List.mem_map_of_mem hl
    rw [List.mem_range'_1] at hmem
    omega
  refine ⟨hs, ha.searchable, fun n hn => (hnode n hn).1, ?positions, ?tokens, ?spans⟩
  case tokens =>
    intro n hn
    obtain ⟨l, hl, heq, htk⟩ := (hnode n hn).2
    exact ⟨l, hl, heq.symm, htk⟩
  case positions =>
    intro n hn m hm hsl hti
    obtain ⟨p, hp, hen⟩ := entry_of_parse hn
    obtain ⟨q, hq, hem⟩ := entry_of_parse hm
    -- the two placed entries stand on one token, so they are one entry
    have hpos : position p = position q := by
      have hn1 : n.entry.startLine = p.1.startLine := by rw [hen]
      have hn2 : n.entry.tokenIndex = p.1.tokenIndex := by rw [hen]
      have hm1 : m.entry.startLine = q.1.startLine := by rw [hem]
      have hm2 : m.entry.tokenIndex = q.1.tokenIndex := by rw [hem]
      simp only [position]
      rw [← hn1, ← hn2, ← hm1, ← hm2, hsl, hti]
    have hpq := List.inj_on_of_nodup_map (placements_positions_nodup hs.tokens_alone hnum) hp hq hpos
    have hid : n.id = m.id := by
      have hn3 : n.id = p.1.id := by rw [Node.id, hen]
      have hm3 : m.id = q.1.id := by rw [Node.id, hem]
      rw [hn3, hm3, hpq]
    exact List.inj_on_of_nodup_map ha.searchable.nodup hn hm hid
  case spans =>
    intro n hn
    obtain ⟨hfirst, hlast⟩ := (ha.entries n hn).2
    obtain ⟨m, hm, hml⟩ := hlast
    have hmn := mem_preorderAll_trans _ hn hm
    have h1 := hline n hn
    have h2 := hline m hmn
    have h3 := hfirst n (mem_preorder_self n)
    refine ⟨h1.1, h3, ?_⟩
    show n.entry.endLine ≤ lines.length
    omega

theorem mem_of_line? {d : Document} {k : Nat} {line : Line} (h : d.line? k = some line) :
    line ∈ d.lines := by
  unfold line? at h
  split at h
  · cases h
  · exact List.mem_of_getElem? h

/-- A parsed document holds the lines of a successful scan and the forest built from them. -/
theorem scan_of_parse {rule : IndentRule} {t : String} {d : Document}
    (h : Document.parse rule t = .ok d) :
    Line.scan rule t = .ok d.lines ∧ d.roots = Forest.parse d.lines ∧ d.rule = rule := by
  unfold Document.parse at h
  split at h
  · cases h
  · rename_i lines hs
    cases h
    exact ⟨hs, rfl, rfl⟩

namespace Parsed

variable {text : String} {d : Document} (hp : Parsed text d)
include hp

theorem number_of_line? {k : Nat} {line : Line} (h : d.line? k = some line) : line.number = k := by
  unfold line? at h
  split at h
  · cases h
  rename_i hk
  have hlt : k - 1 < d.lines.length := (List.getElem?_eq_some_iff.1 h).1
  have hnum := congrArg (·[k - 1]?) hp.scanned.numbers
  simp only [List.getElem?_map, h, Option.map_some, List.getElem?_range' hlt] at hnum
  have := Option.some.inj hnum
  omega

theorem line?_of_mem {l : Line} (hl : l ∈ d.lines) : d.line? l.number = some l := by
  obtain ⟨j, hj, rfl⟩ := List.mem_iff_getElem.1 hl
  have hnum := congrArg (·[j]?) hp.scanned.numbers
  simp only [List.getElem?_map, List.getElem?_eq_getElem hj, Option.map_some,
    List.getElem?_range' hj] at hnum
  have hj1 : d.lines[j].number = 1 + j := by simpa using hnum
  unfold line?
  rw [hj1, if_neg (by omega), show 1 + j - 1 = j by omega, List.getElem?_eq_getElem hj]

theorem line_eq {l l' : Line} (hl : l ∈ d.lines) (hl' : l' ∈ d.lines) (h : l.number = l'.number) :
    l = l' := by
  have hnum : (d.lines.map Line.number).Nodup := by
    rw [hp.scanned.numbers]
    exact List.nodup_range' _
  exact List.inj_on_of_nodup_map hnum hl hl' h

/-- After marking a freshly parsed document, the listed nodes carry the mark and the others
none. -/
theorem entry_of_markAll {targets : List Nat} {mark : Mark} {e : Entry}
    (he : e ∈ (Mutation.markAll d targets mark).entries) : ∃ n ∈ preorderAll d.roots,
      e = { n.entry with mark := if n.id ∈ targets then mark else .unmodified } := by
  obtain ⟨n, hn, rfl⟩ := (Mutation.mem_entries_markAll _ hp.searchable).1 he
  refine ⟨n, hn, ?_⟩
  rw [Mutation.marked_eq, hp.unmarked n hn]
  rfl

/-- An entry that carries a mark after marking a freshly parsed document is a listed node's. -/
theorem target_of_markAll {targets : List Nat} {mark : Mark} {e : Entry}
    (he : e ∈ (Mutation.markAll d targets mark).entries) (hm : e.mark ≠ .unmodified) :
    ∃ n ∈ preorderAll d.roots, n.id ∈ targets ∧ e = { n.entry with mark } := by
  obtain ⟨n, hn, rfl⟩ := hp.entry_of_markAll he
  by_cases hT : n.id ∈ targets
  · exact ⟨n, hn, hT, by rw [if_pos hT]⟩
  · simp [hT] at hm

theorem mem_markAll_of_target {targets : List Nat} {mark : Mark} {n : Node}
    (hn : n ∈ preorderAll d.roots) (hT : n.id ∈ targets) :
    { n.entry with mark } ∈ (Mutation.markAll d targets mark).entries := by
  have he : Mutation.marked targets mark n.entry ∈ (Mutation.markAll d targets mark).entries :=
    (Mutation.mem_entries_markAll mark hp.searchable).2 ⟨n, hn, rfl⟩
  rwa [Mutation.marked_eq, if_pos (show n.entry.id ∈ targets from hT)] at he

end Parsed

end Document

end YamlEdit
