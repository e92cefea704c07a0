import MultiPattern.Proofs.Rounds
import MultiPattern.Search

/-!
# What a scan comes to

A scan reads its text byte by byte. Before every byte it keeps what settling on
the text so far keeps, and what it reports at a byte is what is heard at the end
of the text so far, under a leftmost rule the first of it. It goes on to the end
of the text or to the first byte after which there would be nothing to go on
with (`Cursor.Ended`).

`Cursor.Between` is the invariant that carries this from one byte to the next,
and `scan_gives` is the result. From there on nothing is said of states any
more: the hits of a scan are a function of the lexicon and the text, `hits`, up
to where the scan ends.
-/

namespace MultiPattern

namespace Lexicon

/-- What is reported at the bytes of `text` before the offset `m`. -/
def hits (L : Lexicon) (text : Bytes) (m : Nat) : List Hit :=
  (List.range m).flatMap fun n =>
    (Cursor.reported L.kind (L.heard (text.take (n + 1)))).map (Hit.mk · n)

variable {L : Lexicon} {text w : Bytes} {m n : Nat} {p : PatternId} {h : Hit}

theorem hits_succ :
    L.hits text (m + 1) =
      L.hits text m ++ (Cursor.reported L.kind (L.heard (text.take (m + 1)))).map (Hit.mk · m) := by
  rw [hits, hits, List.range_succ, List.flatMap_append, List.flatMap_singleton]

theorem mem_hits :
    h ∈ L.hits text m ↔
      h.last < m ∧ h.pattern ∈ Cursor.reported L.kind (L.heard (text.take (h.last + 1))) := by
  rw [hits, List.mem_flatMap]
  refine ⟨fun hex => ?_, fun hand => ?_⟩
  · obtain ⟨n, hn, hmem⟩ := hex
    obtain ⟨p, hp, rfl⟩ := List.mem_map.1 hmem
    exact ⟨List.mem_range.1 hn, hp⟩
  · exact ⟨h.last, List.mem_range.2 hand.1, List.mem_map.2 ⟨h.pattern, hand.2, rfl⟩⟩

theorem filter_hits (hn : n < m) :
    (L.hits text m).filter (fun h => h.last = n) =
      (Cursor.reported L.kind (L.heard (text.take (n + 1)))).map (Hit.mk · n) := by
  induction m with
  | zero => exact absurd hn (Nat.not_lt_zero n)
  | succ m ih =>
      rw [hits_succ, List.filter_append]
      rcases Nat.lt_succ_iff_lt_or_eq.1 hn with hlt | rfl
      · have hrest : ∀ ps : List PatternId,
            (ps.map (Hit.mk · m)).filter (fun h => decide (h.last = n)) = [] := by
          intro ps
          rw [List.filter_eq_nil_iff]
          intro h hh
          obtain ⟨p, -, rfl⟩ := List.mem_map.1 hh
          have hne : m ≠ n := (Nat.ne_of_lt hlt).symm
          simpa using hne
        rw [ih hlt, hrest, List.append_nil]
      · have hbefore : (L.hits text n).filter (fun h => decide (h.last = n)) = [] := by
          rw [List.filter_eq_nil_iff]
          intro h hh
          have hne : h.last ≠ n := Nat.ne_of_lt (mem_hits.1 hh).1
          simpa using hne
        rw [hbefore, List.nil_append, List.filter_eq_self]
        intro h hh
        obtain ⟨p, -, rfl⟩ := List.mem_map.1 hh
        exact decide_eq_true rfl

theorem pairwise_reported (kind : MatchKind) {ps : List PatternId}
    (h : ps.Pairwise (·.index < ·.index)) :
    (Cursor.reported kind ps).Pairwise (·.index < ·.index) := by
  rw [Cursor.reported]
  split
  · exact h.sublist (List.take_sublist 1 ps)
  · exact h

/-- Hits come by the byte they end at, and at one byte by pattern. -/
theorem pairwise_hits (L : Lexicon) (text : Bytes) (m : Nat) :
    (L.hits text m).Pairwise fun g h =>
      g.last < h.last ∨ g.last = h.last ∧ g.pattern.index < h.pattern.index := by
  induction m with
  | zero => exact List.Pairwise.nil
  | succ m ih =>
      rw [hits_succ, List.pairwise_append]
      refine ⟨ih, ?_, ?_⟩
      · rw [List.pairwise_map]
        exact (pairwise_reported L.kind (pairwise_heard L _)).imp fun hlt => Or.inr ⟨rfl, hlt⟩
      · intro g hg h hh
        obtain ⟨p, -, rfl⟩ := List.mem_map.1 hh
        exact Or.inl (mem_hits.1 hg).1

/-- No more is reported at a byte than there are patterns. -/
theorem length_hits_le {count : Nat} (hfew : ∀ w, (L.heard w).length ≤ count) :
    (L.hits text m).length ≤ m * count := by
  induction m with
  | zero => exact Nat.zero_le _
  | succ m ih =>
      have hle : (Cursor.reported L.kind (L.heard (text.take (m + 1)))).length ≤ count := by
        refine Nat.le_trans ?_ (hfew (text.take (m + 1)))
        rw [Cursor.reported]
        split
        · exact List.length_take_le' _ _
        · exact Nat.le_refl _
      rw [hits_succ, List.length_append, List.length_map, Nat.succ_mul]
      exact Nat.add_le_add ih hle

theorem exists_mem_outputs_of_mem_heard (hp : p ∈ L.heard w) : ∃ u, u <:+ w ∧ p ∈ L.outputs u := by
  induction w with
  | nil => exact ⟨[], List.suffix_rfl, hp⟩
  | cons b w ih =>
      rw [heard] at hp
      split at hp
      · exact ⟨b :: w, List.suffix_rfl, hp⟩
      · split at hp
        · cases hp
        · rcases PatternId.mem_merge.1 hp with hp | hp
          · exact ⟨b :: w, List.suffix_rfl, hp⟩
          · obtain ⟨u, hu, hpu⟩ := ih hp
            exact ⟨u, hu.trans (List.suffix_cons b w), hpu⟩

theorem mem_reported {kind : MatchKind} {ps : List PatternId} (h : p ∈ Cursor.reported kind ps) :
    p ∈ ps := by
  rw [Cursor.reported] at h
  split at h
  · exact List.mem_of_mem_take h
  · exact h

/-- What is reported ends there. -/
theorem exists_suffix_of_mem_hits {kind : MatchKind} {words : List Bytes}
    (hh : h ∈ (ofWords kind words).hits text m) :
    h.last < m ∧ ∃ u, words[h.pattern.index]? = some u ∧ u <:+ text.take (h.last + 1) := by
  obtain ⟨hlt, hp⟩ := mem_hits.1 hh
  obtain ⟨u, hsuffix, hu⟩ := exists_mem_outputs_of_mem_heard (mem_reported hp)
  exact ⟨hlt, u, (mem_registeredAs.1 hu).1, hsuffix⟩

theorem length_heard_ofWords_le (kind : MatchKind) (words : List Bytes) (w : Bytes) :
    ((ofWords kind words).heard w).length ≤ words.length := by
  have hnodup : ((ofWords kind words).heard w).Nodup :=
    PatternId.nodup_of_pairwise (pairwise_heard _ w)
  have hsub : (ofWords kind words).heard w ⊆ PatternId.upTo words.length := by
    intro p hp
    obtain ⟨u, -, hu⟩ := exists_mem_outputs_of_mem_heard hp
    exact PatternId.mem_upTo.2 (mem_registeredAs.1 hu).lt_length
  have hle := List.Nodup.length_le_of_subset hnodup hsub
  rwa [PatternId.upTo, List.length_map, List.length_range] at hle

end Lexicon

theorem Automaton.patternCount_compile (st : Settings) (patterns : List Bytes) :
    (compile st patterns).patternCount = patterns.length :=
  (Trie.length_lengths_ofPatterns st patterns).trans (List.length_map _)

/-- What patterns are compiled to is the automaton of their lexicon. -/
theorem Automaton.of_compile (st : Settings) (patterns : List Bytes) :
    (compile st patterns).Of (.ofWords st.kind (patterns.map st.canon)) where
  compiled := Trie.compiled_ofPatterns st patterns
  kind := rfl
  few w := by
    rw [patternCount_compile, ← List.length_map st.canon]
    exact Lexicon.length_heard_ofWords_le _ _ w

namespace Cursor

/-- The scan of a text has ended here: every byte before was read, and the next
one may not be or is not there. Asking again changes nothing. -/
structure Ended (c : Cursor) (L : Lexicon) (text : Bytes) : Prop where
  before : ∀ n < c.position, ¬ L.Stops (L.settle (text.take (n + 1)))
  ending :
    (c.dead = true ∧ c.position < text.length ∧
      L.Stops (L.settle (text.take (c.position + 1)))) ∨
    (c.dead = false ∧ c.position = text.length)
  asked : c.next = (none, c)

/-- The cursor stands between two bytes, with nothing left to report. -/
structure Between (c : Cursor) (L : Lexicon) (text : Bytes) : Prop where
  automaton : c.automaton.Of L
  haystack : c.haystack.toList.map c.canonical = text
  position : c.position ≤ text.length
  before : ∀ n < c.position, ¬ L.Stops (L.settle (text.take (n + 1)))
  state : ∃ w, L.settle (text.take c.position) = some w ∧ c.state = L.strings.id w
  pending : c.pending = []
  alive : c.dead = false

variable {c : Cursor} {L : Lexicon} {text : Bytes} {hits : List Hit}

theorem Ended.position_le (h : c.Ended L text) : c.position ≤ text.length := by
  rcases h.ending with ⟨-, hlt, -⟩ | ⟨-, heq⟩
  · exact Nat.le_of_lt hlt
  · exact Nat.le_of_eq heq

/-- What is pending is given first. -/
theorem gives_of_pending {ps : List PatternId} (hp : c.pending = ps) {c' : Cursor}
    (h : Feed.Gives { c with pending := [] } hits c') :
    Feed.Gives c (ps.map (Hit.mk · c.pendingLast) ++ hits) c' := by
  induction ps generalizing c with
  | nil =>
      rw [← hp] at h
      exact h
  | cons p ps ih =>
      have hnext : c.next = (some ⟨p, c.pendingLast⟩, { c with pending := ps }) := by
        rw [next, go, round_of_pending hp]
      exact Feed.Gives.cons hnext (ih (c := { c with pending := ps }) rfl h)

/-- After entering a state its reports are given, and then the scan goes on from
there. -/
theorem gives_enter (hp : c.pending = []) (target : StateId) :
    ∃ last, ∀ hits c',
      Feed.Gives
        { c with state := target, position := c.position + 1, pending := [], pendingLast := last }
        hits c' →
      Feed.Gives (c.enter target)
        ((reported c.automaton.settings.kind (c.automaton.arena.state target).outputs).map
          (Hit.mk · c.position) ++ hits) c' := by
  obtain ⟨last, henter, hlast⟩ := enter_eq hp target
  refine ⟨last, ?_⟩
  intro hits c' hgives
  -- With nothing to report, the offset of the last report does not matter.
  have hreported : ∀ outputs : List PatternId, (outputs ≠ [] → last = c.position) →
      (reported c.automaton.settings.kind outputs).map (Hit.mk · c.position) =
        (reported c.automaton.settings.kind outputs).map (Hit.mk · last) := by
    intro outputs hl
    cases outputs with
    | nil => simp [reported]
    | cons p rest => rw [hl (List.cons_ne_nil p rest)]
  rw [hreported _ hlast, henter]
  exact gives_of_pending rfl hgives

theorem next_of_round_over (h : c.round = .over c) : c.next = (none, c) := by
  rw [next, go, h]

/-- There is a byte to read, and the text goes on with what stands for it. -/
theorem byte_of_lt (htext : c.haystack.toList.map c.canonical = text)
    (hlt : c.position < text.length) :
    ∃ b, c.haystack[c.position]? = some b ∧
      text.take (c.position + 1) = text.take c.position ++ [c.canonical b] := by
  have hsize : c.position < c.haystack.size := by
    rw [← htext, List.length_map, Array.length_toList] at hlt
    exact hlt
  refine ⟨c.haystack[c.position], Array.getElem?_eq_getElem hsize, ?_⟩
  rw [List.take_succ_eq_append_getElem hlt]
  simp [← htext]

theorem no_byte_of_eq (htext : c.haystack.toList.map c.canonical = text)
    (hend : c.position = text.length) : c.haystack[c.position]? = none := by
  rw [Array.getElem?_eq_none_iff, hend, ← htext, List.length_map, Array.length_toList]

/-- In the state of what it settles on, a scan stops before the next byte or enters
the state of what it settles on with it. -/
theorem next_of_settle {w : Bytes} (hof : c.automaton.Of L)
    (htext : c.haystack.toList.map c.canonical = text)
    (hw : L.settle (text.take c.position) = some w) (hstate : c.state = L.strings.id w)
    (hp : c.pending = []) (hd : c.dead = false) (hlt : c.position < text.length) :
    (L.Stops (L.settle (text.take (c.position + 1))) ∧
        ∃ s, (s = .start ∨ s = .dead) ∧ c.next = (none, { c with state := s, dead := true })) ∨
      ∃ u, L.settle (text.take (c.position + 1)) = some u ∧ ¬ L.Stops (some u) ∧
        c.next = (c.enter (L.strings.id u)).next := by
  obtain ⟨b, hb, htake⟩ := byte_of_lt htext hlt
  have hkeeps : c.Keeps L (some w) :=
    ⟨hof, hstate, fun v hv => Option.some.inj hv ▸ (Lexicon.settle_eq_some hw).2⟩
  have hsettle : L.settle (text.take (c.position + 1)) =
      (some w).bind fun w => L.settle (w ++ [c.canonical b]) := by
    rw [htake, Lexicon.settle_concat, hw]
  have hbyte := hkeeps.next_byte hp hd hb
  rw [← hsettle] at hbyte
  by_cases hstops : L.Stops (L.settle (text.take (c.position + 1)))
  · exact Or.inl ⟨hstops, hbyte.1 hstops⟩
  · obtain ⟨u, hu⟩ : ∃ u, L.settle (text.take (c.position + 1)) = some u :=
      Option.ne_none_iff_exists'.1 fun hnone => hstops (Or.inl hnone)
    rw [hu] at hstops
    exact Or.inr ⟨u, hu, hstops, hbyte.2 u hu hstops⟩

namespace Between

theorem at_end (h : c.Between L text) (hend : c.position = text.length) :
    Feed.Gives c [] c ∧ c.Ended L text := by
  have hnone := no_byte_of_eq h.haystack hend
  have hnext := next_of_round_over (round_at_end h.pending hnone)
  exact ⟨Feed.Gives.nil hnext, h.before, Or.inr ⟨h.alive, hend⟩, hnext⟩

/-- The next byte: the scan stops before it, or goes on behind it after giving
the hits there. -/
theorem at_byte (h : c.Between L text) (hlt : c.position < text.length) :
    (∃ c', Feed.Gives c [] c' ∧ c'.position = c.position ∧ c'.Ended L text) ∨
      ∃ c₁, c₁.Between L text ∧ c₁.position = c.position + 1 ∧
        ∀ hits c', Feed.Gives c₁ hits c' →
          Feed.Gives c ((reported L.kind (L.heard (text.take (c.position + 1)))).map
            (Hit.mk · c.position) ++ hits) c' := by
  obtain ⟨w, hw, hstate⟩ := h.state
  rcases next_of_settle h.automaton h.haystack hw hstate h.pending h.alive hlt with
    ⟨hstops, s, -, hnext⟩ | ⟨u, hu, hgoes, hnext⟩
  · refine Or.inl ⟨_, Feed.Gives.nil hnext, rfl, h.before, Or.inl ⟨rfl, hlt, hstops⟩, ?_⟩
    exact next_of_round_over (round_of_dead h.pending rfl)
  · rw [← hu] at hgoes
    obtain ⟨last, henter⟩ := gives_enter h.pending (L.strings.id u)
    rw [h.automaton.compiled.outputs u (Lexicon.settle_eq_some hu).2,
      ← Lexicon.heard_of_settle_eq_some hu, h.automaton.kind] at henter
    have hbetween : Between
        { c with
          state := L.strings.id u
          position := c.position + 1
          pending := []
          pendingLast := last } L text := by
      refine ⟨h.automaton, h.haystack, hlt, ?_, ⟨u, hu, rfl⟩, rfl, h.alive⟩
      intro n hn
      rcases Nat.lt_succ_iff_lt_or_eq.1 hn with hn | rfl
      · exact h.before n hn
      · exact hgoes
    refine Or.inr ⟨_, hbetween, rfl, ?_⟩
    intro hits c' hgives
    exact (henter hits c' hgives).of_next_eq hnext

/-- What is given from here on completes the hits. -/
theorem gives (h : c.Between L text) :
    ∃ hits c', Feed.Gives c hits c' ∧ c'.Ended L text ∧
      L.hits text c.position ++ hits = L.hits text c'.position := by
  -- On the number of bytes that are left.
  induction hn : text.length - c.position generalizing c with
  | zero =>
      have hend : c.position = text.length := Nat.le_antisymm h.position (Nat.le_of_sub_eq_zero hn)
      exact ⟨[], c, (h.at_end hend).1, (h.at_end hend).2, List.append_nil _⟩
  | succ n ih =>
      rcases h.at_byte (by omega) with ⟨c', hgives, hpos, hended⟩ | ⟨c₁, h₁, hpos, hgives⟩
      · exact ⟨[], c', hgives, hended, by rw [List.append_nil, hpos]⟩
      · obtain ⟨hits, c', hrest, hended, heq⟩ := ih h₁ (by omega)
        refine ⟨_, c', hgives hits c' hrest, hended, ?_⟩
        rw [← List.append_assoc, ← Lexicon.hits_succ, ← hpos, heq]

end Between

end Cursor

/-! ## The whole scan -/

/-- What a scan gives from beginning to end. -/
theorem Automaton.Of.scan_gives {a : Automaton} {L : Lexicon} (h : a.Of L) (haystack : Bytes) :
    ∃ c, Feed.Gives (a.scan haystack) (L.hits (a.settings.canon haystack) c.position) c ∧
      c.Ended L (a.settings.canon haystack) := by
  have hstart : (a.scan haystack).Between L (a.settings.canon haystack) := by
    refine ⟨h, rfl, Nat.zero_le _, ?_, ⟨[], rfl, rfl⟩, rfl, rfl⟩
    intro n hn
    exact absurd hn (Nat.not_lt_zero n)
  obtain ⟨hits, c, hgives, hended, heq⟩ := hstart.gives
  refine ⟨c, ?_, hended⟩
  rwa [← heq]

/-- Draining a scan asks often enough. -/
theorem Automaton.drain_scan (st : Settings) (patterns : List Bytes) (haystack : Bytes) :
    ∃ c hits, Feed.Gives ((compile st patterns).scan haystack) hits c ∧
      Feed.drain ((compile st patterns).scan haystack) = (hits, c) ∧
      hits = Lexicon.hits (.ofWords st.kind (patterns.map st.canon)) (st.canon haystack)
        c.position ∧
      c.Ended (.ofWords st.kind (patterns.map st.canon)) (st.canon haystack) := by
  have hof := of_compile st patterns
  obtain ⟨c, hgives, hended⟩ := hof.scan_gives haystack
  refine ⟨c, _, hgives, hgives.drain_eq ?_, rfl, hended⟩
  have hposition := hended.position_le
  rw [Settings.length_canon] at hposition
  show _ ≤ 0 + (haystack.toArray.size - 0) * (compile st patterns).patternCount
  rw [Nat.zero_add, Nat.sub_zero, List.size_toArray]
  exact Nat.le_trans (Lexicon.length_hits_le hof.few) (Nat.mul_le_mul_right _ hposition)

namespace Search

theorem take_eq (m : Matcher) (c : Cursor) (n : Nat) :
    Feed.take n (⟨m, c⟩ : Search) =
      ((Feed.take n c).1.map m.occurrence, ⟨m, (Feed.take n c).2⟩) := by
  induction n generalizing c with
  | zero => rfl
  | succ n ih =>
      have hnext : Feed.next (⟨m, c⟩ : Search) =
          ((Feed.next c).1.map m.occurrence, ⟨m, (Feed.next c).2⟩) := rfl
      rw [Feed.take, Feed.take, hnext]
      cases hitem : Feed.next c with
      | mk item c' =>
          cases item with
          | none => rfl
          | some hit => simp only [Option.map_some, ih, List.map_cons]

end Search

namespace Matcher

variable {st : Settings} {patterns : List Bytes} {h : Hit} {x : Occurrence}

/-- The occurrence of a hit has the bytes of its pattern, and ends where the
hit does. -/
theorem occurrence_eq_iff {bytes : Bytes} (hp : patterns[h.pattern.index]? = some bytes)
    (hlen : bytes.length ≤ h.last + 1) :
    (build st patterns).occurrence h = x ↔
      x.pattern = h.pattern ∧ x.bytes = bytes ∧ x.last = h.last ∧
        x.start + x.bytes.length = x.last + 1 := by
  have hbytes : patterns.toArray.getD h.pattern.index [] = bytes := by
    simp [hp]
  have hocc : (build st patterns).occurrence h =
      ⟨h.pattern, bytes, h.last + 1 - bytes.length, h.last⟩ := by
    show Occurrence.mk h.pattern (patterns.toArray.getD h.pattern.index [])
      (h.last + 1 - (patterns.toArray.getD h.pattern.index []).length) h.last = _
    rw [hbytes]
  rw [hocc]
  refine ⟨?_, ?_⟩
  · intro heq
    subst heq
    exact ⟨rfl, rfl, rfl, Nat.sub_add_cancel hlen⟩
  · intro hx
    obtain ⟨p, w, s, e⟩ := x
    obtain ⟨rfl, rfl, rfl, hs⟩ := hx
    rw [← hs, Nat.add_sub_cancel]

theorem length_le_of_suffix_take {bytes haystack : Bytes} {n : Nat}
    (hsuffix : st.canon bytes <:+ st.canon (haystack.take n)) : bytes.length ≤ n := by
  have hle := hsuffix.length_le
  rw [Settings.length_canon, Settings.length_canon] at hle
  exact hle.trans (List.length_take_le n haystack)

/-- What is reported, without the way from a hit to its occurrence. -/
theorem mem_map_occurrence_hits {kind : MatchKind} {haystack : Bytes} {n : Nat} :
    x ∈ ((Lexicon.ofWords kind (patterns.map st.canon)).hits (st.canon haystack) n).map
        (build st patterns).occurrence ↔
      patterns[x.pattern.index]? = some x.bytes ∧
        ⟨x.pattern, x.last⟩ ∈
          (Lexicon.ofWords kind (patterns.map st.canon)).hits (st.canon haystack) n ∧
        x.start + x.bytes.length = x.last + 1 := by
  -- The bytes of a hit's pattern end where the hit does, so they fit in front.
  have hfits : ∀ h ∈ (Lexicon.ofWords kind (patterns.map st.canon)).hits (st.canon haystack) n,
      ∃ bytes, patterns[h.pattern.index]? = some bytes ∧ bytes.length ≤ h.last + 1 := by
    intro h hh
    obtain ⟨-, u, hu, hsuffix⟩ := Lexicon.exists_suffix_of_mem_hits hh
    rw [List.getElem?_map, Option.map_eq_some_iff] at hu
    obtain ⟨bytes, hp, rfl⟩ := hu
    rw [← Settings.canon_take] at hsuffix
    exact ⟨bytes, hp, length_le_of_suffix_take hsuffix⟩
  rw [List.mem_map]
  refine ⟨fun hex => ?_, fun hx => ?_⟩
  · obtain ⟨h, hh, hocc⟩ := hex
    obtain ⟨bytes, hp, hle⟩ := hfits h hh
    obtain ⟨hpattern, rfl, hlast, hstart⟩ := (occurrence_eq_iff hp hle).1 hocc
    rw [hpattern, hlast]
    rw [hlast] at hstart
    exact ⟨hp, hh, hstart⟩
  · obtain ⟨hp, hh, hstart⟩ := hx
    exact ⟨_, hh, (occurrence_eq_iff hp (by show _ ≤ x.last + 1; omega)).2 ⟨rfl, rfl, rfl, hstart⟩⟩

theorem drain_search (m : Matcher) (haystack : Bytes) :
    Feed.drain (m.search haystack) =
      ((Feed.drain (m.automaton.scan haystack)).1.map m.occurrence,
        ⟨m, (Feed.drain (m.automaton.scan haystack)).2⟩) :=
  Search.take_eq m _ _

theorem findAll_eq (st : Settings) (patterns : List Bytes) (haystack : Bytes) :
    ∃ c : Cursor, (build st patterns).findAll haystack =
        (Lexicon.hits (.ofWords st.kind (patterns.map st.canon)) (st.canon haystack)
          c.position).map (build st patterns).occurrence ∧
      c.Ended (.ofWords st.kind (patterns.map st.canon)) (st.canon haystack) := by
  obtain ⟨c, hits, -, hdrain, rfl, hended⟩ := Automaton.drain_scan st patterns haystack
  refine ⟨c, ?_, hended⟩
  rw [findAll, Feed.rest, drain_search]
  show (Feed.drain ((Automaton.compile st patterns).scan haystack)).1.map _ = _
  rw [hdrain]

end Matcher

end MultiPattern
