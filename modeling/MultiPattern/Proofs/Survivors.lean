import MultiPattern.Proofs.Checked
import MultiPattern.Proofs.Likeness
import MultiPattern.Proofs.Pruning

/-!
# What is given up leaves nothing behind

A pattern that is given up could as well not have been given. The patterns that
are kept are kept in the list of these alone, where nothing that would have one
given up has come to stand before it, and so the two lists have the same strings
in the same order. Only the names of the patterns close up. Renaming keeps their
order (`originalId`), and with that the lexicons are the same up to renaming, the
arenas are alike and so are the scans.

What a list of patterns still has from those given up is the lengths, and with
them the number of patterns and the least and the greatest length, and the notes and
the count of the tree.
-/

namespace MultiPattern

/-- The names of the registered patterns, in order. -/
def keptIds (kind : MatchKind) (words : List Bytes) : List PatternId :=
  (words.zipIdx.filter fun e => Registered kind words ⟨e.2⟩ e.1).map fun e => ⟨e.2⟩

/-- The name that a pattern of those that are kept has among all. Behind the
last of them the names go on behind the last of all. -/
def originalId (kind : MatchKind) (words : List Bytes) (q : PatternId) : PatternId :=
  (keptIds kind words)[q.index]?.getD ⟨words.length + q.index⟩

variable {kind : MatchKind} {words : List Bytes} {w : Bytes} {p q : PatternId} {i : Nat}

theorem length_keptIds (kind : MatchKind) (words : List Bytes) :
    (keptIds kind words).length = (kept kind words).length := by
  simp only [keptIds, kept, List.length_map]

theorem pairwise_keptIds (kind : MatchKind) (words : List Bytes) :
    (keptIds kind words).Pairwise (·.index < ·.index) := by
  refine List.pairwise_map.2 (List.Pairwise.filter _ ?_)
  rw [List.pairwise_iff_getElem]
  intro i j hi hj hij
  simpa using hij

theorem lt_of_getElem?_keptIds {j : Nat} (hp : (keptIds kind words)[i]? = some p)
    (hq : (keptIds kind words)[j]? = some q) (hij : i < j) : p.index < q.index := by
  obtain ⟨hi, rfl⟩ := List.getElem?_eq_some_iff.1 hp
  obtain ⟨hj, rfl⟩ := List.getElem?_eq_some_iff.1 hq
  exact List.pairwise_iff_getElem.1 (pairwise_keptIds kind words) i j hi hj hij

theorem mem_keptIds : p ∈ keptIds kind words ↔ ∃ w, Registered kind words p w := by
  simp only [keptIds, List.mem_map, List.mem_filter, decide_eq_true_eq]
  refine ⟨fun h => ?_, fun h => ?_⟩
  · obtain ⟨⟨w, i⟩, ⟨-, hw⟩, rfl⟩ := h
    exact ⟨w, hw⟩
  · obtain ⟨w, hw⟩ := h
    exact ⟨(w, p.index), ⟨List.mem_zipIdx_iff_getElem?.2 hw.1, hw⟩, rfl⟩

/-- The patterns that are kept and their names go side by side. -/
theorem getElem?_kept :
    (kept kind words)[i]? = some w ↔
      ∃ p, (keptIds kind words)[i]? = some p ∧ Registered kind words p w := by
  simp only [kept, keptIds, List.getElem?_map, Option.map_eq_some_iff]
  refine ⟨fun h => ?_, fun h => ?_⟩
  · obtain ⟨e, he, rfl⟩ := h
    have hreg := (List.mem_filter.1 (List.mem_of_getElem? he)).2
    exact ⟨_, ⟨e, he, rfl⟩, by simpa using hreg⟩
  · obtain ⟨_, ⟨e, he, rfl⟩, hw⟩ := h
    have hreg := (List.mem_filter.1 (List.mem_of_getElem? he)).2
    rw [decide_eq_true_eq] at hreg
    exact ⟨e, he, Option.some.inj (hreg.1.symm.trans hw.1)⟩

theorem originalId_of_getElem? (h : (keptIds kind words)[q.index]? = some p) :
    originalId kind words q = p := by
  rw [originalId, h, Option.getD_some]

theorem getElem?_keptIds (h : q.index < (kept kind words).length) :
    (keptIds kind words)[q.index]? = some (originalId kind words q) := by
  rw [← length_keptIds] at h
  rw [originalId, List.getElem?_eq_getElem h, Option.getD_some]

theorem keepsOrder_originalId (kind : MatchKind) (words : List Bytes) :
    PatternId.KeepsOrder (originalId kind words) := by
  intro q r hqr
  have hbound : ∀ {p}, p ∈ keptIds kind words → p.index < words.length := by
    intro p hp
    obtain ⟨w, hw⟩ := mem_keptIds.1 hp
    exact hw.lt_length
  -- A place in the list comes before the next one, and before all behind the end.
  rw [originalId, originalId]
  cases hr : (keptIds kind words)[r.index]? with
  | some r' =>
      have hlt := (List.getElem?_eq_some_iff.1 hr).1
      have hq := List.getElem?_eq_getElem (Nat.lt_trans hqr hlt)
      rw [hq]
      exact lt_of_getElem?_keptIds hq hr hqr
  | none =>
      cases hq : (keptIds kind words)[q.index]? with
      | some q' =>
          exact Nat.lt_add_right _ (hbound (List.mem_of_getElem? hq))
      | none => exact Nat.add_lt_add_left hqr _

/-! ## Nothing more is given up -/

/-- All that are kept stay so without the others. -/
theorem registered_kept_iff :
    Registered kind (kept kind words) q w ↔ (kept kind words)[q.index]? = some w := by
  refine and_iff_left_of_imp fun hq hgiven => ?_
  -- What comes before it there came before it among all.
  obtain ⟨p, hp, hreg⟩ := getElem?_kept.1 hq
  obtain ⟨hk, u, hu, hbegins⟩ := hgiven
  obtain ⟨j, hj⟩ := List.getElem?_of_mem hu
  rw [List.getElem?_take] at hj
  split at hj
  · next hlt =>
      obtain ⟨r, hr, hru⟩ := getElem?_kept.1 hj
      have hrp := lt_of_getElem?_keptIds hr hp hlt
      refine hreg.2 ⟨hk, u, List.mem_of_getElem? (i := r.index) ?_, hbegins⟩
      rw [List.getElem?_take_of_lt hrp]
      exact hru.1
  · cases hj

theorem kept_kept (kind : MatchKind) (words : List Bytes) :
    kept kind (kept kind words) = kept kind words := by
  have hall : ∀ e ∈ (kept kind words).zipIdx,
      decide (Registered kind (kept kind words) ⟨e.2⟩ e.1) = true := by
    intro e he
    exact decide_eq_true (registered_kept_iff.2 (List.mem_zipIdx_iff_getElem?.1 he))
  rw [kept, List.filter_eq_self.2 hall, List.zipIdx_map_fst]

theorem length_prunings_add_length_kept (kind : MatchKind) (words : List Bytes) :
    (prunings kind words).length + (kept kind words).length = words.length := by
  induction words using List.reverseRecOn with
  | nil => rfl
  | append_singleton words w ih =>
      rw [prunings_concat, kept_concat, List.length_append, List.length_append, List.length_append,
        List.length_singleton, ← ih]
      cases hup : givenUpAt? kind words w with
      | none =>
          rw [if_neg (givenUpAt?_eq_none_iff.1 hup), Option.map_none, Option.toList_none,
            List.length_nil, List.length_singleton]
          omega
      | some n =>
          have hgiven : GivenUp kind words w := Classical.byContradiction fun hnot => by
            rw [givenUpAt?_eq_none_iff.2 hnot] at hup
            cases hup
          rw [if_pos hgiven, Option.map_some, Option.toList_some, List.length_nil,
            List.length_singleton]
          omega

theorem prunings_standard (words : List Bytes) : prunings .standard words = [] := by
  refine List.eq_nil_iff_forall_not_mem.2 fun e he => ?_
  obtain ⟨w, -, hk, -⟩ := mem_map_prunings.1 (List.mem_map_of_mem he)
  cases hk

theorem prunings_kept (kind : MatchKind) (words : List Bytes) :
    prunings kind (kept kind words) = [] := by
  refine List.eq_nil_iff_forall_not_mem.2 fun e he => ?_
  obtain ⟨w, hw, hup⟩ := mem_map_prunings.1 (List.mem_map_of_mem he)
  exact (registered_kept_iff.2 hw).2 hup

theorem registeredAs_eq_map (kind : MatchKind) (words : List Bytes) (w : Bytes) :
    registeredAs kind words w =
      (registeredAs kind (kept kind words) w).map (originalId kind words) := by
  have horder := keepsOrder_originalId kind words
  refine PatternId.eq_of_mem_iff (pairwise_registeredAs ..) ?_ fun p => ?_
  · exact List.pairwise_map.2 ((pairwise_registeredAs ..).imp fun h => horder _ _ h)
  · simp only [List.mem_map, mem_registeredAs, registered_kept_iff, getElem?_kept]
    refine ⟨fun hp => ?_, fun h => ?_⟩
    · obtain ⟨i, hi⟩ := List.getElem?_of_mem (mem_keptIds.2 ⟨w, hp⟩)
      exact ⟨⟨i⟩, ⟨p, hi, hp⟩, originalId_of_getElem? hi⟩
    · obtain ⟨q, ⟨r, hr, hreg⟩, rfl⟩ := h
      rwa [originalId_of_getElem? hr]

theorem Lexicon.renamed_kept (kind : MatchKind) (words : List Bytes) :
    (ofWords kind words).Renamed (originalId kind words) (ofWords kind (kept kind words)) := by
  refine ⟨keepsOrder_originalId kind words, rfl, ?_, registeredAs_eq_map kind words⟩
  show Strings.ofWords kind words = Strings.ofWords kind (kept kind words)
  rw [Strings.ofWords, Strings.ofWords, kept_kept]

namespace Trie

variable (st : Settings) (patterns : List Bytes)

/-- The patterns that were not given up are those that are kept, under their
names. -/
theorem survivors_eq :
    let pruned := (ofPatterns st patterns).pruned
    let left := patterns.zipIdx.filter fun e => PatternId.mk e.2 ∉ pruned
    (left.map (·.1)).map st.canon = kept st.kind (patterns.map st.canon) ∧
      left.map (fun e => PatternId.mk e.2) = keptIds st.kind (patterns.map st.canon) := by
  intro pruned left
  have hleft : (patterns.map st.canon).zipIdx.filter (fun e =>
      Registered st.kind (patterns.map st.canon) ⟨e.2⟩ e.1) = left.map (Prod.map st.canon id) := by
    rw [List.zipIdx_map, List.filter_map]
    congr 1
    refine List.filter_congr fun e he => decide_eq_decide.2 ?_
    have hword : (patterns.map st.canon)[e.2]? = some (st.canon e.1) := by
      rw [List.getElem?_map, List.mem_zipIdx_iff_getElem?.1 he, Option.map_some]
    show Registered st.kind (patterns.map st.canon) ⟨e.2⟩ (st.canon e.1) ↔ _
    rw [show pruned = _ from pruned_ofPatterns st patterns, mem_map_prunings, Registered, hword]
    simp
  rw [kept, keptIds, hleft, List.map_map, List.map_map, List.map_map]
  exact ⟨rfl, rfl⟩

theorem mem_pruned_iff {p : PatternId} :
    p ∈ (ofPatterns st patterns).pruned ↔
      st.kind.isLeftmost = true ∧ ∃ w, patterns[p.index]? = some w ∧
        ∃ u ∈ patterns.take p.index, st.canon u <+: st.canon w ∧ st.canon u ≠ st.canon w := by
  rw [pruned_ofPatterns, mem_map_prunings]
  simp only [GivenUp, List.getElem?_map, Option.map_eq_some_iff, ← List.map_take, List.mem_map]
  refine ⟨fun h => ?_, fun h => ?_⟩
  · obtain ⟨_, ⟨w, hw, rfl⟩, hk, _, ⟨u, hu, rfl⟩, hbegins⟩ := h
    exact ⟨hk, w, hw, u, hu, hbegins⟩
  · obtain ⟨hk, w, hw, u, hu, hbegins⟩ := h
    exact ⟨_, ⟨w, hw, rfl⟩, hk, _, ⟨u, hu, rfl⟩, hbegins⟩

end Trie

/-! ## The automaton of those that are left -/

theorem Automaton.patternLength_compile (st : Settings) {patterns : List Bytes}
    (hw : patterns[p.index]? = some w) :
    (compile st patterns).patternLength p = .ok w.length := by
  have hlength : (compile st patterns).lengths[p.index]? = some w.length := by
    rw [show (compile st patterns).lengths = _ from Trie.lengths_ofPatterns st patterns,
      List.getElem?_map, hw, Option.map_some]
  rw [patternLength, hlength]
  rfl

section

variable {st : Settings} {patterns survivors : List Bytes} {haystack : Bytes}
  (h : survivors.map st.canon = kept st.kind (patterns.map st.canon))

include h

theorem Automaton.alphabet_survivors :
    (compile st patterns).alphabet = (compile st survivors).alphabet := by
  show (Trie.ofPatterns st patterns).alphabet = (Trie.ofPatterns st survivors).alphabet
  rw [Trie.alphabet_ofPatterns, Trie.alphabet_ofPatterns, h, kept_kept]

theorem Automaton.arena_survivors_alike :
    (compile st patterns).arena.Alike (originalId st.kind (patterns.map st.canon))
      (fun b b' => Byte.canonical st.foldCase b = Byte.canonical st.foldCase b')
      (compile st survivors).arena := by
  have hsurvivors := (of_compile st survivors).compiled
  rw [h] at hsurvivors
  exact (of_compile st patterns).compiled.alike hsurvivors (Lexicon.renamed_kept _ _)

/-- State for state the arenas differ in names alone, and these are in
range. -/
theorem Automaton.state?_survivors (s : StateId) :
    Option.Rel
      (fun x y : State => x.next = y.next ∧ x.failure = y.failure ∧ x.depth = y.depth ∧
        x.outputs.map some =
          y.outputs.map fun q => (keptIds st.kind (patterns.map st.canon))[q.index]?)
      ((compile st patterns).arena.state? s) ((compile st survivors).arena.state? s) := by
  have halike := arena_survivors_alike h
  refine Arena.rel_state? halike.size (fun s hs => ?_) s
  have hstate := halike.state s
  have hwithin := (of_compile st survivors).compiled.within (halike.size ▸ hs)
  refine ⟨ByteTable.ext_get fun b => hstate.next b b rfl, hstate.failure, hstate.depth, ?_⟩
  rw [hstate.outputs, List.map_map]
  refine List.map_congr_left fun q hq => ?_
  have hlt := hwithin.outputs q hq
  rw [h] at hlt
  exact (getElem?_keptIds hlt).symm

theorem Automaton.getElem?_keptIds_of_mem_hits {m : Nat} {x : Hit} {text : Bytes}
    (hx : x ∈ (Lexicon.ofWords st.kind (survivors.map st.canon)).hits text m) :
    (keptIds st.kind (patterns.map st.canon))[x.pattern.index]? =
      some (originalId st.kind (patterns.map st.canon) x.pattern) := by
  obtain ⟨-, u, hu, -⟩ := Lexicon.exists_suffix_of_mem_hits hx
  rw [h] at hu
  exact getElem?_keptIds (List.getElem?_eq_some_iff.1 hu).1

/-- On every text the scans give the same, but for the names. -/
theorem Automaton.scan_survivors (haystack : Bytes) :
    let ids := keptIds st.kind (patterns.map st.canon)
    let scan := (compile st patterns).scan haystack
    let scan' := (compile st survivors).scan haystack
    (∀ n, (Feed.take n scan).1.map (fun x => (some x.pattern, x.last)) =
          (Feed.take n scan').1.map (fun x => (ids[x.pattern.index]?, x.last)) ∧
        (Feed.take n scan).2.position = (Feed.take n scan').2.position ∧
        (Feed.take n scan).2.dead = (Feed.take n scan').2.dead) ∧
      ∃ hits hits' c c', Feed.Gives scan hits c ∧ Feed.drain scan = (hits, c) ∧
        Feed.Gives scan' hits' c' ∧ Feed.drain scan' = (hits', c') ∧
        hits.map (fun x => (some x.pattern, x.last)) =
          hits'.map (fun x => (ids[x.pattern.index]?, x.last)) ∧
        c.position = c'.position ∧ c.dead = c'.dead := by
  intro ids scan scan'
  have hscan : scan.Alike (originalId st.kind (patterns.map st.canon))
      (fun b b' => Byte.canonical st.foldCase b = Byte.canonical st.foldCase b') scan' :=
    scan_alike (arena_survivors_alike h) rfl (List.forall₂_same.2 fun _ _ => rfl)
  obtain ⟨c₁, all, hall, -, rfl, -⟩ := drain_scan st survivors haystack
  -- Whatever the second scan gives is a pattern that is kept.
  have hnames : ∀ xs : List Hit, (∀ x ∈ xs, x ∈ Lexicon.hits
      (.ofWords st.kind (survivors.map st.canon)) (st.canon haystack) c₁.position) →
      (xs.map (Hit.rename (originalId st.kind (patterns.map st.canon)))).map
          (fun x => (some x.pattern, x.last)) =
        xs.map (fun x => (ids[x.pattern.index]?, x.last)) := by
    intro xs hxs
    rw [List.map_map]
    refine List.map_congr_left fun x hx => ?_
    rw [show ids[x.pattern.index]? = _ from getElem?_keptIds_of_mem_hits h (hxs x hx)]
    rfl
  refine ⟨fun n => ?_, ?_⟩
  · obtain ⟨hhits, hend⟩ := Feed.take_alike (fun _ _ => Cursor.Alike.next) hscan n
    refine ⟨?_, hend.position, hend.dead⟩
    rw [hhits]
    refine hnames _ fun x hx => ?_
    rw [hall.take_fst n] at hx
    exact List.mem_of_mem_take hx
  · obtain ⟨hits, c, c', hgives, hdrain, hgives', hdrain', hend⟩ := gives_alike hscan
    refine ⟨_, hits, c, c', hgives, hdrain, hgives', hdrain', ?_, hend.position, hend.dead⟩
    exact hnames hits fun x hx => (hgives'.unique hall).1 ▸ hx

end

/-- A pattern is given up when an earlier one is a proper prefix of it, and it
might as well be missing: without those given up the automaton has the same
settings, alphabet and states, under the names that are left closed up, and
every scan goes the same way. Only the number of patterns, their lengths with the
least and the greatest, and the count of those given up still know of them. -/
theorem Automaton.pruned_inert (st : Settings) (patterns : List Bytes) :
    let t := Trie.ofPatterns st patterns
    let left := patterns.zipIdx.filter fun e => PatternId.mk e.2 ∉ t.pruned
    let survivors := left.map (·.1)
    let ids := left.map fun e => PatternId.mk e.2
    let a := compile st patterns
    let a' := compile st survivors
    (∀ p : PatternId, p ∈ t.pruned ↔
        st.kind.isLeftmost = true ∧ ∃ w, patterns[p.index]? = some w ∧
          ∃ u ∈ patterns.take p.index, st.canon u <+: st.canon w ∧ st.canon u ≠ st.canon w) ∧
      (Trie.ofPatterns { st with kind := .standard } patterns).events = [] ∧
      (Trie.ofPatterns st survivors).events = [] ∧
      t.prunedCount = t.pruned.length ∧
      t.pruned.length + survivors.length = patterns.length ∧
      ids.Pairwise (·.index < ·.index) ∧
      a.patternCount = patterns.length ∧
      (∀ p : PatternId, ∀ w, patterns[p.index]? = some w → a.patternLength p = .ok w.length) ∧
      a.minLength = (patterns.map List.length).min?.getD 0 ∧
      a.maxLength = (patterns.map List.length).max?.getD 0 ∧
      a.lengths = patterns.map List.length ∧ a'.lengths = survivors.map List.length ∧
      a.settings = a'.settings ∧ a.alphabet = a'.alphabet ∧
      (∀ s, Option.Rel
        (fun x y : State => x.next = y.next ∧ x.failure = y.failure ∧ x.depth = y.depth ∧
          x.outputs.map some = y.outputs.map fun q => ids[q.index]?)
        (a.arena.state? s) (a'.arena.state? s)) ∧
      ∀ haystack,
        let scan := a.scan haystack
        let scan' := a'.scan haystack
        (∀ n, (Feed.take n scan).1.map (fun x => (some x.pattern, x.last)) =
              (Feed.take n scan').1.map (fun x => (ids[x.pattern.index]?, x.last)) ∧
            (Feed.take n scan).2.position = (Feed.take n scan').2.position ∧
            (Feed.take n scan).2.dead = (Feed.take n scan').2.dead) ∧
          ∃ hits hits' c c', Feed.Gives scan hits c ∧ Feed.drain scan = (hits, c) ∧
            Feed.Gives scan' hits' c' ∧ Feed.drain scan' = (hits', c') ∧
            hits.map (fun x => (some x.pattern, x.last)) =
              hits'.map (fun x => (ids[x.pattern.index]?, x.last)) ∧
            c.position = c'.position ∧ c.dead = c'.dead := by
  intro t left survivors ids a a'
  obtain ⟨hsurvivors, hids⟩ : survivors.map st.canon = kept st.kind (patterns.map st.canon) ∧
      ids = keptIds st.kind (patterns.map st.canon) := Trie.survivors_eq st patterns
  obtain ⟨-, hcount⟩ := Trie.events_ofPatterns st patterns
  have hpruned : t.pruned.length = (prunings st.kind (patterns.map st.canon)).length := by
    rw [Trie.pruned_ofPatterns, List.length_map]
  rw [hids]
  refine ⟨fun p => Trie.mem_pruned_iff st patterns, ?_, ?_, hcount.trans hpruned.symm, ?_,
    pairwise_keptIds _ _, patternCount_compile st patterns,
    fun p w hw => patternLength_compile st hw, Trie.minLength_ofPatterns st patterns,
    Trie.maxLength_ofPatterns st patterns, Trie.lengths_ofPatterns st patterns,
    Trie.lengths_ofPatterns st survivors, rfl, alphabet_survivors hsurvivors,
    state?_survivors hsurvivors, scan_survivors hsurvivors⟩
  · rw [(Trie.events_ofPatterns _ patterns).1, prunings_standard]
    rfl
  · rw [(Trie.events_ofPatterns st survivors).1, hsurvivors, prunings_kept]
    rfl
  · have hlength := length_prunings_add_length_kept st.kind (patterns.map st.canon)
    rw [← hsurvivors, ← hpruned] at hlength
    simpa only [List.length_map] using hlength

end MultiPattern
