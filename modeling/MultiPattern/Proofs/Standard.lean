import MultiPattern.Proofs.Scan

/-!
# The standard rule is exact

Under the standard rule nothing is ever committed: no pattern is given up, no
link leads to the dead state and the start state is not shut. So a scan settles
on something after every byte and reads its text to the end, and what is heard
at a byte is every pattern that ends there.
-/

namespace MultiPattern

namespace Lexicon

variable {L : Lexicon} {words : List Bytes} {text w : Bytes} {p : PatternId}

theorem settle_isSome_of_not_leftmost (hk : L.kind.isLeftmost = false) (w : Bytes) :
    ∃ u, L.settle w = some u := by
  obtain ⟨s, hs⟩ := exists_isLeast L w
  exact ⟨w.drop s, (settle_eq_of_isLeast hs).2 fun _ _ => not_committed_of_not_leftmost hk⟩

theorem not_stops_of_not_leftmost (hk : L.kind.isLeftmost = false) (w : Bytes) :
    ¬ L.Stops (L.settle w) := by
  intro h
  rcases h with hnone | hshut
  · obtain ⟨u, hu⟩ := settle_isSome_of_not_leftmost hk w
    rw [hu] at hnone
    cases hnone
  · rw [hshut.1.1] at hk
    cases hk

theorem registered_standard_iff : Registered .standard words p w ↔ words[p.index]? = some w := by
  refine and_iff_left ?_
  intro h
  cases h.1

theorem mem_heard_standard :
    p ∈ (ofWords .standard words).heard w ↔ ∃ u, words[p.index]? = some u ∧ u <:+ w := by
  rw [mem_heard_of_standard (show (ofWords .standard words).kind.isLeftmost = false from rfl)]
  refine exists_congr fun u => ?_
  show u <:+ w ∧ p ∈ registeredAs .standard words u ↔ _
  rw [mem_registeredAs, registered_standard_iff, and_comm]

theorem mem_hits_standard {h : Hit} {m : Nat} :
    h ∈ (ofWords .standard words).hits text m ↔
      h.last < m ∧ ∃ u, words[h.pattern.index]? = some u ∧ u <:+ text.take (h.last + 1) :=
  mem_hits.trans (and_congr_right fun _ => mem_heard_standard)

end Lexicon

namespace Cursor

theorem Ended.of_not_leftmost {c : Cursor} {L : Lexicon} {text : Bytes} (h : c.Ended L text)
    (hk : L.kind.isLeftmost = false) : c.dead = false ∧ c.position = text.length := by
  rcases h.ending with ⟨-, -, hstops⟩ | halive
  · exact absurd hstops (Lexicon.not_stops_of_not_leftmost hk _)
  · exact halive

/-- No question brings a dead scan back. -/
theorem dead_next {c : Cursor} (hd : c.dead = true) : c.next.2.dead = true := by
  cases hp : c.pending with
  | nil =>
      rw [next, go, round_of_dead hp hd]
      exact hd
  | cons p rest =>
      rw [next, go, round_of_pending hp]
      exact hd

theorem dead_of_gives {c c' : Cursor} {hits : List Hit} (h : Feed.Gives c hits c')
    (hd : c.dead = true) : c'.dead = true := by
  induction h with
  | nil h =>
      have hnext := dead_next hd
      rw [show Cursor.next _ = _ from h] at hnext
      exact hnext
  | cons h rest ih =>
      have hnext := dead_next hd
      rw [show Cursor.next _ = _ from h] at hnext
      exact ih hnext

/-- A scan that is not dead at its end has not been dead before. -/
theorem alive_of_gives {c c' : Cursor} {hits : List Hit} (h : Feed.Gives c hits c')
    (hd : c'.dead = false) (n : Nat) : (Feed.take n c).2.dead = false := by
  rcases h.after_take n with heq | hrest
  · rw [heq]
    exact hd
  · rw [← Bool.not_eq_true]
    intro hdead
    rw [dead_of_gives hrest hdead] at hd
    cases hd

end Cursor

namespace Matcher

variable {st : Settings}

theorem mem_map_occurrence {patterns : List Bytes} {haystack : Bytes} {n : Nat} {x : Occurrence} :
    x ∈ ((Lexicon.ofWords .standard (patterns.map st.canon)).hits (st.canon haystack) n).map
        (build st patterns).occurrence ↔
      patterns[x.pattern.index]? = some x.bytes ∧ x.last < n ∧
        st.canon x.bytes <:+ st.canon (haystack.take (x.last + 1)) ∧
        x.start + x.bytes.length = x.last + 1 := by
  rw [mem_map_occurrence_hits, Lexicon.mem_hits_standard, Settings.canon_take]
  refine and_congr_right fun hp => ?_
  rw [List.getElem?_map, hp]
  simp only [Option.map_some, Option.some_inj, exists_eq_left', and_assoc]

/-- Under the standard rule an occurrence is reported exactly where the bytes of
a pattern end, and where several end at one byte they come in the order of their
patterns. The scan reads the whole text. -/
theorem findAll_standard (foldCase : Bool) (patterns : List Bytes) (haystack : Bytes) :
    let st : Settings := { kind := .standard, foldCase }
    let m := build st patterns
    (∀ x : Occurrence, x ∈ m.findAll haystack ↔
        patterns[x.pattern.index]? = some x.bytes ∧ x.last < haystack.length ∧
          st.canon x.bytes <:+ st.canon (haystack.take (x.last + 1)) ∧
          x.start + x.bytes.length = x.last + 1) ∧
      ((m.findAll haystack).Pairwise fun x y =>
        x.last < y.last ∨ x.last = y.last ∧ x.pattern.index < y.pattern.index) ∧
      (∀ p : PatternId, patterns[p.index]? = some [] →
        ∀ e < haystack.length, ⟨p, [], e + 1, e⟩ ∈ m.findAll haystack) ∧
      (∀ n, (Feed.take n (m.search haystack)).2.cursor.dead = false) ∧
      (Feed.drain (m.search haystack)).2.cursor.position = haystack.length := by
  intro st m
  obtain ⟨c, hits, hgives, hdrain, hhits, hended⟩ := Automaton.drain_scan st patterns haystack
  obtain ⟨halive, hposition⟩ := hended.of_not_leftmost rfl
  rw [Settings.length_canon] at hposition
  have hsearch : Feed.drain (m.search haystack) = (hits.map m.occurrence, ⟨m, c⟩) := by
    rw [drain_search, show m.automaton = Automaton.compile st patterns from rfl, hdrain]
  have hfind : m.findAll haystack = hits.map m.occurrence := congrArg Prod.fst hsearch
  have hmem : ∀ x : Occurrence, x ∈ m.findAll haystack ↔
      patterns[x.pattern.index]? = some x.bytes ∧ x.last < haystack.length ∧
        st.canon x.bytes <:+ st.canon (haystack.take (x.last + 1)) ∧
        x.start + x.bytes.length = x.last + 1 := by
    intro x
    rw [hfind, hhits, hposition]
    exact mem_map_occurrence
  refine ⟨hmem, ?_, ?_, ?_, ?_⟩
  · rw [hfind, List.pairwise_map, hhits]
    exact Lexicon.pairwise_hits _ _ _
  · intro p hp e he
    refine (hmem _).2 ⟨hp, he, ?_, Nat.add_zero _⟩
    rw [Settings.canon_nil]
    exact List.nil_suffix
  · intro n
    rw [search, Search.take_eq]
    exact Cursor.alive_of_gives hgives halive n
  · rw [hsearch]
    exact hposition

end Matcher

end MultiPattern
