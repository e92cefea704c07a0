import MultiPattern.Proofs.FirstMatch

/-!
# Searches that begin again behind an empty pattern

Under a leftmost rule an empty pattern shuts the start state, and the scan stops
where it would come to rest there. That does not confine the search to the
beginning of the text. A scan that reads a string of the tree is not at rest in
the start state, and where the string cannot go on, failure links lead to a
shorter one that began later, if need be through the start state and out of it
again with the same byte. So a pattern is found behind the beginning as well, if
at every offset up to the one where it begins something is under way (`UnderWay`).

Otherwise nothing is new. With or without an empty pattern, what is reported at a
byte that is read is the first name of a registered word that nothing registered
occurs before (`Foremost`).
-/

namespace MultiPattern

/-- At the end of `text` a string of the tree is being read: one that is not
empty. -/
def UnderWay (kind : MatchKind) (words : List Bytes) (text : Bytes) : Prop :=
  ∃ i < text.length, InTree kind words (text.drop i)

/-- The registered word `w`, whose first name is `p`, occurs in `text` at the offset
`s`, and until it has ended no registered word has that began before. -/
structure Foremost (kind : MatchKind) (words : List Bytes) (text : Bytes) (p : PatternId) (w : Bytes)
    (s : Nat) : Prop where
  registered : Registered kind words p w
  name : IsLeast {i | words[i]? = some w} p.index
  occurs : w <+: text.drop s
  unmatched : ¬ OccursBefore kind words (text.take (s + w.length)) s

variable {kind : MatchKind} {words : List Bytes} {text u w : Bytes} {p : PatternId} {h : Hit}
  {i j k m n s : Nat}

theorem OccursBefore.mono (h : OccursBefore kind words (text.take k) i) (hkm : k ≤ m)
    (hij : i ≤ j) : OccursBefore kind words (text.take m) j := by
  obtain ⟨l, hl, p, u, hu, hne, hbegins⟩ := h
  refine ⟨l, Nat.lt_of_lt_of_le hl hij, p, u, hu, hne, ?_⟩
  rw [← Nat.min_eq_left hkm, ← List.take_take] at hbegins
  exact prefix_drop_of_prefix_drop_take hbegins

/-- A longer word that ends with `w` would have begun before. -/
theorem longestAtEnd_of_not_occursBefore (hw : Registered kind words p w) (hne : w ≠ [])
    (hsuffix : w <:+ text) (hnot : ¬ OccursBefore kind words text (text.length - w.length)) :
    LongestAtEnd kind words text w := by
  refine ⟨⟨hne, ⟨p, hw⟩, hsuffix⟩, fun q u hu hunil husuffix => Nat.le_of_not_lt fun hlt => hnot ?_⟩
  have hle := husuffix.length_le
  refine ⟨text.length - u.length, by omega, q, u, hu, hunil, ?_⟩
  rw [← List.suffix_iff_eq_drop.1 husuffix]

namespace Foremost

theorem length_le (h : Foremost kind words text p w s) (hne : w ≠ []) :
    s + w.length ≤ text.length :=
  add_length_le_of_prefix_drop h.occurs hne

theorem longestAtEnd (h : Foremost kind words text p w s) (hne : w ≠ []) :
    LongestAtEnd kind words (text.take (s + w.length)) w := by
  refine longestAtEnd_of_not_occursBefore h.registered hne (suffix_take_of_prefix_drop h.occurs) ?_
  rw [List.length_take_of_le (h.length_le hne), Nat.add_sub_cancel]
  exact h.unmatched

end Foremost

/-- Of the names of a registered word a leftmost rule reports the first. -/
theorem mem_reported_iff {q : PatternId} (hk : kind.isLeftmost = true)
    (hw : Registered kind words q w) :
    p ∈ Cursor.reported kind (registeredAs kind words w) ↔
      IsLeast {i | words[i]? = some w} p.index := by
  obtain ⟨first, hfirst, hleast⟩ := take_one_registeredAs hw
  rw [Cursor.reported, if_pos hk, hfirst, List.mem_singleton]
  refine ⟨fun heq => ?_, fun hp => PatternId.ext (hp.unique hleast)⟩
  subst heq
  exact hleast

/-- What a leftmost scan reports at the bytes that it reads, empty patterns
apart. -/
theorem Lexicon.mem_hits_leftmost (hk : kind.isLeftmost = true) (hm : m ≤ text.length)
    (hword : words[h.pattern.index]? = some w) (hne : w ≠ []) (hs : s + w.length = h.last + 1) :
    h ∈ (ofWords kind words).hits text m ↔
      h.last < m ∧ Foremost kind words text h.pattern w s := by
  rw [mem_hits]
  refine and_congr_right fun hlt => ?_
  have hlength : (text.take (h.last + 1)).length = h.last + 1 :=
    List.length_take_of_le (by omega)
  have hstart : h.last + 1 - w.length = s := by omega
  -- Either way `w` is the longest registered word that ends there, and its names
  -- are what is heard.
  refine ⟨fun hp => ?_, fun hforemost => ?_⟩
  · obtain ⟨v, hv, hreg, hnot⟩ :=
      longest_of_mem_heard hk (by simp [hword, hne]) (mem_reported hp)
    obtain rfl : v = w := Option.some.inj (hreg.1.symm.trans hword)
    have hbegins := prefix_drop_of_suffix_take hv.1.2.2 (show h.last + 1 ≤ text.length by omega)
    rw [(heard_of_longest hk hv).2 hnot] at hp
    rw [hlength, hstart] at hnot
    rw [hstart] at hbegins
    refine ⟨hreg, (mem_reported_iff hk hreg).1 hp, hbegins, ?_⟩
    rw [hs]
    exact hnot
  · have hlongest := hforemost.longestAtEnd hne
    have hnot := hforemost.unmatched
    rw [hs] at hlongest hnot
    have hheard := (heard_of_longest hk hlongest).2
    rw [hlength, hstart] at hheard
    rw [hheard hnot]
    exact (mem_reported_iff hk hforemost.registered).2 hforemost.name

/-! ## How far a scan with an empty pattern goes -/

theorem exists_isLeast_inTree (kind : MatchKind) (words : List Bytes) (text : Bytes) :
    ∃ s, IsLeast {i | InTree kind words (text.drop i)} s := by
  obtain ⟨s, hs⟩ := Lexicon.exists_isLeast (.ofWords kind words) text
  exact ⟨s, Lexicon.setOf_mem_strings kind words text ▸ hs⟩

/-- With an empty pattern a scan that goes on has something under way. -/
theorem underWay_of_not_mustStop (hempty : [] ∈ words) (h : ¬ MustStop kind words text) :
    UnderWay kind words text := by
  obtain ⟨s, hs⟩ := exists_isLeast_inTree kind words text
  have hle : s ≤ text.length := hs.2 (Or.inl List.drop_length)
  have hne : s ≠ text.length := fun heq => h ⟨s, hs, Or.inr ⟨hempty, heq⟩⟩
  exact ⟨s, Nat.lt_of_le_of_ne hle hne, hs.1⟩

/-- A scan with something under way goes on, unless a registered word has occurred
that began before. -/
theorem not_mustStop_of_inTree (hi : i < text.length) (htree : InTree kind words (text.drop i))
    (hnot : ¬ OccursBefore kind words text i) : ¬ MustStop kind words text := by
  intro hstop
  obtain ⟨s, hs, hor⟩ := hstop
  have hle : s ≤ i := hs.2 htree
  rcases hor with hoccurs | ⟨-, heq⟩
  · obtain ⟨j, hj, hrest⟩ := hoccurs
    exact hnot ⟨j, Nat.lt_of_lt_of_le hj hle, hrest⟩
  · omega

namespace Foremost

/-- While a foremost word is being read, and before, a scan that always has something
under way goes on. -/
theorem not_mustStop (h : Foremost kind words text p w s) (hne : w ≠ [])
    (hway : ∀ k, 0 < k → k ≤ s → UnderWay kind words (text.take k)) (hpos : 0 < k)
    (hk : k ≤ s + w.length) : ¬ MustStop kind words (text.take k) := by
  have hlength : (text.take k).length = k := List.length_take_of_le (hk.trans (h.length_le hne))
  by_cases hks : k ≤ s
  · obtain ⟨i, hi, htree⟩ := hway k hpos hks
    have his : i ≤ s := by omega
    exact not_mustStop_of_inTree hi htree fun hoccurs => h.unmatched (hoccurs.mono hk his)
  · have htree := inTree_drop_take h.registered h.occurs hk
    exact not_mustStop_of_inTree (by omega) htree fun hoccurs =>
      h.unmatched (hoccurs.mono hk (Nat.le_refl s))

/-- A scan with an empty pattern reads a foremost word to its end exactly if
something has been under way all the time before. -/
theorem le_position_iff (h : Foremost kind words text p w s) (hk : kind.isLeftmost = true)
    (hempty : [] ∈ words) (hne : w ≠ []) {c : Cursor} (hended : c.Ended (.ofWords kind words) text) :
    s + w.length ≤ c.position ↔ ∀ k, 0 < k → k ≤ s → UnderWay kind words (text.take k) := by
  refine ⟨fun hread k hpos hks => ?_, fun hway => ?_⟩
  · obtain ⟨n, rfl⟩ : ∃ n, k = n + 1 := ⟨k - 1, by omega⟩
    have hgoes := hended.before n (by omega)
    rw [Lexicon.stops_iff hk] at hgoes
    exact underWay_of_not_mustStop hempty hgoes
  · rcases hended.ending with ⟨-, -, hstops⟩ | ⟨-, heq⟩
    · refine Nat.le_of_not_lt fun hlt => ?_
      exact h.not_mustStop hne hway (Nat.succ_pos _) hlt ((Lexicon.stops_iff hk).1 hstops)
    · rw [heq]
      exact h.length_le hne

end Foremost

namespace Matcher

/-- Under a leftmost rule, with an empty pattern among others, a match of one that
is not empty is reported exactly if it is foremost and something has been under
way at every offset up to the one where it begins. So all such reports begin at
the beginning of the text only if every match behind it that is foremost has an
offset before it where nothing is under way. -/
theorem mem_findAll_of_empty_pattern (st : Settings) (hk : st.kind.isLeftmost = true)
    (patterns : List Bytes) (hempty : [] ∈ patterns) (haystack : Bytes) :
    let words := patterns.map st.canon
    let text := st.canon haystack
    let found := (build st patterns).findAll haystack
    (∀ x : Occurrence, x.bytes ≠ [] → (x ∈ found ↔
        patterns[x.pattern.index]? = some x.bytes ∧ x.start + x.bytes.length = x.last + 1 ∧
          Foremost st.kind words text x.pattern (st.canon x.bytes) x.start ∧
          ∀ k, 0 < k → k ≤ x.start → UnderWay st.kind words (text.take k))) ∧
      ((∀ x ∈ found, x.bytes ≠ [] → x.start = 0) ↔
        ∀ (p : PatternId) (bytes : Bytes) (s : Nat), patterns[p.index]? = some bytes → bytes ≠ [] →
          0 < s → Foremost st.kind words text p (st.canon bytes) s →
          ∃ k, 0 < k ∧ k ≤ s ∧ ¬ UnderWay st.kind words (text.take k)) := by
  intro words text found
  have hnil : [] ∈ words := List.mem_map.2 ⟨[], hempty, rfl⟩
  have hmem : ∀ x : Occurrence, x.bytes ≠ [] → (x ∈ found ↔
      patterns[x.pattern.index]? = some x.bytes ∧ x.start + x.bytes.length = x.last + 1 ∧
        Foremost st.kind words text x.pattern (st.canon x.bytes) x.start ∧
        ∀ k, 0 < k → k ≤ x.start → UnderWay st.kind words (text.take k)) := by
    intro x hx
    obtain ⟨c, hfound, hended⟩ := findAll_eq st patterns haystack
    have hcanon : st.canon x.bytes ≠ [] := fun h => hx ((Settings.canon_eq_nil_iff st _).1 h)
    rw [show found = _ from hfound, mem_map_occurrence_hits]
    refine and_congr_right fun hp => ?_
    rw [and_comm]
    refine and_congr_right fun hstart => ?_
    have hword : words[x.pattern.index]? = some (st.canon x.bytes) := by
      rw [List.getElem?_map, hp, Option.map_some]
    have hend : x.start + (st.canon x.bytes).length = x.last + 1 := by
      rw [Settings.length_canon]
      exact hstart
    rw [Lexicon.mem_hits_leftmost hk hended.position_le hword hcanon hend, and_comm]
    refine and_congr_right fun hforemost => ?_
    rw [← hforemost.le_position_iff hk hnil hcanon hended, hend]
    exact Iff.rfl
  refine ⟨hmem, fun hall p bytes s hp hbytes hs hforemost => ?_, fun hall x hx hbytes => ?_⟩
  · refine Classical.byContradiction fun hnone => ?_
    have hway : ∀ k, 0 < k → k ≤ s → UnderWay st.kind words (text.take k) := fun k hpos hks =>
      Classical.byContradiction fun hnot => hnone ⟨k, hpos, hks, hnot⟩
    have hlast : s + bytes.length = s + bytes.length - 1 + 1 := by omega
    have hx := (hmem ⟨p, bytes, s, s + bytes.length - 1⟩ hbytes).2 ⟨hp, hlast, hforemost, hway⟩
    exact absurd (hall _ hx hbytes) (Nat.pos_iff_ne_zero.1 hs)
  · obtain ⟨hp, -, hforemost, hway⟩ := (hmem x hbytes).1 hx
    refine Classical.byContradiction fun hne => ?_
    obtain ⟨k, hpos, hks, hnot⟩ := hall _ _ _ hp hbytes (Nat.pos_of_ne_zero hne) hforemost
    exact hnot (hway k hpos hks)

/-- In the text aab the pattern ab is found behind the first a, though there is an
empty pattern. -/
theorem mem_findAll_of_empty_pattern_behind :
    MatchKind.leftmostFirst.isLeftmost = true ∧ [] ∈ ([[0x61, 0x62], []] : List Bytes) ∧
      ⟨⟨0⟩, [0x61, 0x62], 1, 2⟩ ∈ (build { kind := .leftmostFirst } [[0x61, 0x62], []]).findAll
        [0x61, 0x61, 0x62] := by
  have hempty : [] ∈ ([[0x61, 0x62], []] : List Bytes) := by decide
  have hall := mem_findAll_of_empty_pattern { kind := .leftmostFirst } rfl _ hempty [0x61, 0x61, 0x62]
  have hunmatched : ¬ OccursBefore .leftmostFirst [[0x61, 0x62], []] [0x61, 0x61, 0x62] 1 := by
    intro hoccurs
    obtain ⟨i, hi, p, u, hu, hne, hbegins⟩ := hoccurs
    obtain rfl : i = 0 := Nat.lt_one_iff.1 hi
    rcases List.mem_cons.1 (List.mem_of_getElem? hu.1) with rfl | hrest
    · exact absurd hbegins (by decide)
    · exact hne (List.mem_singleton.1 hrest)
  have hforemost : Foremost .leftmostFirst [[0x61, 0x62], []] [0x61, 0x61, 0x62] ⟨0⟩ [0x61, 0x62] 1 :=
    ⟨by decide, ⟨rfl, fun _ _ => Nat.zero_le _⟩, by decide, hunmatched⟩
  have hway : UnderWay .leftmostFirst [[0x61, 0x62], []] [0x61] :=
    ⟨0, by decide, Or.inr ⟨⟨0⟩, [0x61, 0x62], by decide, by decide⟩⟩
  refine ⟨rfl, hempty, (hall.1 _ (by decide)).2 ⟨rfl, rfl, hforemost, fun k hpos hk => ?_⟩⟩
  obtain rfl : k = 1 := Nat.le_antisymm hk hpos
  exact hway

/-- An empty pattern does not keep a leftmost search from beginning again. -/
theorem findAll_restarts :
    ¬ ∀ (st : Settings) (patterns : List Bytes) (haystack : Bytes), st.kind.isLeftmost = true →
      [] ∈ patterns → ∀ x ∈ (build st patterns).findAll haystack, x.bytes ≠ [] → x.start = 0 := by
  intro hall
  have hfound : (⟨⟨0⟩, [0x61, 0x62], 1, 2⟩ : Occurrence) ∈
      (build { kind := .leftmostFirst } [[0x61, 0x62], []]).findAll [0x61, 0x61, 0x62] := by
    decide +kernel
  exact absurd (hall _ _ _ rfl (by decide) _ hfound (by decide)) (by decide)

end Matcher

end MultiPattern
