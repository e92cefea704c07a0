import MultiPattern.Proofs.Leftmost

/-!
# The last report under a leftmost rule

With patterns that are not empty a leftmost scan closes in on one occurrence,
the one that begins first, and among those that begin there the one of the
pattern given first (`LeftmostFirst`). This is a law about all patterns, those
that were given up included: what would have the winner given up occurs where
it does and was given before.

Three facts make it the last report. The scan does not stop before the winner
has been read, because until then what begins where the winner does is a string
of the tree and nothing begins before. When it has been read it is the longest
registered pattern that ends there. And nothing is heard later: what is longest
at a later byte begins behind the winner, for a longer one that begins with it
would have been given up unless it was given before.
-/

namespace MultiPattern

/-- The pattern `p` occurs in `text` at the offset `i`. -/
def OccursAt (words : List Bytes) (text : Bytes) (p : PatternId) (i : Nat) : Prop :=
  ∃ w, words[p.index]? = some w ∧ w <+: text.drop i

/-- The pattern `p`, which is `w`, occurs at `i`; no pattern occurs before, and
none that was given before `p` occurs there. -/
structure LeftmostFirst (words : List Bytes) (text : Bytes) (p : PatternId) (w : Bytes) (i : Nat) :
    Prop where
  word : words[p.index]? = some w
  occurs : w <+: text.drop i
  leftmost : ∀ q j, OccursAt words text q j → i ≤ j
  first : ∀ q, OccursAt words text q i → p.index ≤ q.index

variable {kind : MatchKind} {words : List Bytes} {text u v w : Bytes} {p q : PatternId}
  {i j k m n : Nat}

theorem exists_leftmostFirst (h : OccursAt words text q j) :
    ∃ p w i, LeftmostFirst words text p w i := by
  have hex : ∃ i, ∃ q, OccursAt words text q i := ⟨j, q, h⟩
  classical
  have hex' : ∃ k, OccursAt words text ⟨k⟩ (Nat.find hex) := by
    obtain ⟨q, hq⟩ := Nat.find_spec hex
    exact ⟨q.index, hq⟩
  obtain ⟨w, hw, hbegins⟩ := Nat.find_spec hex'
  refine ⟨⟨Nat.find hex'⟩, w, Nat.find hex, hw, hbegins, ?_, ?_⟩
  · intro q j hq
    exact Nat.find_min' hex ⟨q, hq⟩
  · intro q hq
    exact Nat.find_min' hex' hq

/-! ## Parts of a text -/

theorem prefix_drop_of_prefix_drop_take (h : u <+: (text.take k).drop i) : u <+: text.drop i := by
  rw [List.drop_take] at h
  exact h.trans (List.take_prefix _ _)

theorem prefix_drop_take (h : u <+: text.drop i) (hle : i + u.length ≤ k) :
    u <+: (text.take k).drop i := by
  rw [List.drop_take, List.prefix_take_iff]
  exact ⟨h, by omega⟩

theorem prefix_drop_of_suffix_take (h : u <:+ text.take k) (hk : k ≤ text.length) :
    u <+: text.drop (k - u.length) := by
  have hdrop := List.suffix_iff_eq_drop.1 h
  rw [List.length_take_of_le hk] at hdrop
  refine prefix_drop_of_prefix_drop_take (k := k) ?_
  rw [← hdrop]

theorem suffix_take_of_prefix_drop (h : u <+: text.drop i) : u <:+ text.take (i + u.length) := by
  rw [List.take_add, ← List.prefix_iff_eq_take.1 h]
  exact List.suffix_append _ _

theorem add_length_le_of_prefix_drop (h : u <+: text.drop i) (hne : u ≠ []) :
    i + u.length ≤ text.length := by
  have hle := h.length_le
  have hpos := List.length_pos_iff.2 hne
  rw [List.length_drop] at hle
  omega

/-- While a registered word is being read what has been read of it is a string of
the tree. -/
theorem inTree_drop_take (hw : Registered kind words p w) (h : w <+: text.drop i)
    (hk : k ≤ i + w.length) : InTree kind words ((text.take k).drop i) := by
  refine Or.inr ⟨p, w, hw, ?_⟩
  rw [List.drop_take]
  exact List.prefix_of_prefix_length_le (List.take_prefix _ _) h
    (Nat.le_trans (List.length_take_le _ _) (by omega))

namespace LeftmostFirst

theorem le_of_registered (h : LeftmostFirst words text p w i) (hu : Registered kind words q u)
    (hbegins : u <+: text.drop j) : i ≤ j :=
  h.leftmost q j ⟨u, hu.1, hbegins⟩

/-- The winner is never given up. -/
theorem registered (h : LeftmostFirst words text p w i) : Registered kind words p w := by
  refine ⟨h.word, ?_⟩
  intro hgiven
  obtain ⟨-, u, hu, hbegins, -⟩ := hgiven
  obtain ⟨k, hk⟩ := List.mem_iff_getElem?.1 hu
  rw [List.getElem?_take] at hk
  split at hk
  · next hlt =>
      have hle : p.index ≤ k := h.first ⟨k⟩ ⟨u, hk, hbegins.trans h.occurs⟩
      omega
  · cases hk

theorem length_le (h : LeftmostFirst words text p w i) (hw : w ≠ []) :
    i + w.length ≤ text.length :=
  add_length_le_of_prefix_drop h.occurs hw

theorem not_occursBefore (h : LeftmostFirst words text p w i) :
    ¬ OccursBefore kind words (text.take k) i := by
  intro hoccurs
  obtain ⟨j, hj, q, u, hu, -, hbegins⟩ := hoccurs
  have hle := h.le_of_registered hu (prefix_drop_of_prefix_drop_take hbegins)
  omega

/-- A scan does not have to stop before the winner has been read. -/
theorem not_mustStop (h : LeftmostFirst words text p w i) (hne : [] ∉ words)
    (hk : k ≤ i + w.length) : ¬ MustStop kind words (text.take k) := by
  intro hstop
  obtain ⟨s, hs, hor⟩ := hstop
  obtain ⟨j, hj, q, u, hu, hnil, hbegins⟩ := hor.resolve_right fun hempty => hne hempty.1
  have hij := h.le_of_registered hu (prefix_drop_of_prefix_drop_take hbegins)
  have htree : InTree kind words ((text.take k).drop i) :=
    inTree_drop_take h.registered h.occurs hk
  have hsi : s ≤ i := hs.2 htree
  omega

/-- When the winner has been read it is the longest registered pattern that ends
there. -/
theorem longestAtEnd (h : LeftmostFirst words text p w i) (hw : w ≠ []) :
    LongestAtEnd kind words (text.take (i + w.length)) w := by
  have hle := h.length_le hw
  have hsuffix := suffix_take_of_prefix_drop h.occurs
  refine ⟨⟨hw, ⟨p, h.registered⟩, hsuffix⟩, ?_⟩
  intro q u hu hnil husuffix
  have hij := h.le_of_registered hu (prefix_drop_of_suffix_take husuffix hle)
  have hulen := husuffix.length_le
  rw [List.length_take_of_le hle] at hulen
  omega

/-- A longer registered pattern does not begin where the winner does. -/
theorem length_le_of_registered (h : LeftmostFirst words text p w i)
    (hkind : kind.isLeftmost = true) (hv : Registered kind words q v)
    (hbegins : v <+: text.drop i) : v.length ≤ w.length := by
  refine Nat.le_of_not_lt fun hlt => ?_
  have hwv : w <+: v := List.prefix_of_prefix_length_le h.occurs hbegins (Nat.le_of_lt hlt)
  have hpq : p.index ≤ q.index := h.first q ⟨v, hv.1, hbegins⟩
  have hne : w ≠ v := by
    intro heq
    subst heq
    exact Nat.lt_irrefl _ hlt
  rcases Nat.lt_or_eq_of_le hpq with hlt' | heq
  · refine hv.2 ⟨hkind, w, ?_, hwv, hne⟩
    have hword : (words.take q.index)[p.index]? = some w := by
      rw [List.getElem?_take, if_pos hlt']
      exact h.word
    exact List.mem_of_getElem? hword
  · have hword := h.word
    rw [heq, hv.1] at hword
    exact hne (Option.some.inj hword).symm

/-- Behind the winner nothing is heard any more. -/
theorem heard_later (h : LeftmostFirst words text p w i) (hkind : kind.isLeftmost = true)
    (hw : w ≠ []) (hk : i + w.length < k) (hle : k ≤ text.length) :
    (Lexicon.ofWords kind words).heard (text.take k) = [] := by
  have hlength : (text.take k).length = k := List.length_take_of_le hle
  have hbegun : ∀ s, i < s → OccursBefore kind words (text.take k) s := fun s hs =>
    ⟨i, hs, p, w, h.registered, hw, prefix_drop_take h.occurs (Nat.le_of_lt hk)⟩
  by_cases hlongest : ∃ v, LongestAtEnd kind words (text.take k) v
  · obtain ⟨v, hv⟩ := hlongest
    refine (Lexicon.heard_of_longest hkind hv).1 (hbegun _ ?_)
    obtain ⟨q, hq⟩ := hv.1.2.1
    have hbegins := prefix_drop_of_suffix_take hv.1.2.2 hle
    have hge := h.le_of_registered hq hbegins
    rw [hlength]
    refine Nat.lt_of_le_of_ne hge ?_
    intro heq
    rw [← heq] at hbegins
    have hshort := h.length_le_of_registered hkind hq hbegins
    have hvlen := hv.1.2.2.length_le
    omega
  · obtain ⟨n, rfl⟩ : ∃ n, k = n + 1 := ⟨k - 1, by omega⟩
    have hsplit : text.take (n + 1) = text.take n ++ [text[n]] :=
      List.take_succ_eq_append_getElem hle
    have hends : ∀ q u, Registered kind words q u → u ≠ [] → ¬ u <:+ text.take (n + 1) :=
      fun q u hq hnil hsuffix => hlongest (exists_longestAtEnd hq hnil hsuffix)
    have hbefore := hbegun (text.take (n + 1)).length (by omega)
    rw [hsplit] at hends hbefore ⊢
    exact (Lexicon.heard_of_none hkind hends).1 (Or.inl hbefore)

end LeftmostFirst

theorem Lexicon.heard_of_no_occurrence (hnone : ∀ q j, ¬ OccursAt words text q j)
    (hk : k ≤ text.length) : (ofWords kind words).heard (text.take k) = [] := by
  refine Classical.byContradiction fun hne => ?_
  obtain ⟨p, hp⟩ := List.exists_mem_of_ne_nil _ hne
  obtain ⟨u, hsuffix, hu⟩ := exists_mem_outputs_of_mem_heard hp
  exact hnone p _ ⟨u, (mem_registeredAs.1 hu).1, prefix_drop_of_suffix_take hsuffix hk⟩

/-- Bytes at which nothing is heard add nothing to the hits. -/
theorem Lexicon.hits_of_silent {L : Lexicon} (hmn : m ≤ n)
    (hsilent : ∀ k, m < k → k ≤ n → L.heard (text.take k) = []) :
    L.hits text n = L.hits text m := by
  induction n, hmn using Nat.le_induction with
  | base => rfl
  | succ n hmn ih =>
      have hheard := hsilent (n + 1) (by omega) (Nat.le_refl _)
      have hnil : Cursor.reported L.kind [] = [] := by
        rw [Cursor.reported]
        exact ite_self _
      rw [hits_succ, hheard, hnil, List.map_nil, List.append_nil]
      exact ih fun k hk hkn => hsilent k hk (Nat.le_succ_of_le hkn)

/-- The winner is reported, and it is the last that is. -/
theorem LeftmostFirst.getLast?_hits (h : LeftmostFirst words text p w i)
    (hkind : kind.isLeftmost = true) (hne : [] ∉ words) {c : Cursor}
    (hended : c.Ended (.ofWords kind words) text) :
    ((Lexicon.ofWords kind words).hits text c.position).getLast? =
      some ⟨p, i + w.length - 1⟩ := by
  have hw : w ≠ [] := by
    intro hnil
    subst hnil
    exact hne (List.mem_of_getElem? h.word)
  have hpos := List.length_pos_iff.2 hw
  have hread : i + w.length ≤ c.position := by
    rcases hended.ending with ⟨-, -, hstops⟩ | ⟨-, heq⟩
    · refine Nat.le_of_not_lt fun hlt => ?_
      exact h.not_mustStop hne hlt ((Lexicon.stops_iff hkind).1 hstops)
    · rw [heq]
      exact h.length_le hw
  obtain ⟨n, hn⟩ : ∃ n, i + w.length = n + 1 := ⟨i + w.length - 1, by omega⟩
  have hheard : (Lexicon.ofWords kind words).heard (text.take (n + 1)) =
      registeredAs kind words w := by
    have hlongest := Lexicon.heard_of_longest hkind (h.longestAtEnd hw)
    rw [List.length_take_of_le (h.length_le hw), Nat.add_sub_cancel, hn] at hlongest
    exact hlongest.2 h.not_occursBefore
  -- The first name of the winner's word is the winner's.
  have hregistered : Registered kind words p w := h.registered
  obtain ⟨q, hq, hleast⟩ := take_one_registeredAs hregistered
  obtain rfl : q = p := by
    refine PatternId.ext (Nat.le_antisymm (hleast.2 h.word) ?_)
    exact h.first q ⟨w, hleast.1, h.occurs⟩
  have hreported : Cursor.reported kind (registeredAs kind words w) = [q] := by
    rw [Cursor.reported, if_pos hkind, hq]
  rw [Lexicon.hits_of_silent hread fun k hk hle =>
      h.heard_later hkind hw hk (hle.trans hended.position_le),
    hn, Lexicon.hits_succ, hheard]
  rw [show (Lexicon.ofWords kind words).kind = kind from rfl, hreported, List.map_singleton,
    List.getLast?_concat, Nat.add_sub_cancel]

namespace Matcher

theorem getLast?_findAll {st : Settings} {patterns : List Bytes} {haystack bytes : Bytes}
    (hk : st.kind.isLeftmost = true) (hne : [] ∉ patterns.map st.canon)
    (hbytes : patterns[p.index]? = some bytes)
    (h : LeftmostFirst (patterns.map st.canon) (st.canon haystack) p (st.canon bytes) i) :
    ((build st patterns).findAll haystack).getLast? =
      some ⟨p, bytes, i, i + bytes.length - 1⟩ := by
  obtain ⟨c, hfound, hended⟩ := findAll_eq st patterns haystack
  have hpos : 0 < bytes.length := by
    refine List.length_pos_iff.2 fun hnil => hne ?_
    subst hnil
    exact List.mem_of_getElem? h.word
  have hget := h.getLast?_hits hk hne hended
  rw [Settings.length_canon] at hget
  have hlast : bytes.length ≤ i + bytes.length - 1 + 1 := by omega
  have hocc : (build st patterns).occurrence ⟨p, i + bytes.length - 1⟩ =
      ⟨p, bytes, i, i + bytes.length - 1⟩ := by
    refine (occurrence_eq_iff hbytes hlast).2 ⟨rfl, rfl, rfl, ?_⟩
    show i + bytes.length = i + bytes.length - 1 + 1
    omega
  rw [hfound, List.getLast?_map, hget, Option.map_some, hocc]

/-- Of patterns that are not empty, the last report of a leftmost search is the
occurrence that begins first, of the pattern given first among those that occur
there; and nothing is reported exactly if no pattern occurs. -/
theorem findAll_leftmost (st : Settings) (hk : st.kind.isLeftmost = true)
    (patterns : List Bytes) (hne : ∀ w ∈ patterns, w ≠ []) (haystack : Bytes) :
    let words := patterns.map st.canon
    let text := st.canon haystack
    let found := (build st patterns).findAll haystack
    (found = [] ↔ ∀ p i, ¬ OccursAt words text p i) ∧
      ((∃ p i, OccursAt words text p i) →
        ∃ x, found.getLast? = some x ∧
          patterns[x.pattern.index]? = some x.bytes ∧
          st.canon x.bytes <+: text.drop x.start ∧ x.start + x.bytes.length = x.last + 1 ∧
          IsLeast {i | ∃ p, OccursAt words text p i} x.start ∧
          IsLeast {k | OccursAt words text ⟨k⟩ x.start} x.pattern.index) := by
  intro words text found
  have hnil : [] ∉ words := by
    intro hmem
    obtain ⟨w, hw, hcanon⟩ := List.mem_map.1 hmem
    exact hne w hw ((Settings.canon_eq_nil_iff st w).1 hcanon)
  have hlast : ∀ {q j}, OccursAt words text q j →
      ∃ p bytes i, patterns[p.index]? = some bytes ∧
        LeftmostFirst words text p (st.canon bytes) i ∧
        found.getLast? = some ⟨p, bytes, i, i + bytes.length - 1⟩ := by
    intro q j hq
    obtain ⟨p, w, i, h⟩ := exists_leftmostFirst hq
    have hword := h.word
    rw [List.getElem?_map, Option.map_eq_some_iff] at hword
    obtain ⟨bytes, hbytes, rfl⟩ := hword
    exact ⟨p, bytes, i, hbytes, h, getLast?_findAll hk hnil hbytes h⟩
  refine ⟨⟨?_, ?_⟩, ?_⟩
  · intro hempty p i hoccurs
    obtain ⟨_, _, _, -, -, hfound⟩ := hlast hoccurs
    rw [hempty] at hfound
    cases hfound
  · intro hnone
    obtain ⟨c, hfound, hended⟩ := findAll_eq st patterns haystack
    have hsilent : (Lexicon.ofWords st.kind words).hits text c.position =
        (Lexicon.ofWords st.kind words).hits text 0 :=
      Lexicon.hits_of_silent (Nat.zero_le _) fun k _ hle =>
        Lexicon.heard_of_no_occurrence hnone (hle.trans hended.position_le)
    rw [show found = _ from hfound, hsilent]
    rfl
  · intro hex
    obtain ⟨q, j, hq⟩ := hex
    obtain ⟨p, bytes, i, hbytes, h, hfound⟩ := hlast hq
    have hpos := List.length_pos_iff.2 (hne bytes (List.mem_of_getElem? hbytes))
    refine ⟨_, hfound, hbytes, h.occurs, ?_, ⟨⟨p, _, h.word, h.occurs⟩, ?_⟩,
      ⟨_, h.word, h.occurs⟩, ?_⟩
    · show i + bytes.length = i + bytes.length - 1 + 1
      omega
    · intro i hi
      obtain ⟨p, hp⟩ := hi
      exact h.leftmost p i hp
    · intro k hk
      exact h.first ⟨k⟩ hk

/-- In the text cabc the pattern abc wins over the pattern bc. -/
theorem findAll_leftmost_nested :
    MatchKind.leftmostFirst.isLeftmost = true ∧
      (∀ w ∈ ([[0x62, 0x63], [0x61, 0x62, 0x63]] : List Bytes), w ≠ []) ∧
      ∃ x, ((build { kind := .leftmostFirst } [[0x62, 0x63], [0x61, 0x62, 0x63]]).findAll
          [0x63, 0x61, 0x62, 0x63]).getLast? = some x ∧ x.start ≤ 1 := by
  have hne : ∀ w ∈ ([[0x62, 0x63], [0x61, 0x62, 0x63]] : List Bytes), w ≠ [] := by decide
  have hall := findAll_leftmost { kind := .leftmostFirst } rfl _ hne [0x63, 0x61, 0x62, 0x63]
  have hoccurs : OccursAt [[0x62, 0x63], [0x61, 0x62, 0x63]] [0x63, 0x61, 0x62, 0x63] ⟨1⟩ 1 :=
    ⟨[0x61, 0x62, 0x63], rfl, by decide⟩
  obtain ⟨x, hx, -, -, -, hleast, -⟩ := hall.2 ⟨⟨1⟩, 1, hoccurs⟩
  exact ⟨rfl, hne, x, hx, hleast.2 ⟨⟨1⟩, hoccurs⟩⟩

end Matcher

end MultiPattern
