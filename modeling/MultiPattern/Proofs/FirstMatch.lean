import Mathlib.Data.List.Sort
import MultiPattern.Proofs.LastMatch
import MultiPattern.Proofs.Standard

/-!
# Leftmost reports among the standard ones

What a leftmost search reports is a choice from what the standard search
reports, in the same order: every report is of a pattern that ends there. The
choice is never empty where there is one to be made. It begins with the first
pattern to end, and where several end at that byte with the longest of them, and
it goes on with occurrences that each contain the one before.

The first part rests on the offset at which a pattern ends first (`FirstEnd`). No
pattern that ends there is given up, for what would have it given up is a proper
prefix and ends earlier. Nothing that occurs in the text so far begins before the
longest of them, so it is reported; and the scan has not stopped, for whatever
occurs in the text so far is still a string of the tree. The second part is the
law of what is reported under a leftmost rule: nothing that occurs begins before
the longest registered pattern that ends, the report before it included.
-/

namespace MultiPattern

/-- Some pattern ends in front of the offset `k` of `text`, and none in front of
an earlier one. -/
structure FirstEnd (words : List Bytes) (text : Bytes) (k : Nat) : Prop where
  le_length : k ≤ text.length
  ends : ∃ (p : PatternId) (w : Bytes), words[p.index]? = some w ∧ w <:+ text.take k
  first : ∀ (p : PatternId) (w : Bytes) (j : Nat),
    words[p.index]? = some w → j ≤ text.length → w <:+ text.take j → k ≤ j

variable {kind : MatchKind} {words : List Bytes} {text u w : Bytes} {p q : PatternId}
  {i j k m n : Nat}

theorem exists_firstEnd (hp : words[p.index]? = some w) (hn : n ≤ text.length)
    (hsuffix : w <:+ text.take n) : ∃ k, FirstEnd words text k := by
  have hex : ∃ k, k ≤ text.length ∧
      ∃ (p : PatternId) (w : Bytes), words[p.index]? = some w ∧ w <:+ text.take k :=
    ⟨n, hn, p, w, hp, hsuffix⟩
  classical
  obtain ⟨hle, hends⟩ := Nat.find_spec hex
  exact ⟨Nat.find hex, hle, hends, fun q u j hq hj hu => Nat.find_min' hex ⟨hj, q, u, hq, hu⟩⟩

theorem add_length_le_of_prefix_drop_take (h : u <+: (text.take k).drop i) (hne : u ≠ []) :
    i + u.length ≤ k :=
  (add_length_le_of_prefix_drop h hne).trans (List.length_take_le _ _)

namespace FirstEnd

theorem pos (h : FirstEnd words text k) (hne : [] ∉ words) : 0 < k := by
  obtain ⟨p, w, hp, hsuffix⟩ := h.ends
  refine Nat.pos_of_ne_zero fun hk => hne ?_
  subst hk
  rw [List.take_zero, List.suffix_nil] at hsuffix
  subst hsuffix
  exact List.mem_of_getElem? hp

/-- What occurs by then ends there. -/
theorem suffix_of_occurs (h : FirstEnd words text k) (hp : words[p.index]? = some u) (hne : u ≠ [])
    (hmk : m ≤ k) (hoccurs : u <+: (text.take m).drop i) : i + u.length = k ∧ m = k := by
  have hle := add_length_le_of_prefix_drop_take hoccurs hne
  have hlength := h.le_length
  have hge := h.first p u (i + u.length) hp (by omega)
    (suffix_take_of_prefix_drop (prefix_drop_of_prefix_drop_take hoccurs))
  omega

/-- A pattern that ends first is not given up: what it would be given up for
ends before. -/
theorem registered (kind : MatchKind) (h : FirstEnd words text k) (hp : words[p.index]? = some w)
    (hsuffix : w <:+ text.take k) : Registered kind words p w := by
  refine ⟨hp, ?_⟩
  intro hgiven
  obtain ⟨-, u, hu, hbelow, hne⟩ := hgiven
  obtain ⟨j, hj⟩ := List.mem_iff_getElem?.1 (List.mem_of_mem_take hu)
  have hbegins := hbelow.trans (prefix_drop_of_suffix_take hsuffix h.le_length)
  have hlt : u.length < w.length :=
    Nat.lt_of_le_of_ne hbelow.length_le fun heq => hne (hbelow.eq_of_length heq)
  have hlength := h.le_length
  have hwk := hsuffix.length_le
  rw [List.length_take_of_le hlength] at hwk
  have hge := h.first ⟨j⟩ u (k - w.length + u.length) hj (by omega)
    (suffix_take_of_prefix_drop hbegins)
  omega

theorem exists_longest (kind : MatchKind) (h : FirstEnd words text k) (hne : [] ∉ words) :
    ∃ v, LongestAtEnd kind words (text.take k) v ∧
      ¬ OccursBefore kind words (text.take k) (k - v.length) := by
  obtain ⟨p, w, hp, hsuffix⟩ := h.ends
  have hw : w ≠ [] := fun hnil => hne (hnil ▸ List.mem_of_getElem? hp)
  obtain ⟨v, hv⟩ := exists_longestAtEnd (h.registered kind hp hsuffix) hw hsuffix
  refine ⟨v, hv, ?_⟩
  intro hoccurs
  obtain ⟨i, hi, q, u, hu, hnil, hbegins⟩ := hoccurs
  obtain ⟨hend, -⟩ := h.suffix_of_occurs hu.1 hnil (Nat.le_refl k) hbegins
  have husuffix := suffix_take_of_prefix_drop (prefix_drop_of_prefix_drop_take hbegins)
  rw [hend] at husuffix
  have hle := hv.2 q u hu hnil husuffix
  omega

theorem not_mustStop (h : FirstEnd words text k) (hne : [] ∉ words) (hm : m ≤ k) :
    ¬ MustStop kind words (text.take m) := by
  intro hstop
  obtain ⟨s, hs, hor⟩ := hstop
  obtain ⟨i, hi, q, u, hu, hnil, hbegins⟩ := hor.resolve_right fun hempty => hne hempty.1
  obtain ⟨hend, rfl⟩ := h.suffix_of_occurs hu.1 hnil hm hbegins
  -- What occurs is all that is left from where it begins, so it is kept.
  have hall : u = (text.take m).drop i := by
    refine hbegins.eq_of_length ?_
    rw [List.length_drop, List.length_take_of_le h.le_length]
    omega
  have htree : InTree kind words ((text.take m).drop i) :=
    Or.inr ⟨q, u, hu, hall ▸ List.prefix_rfl⟩
  have hsi : s ≤ i := hs.2 htree
  omega

theorem heard_before (h : FirstEnd words text k) (hj : j < k) :
    (Lexicon.ofWords kind words).heard (text.take j) = [] := by
  refine Classical.byContradiction fun hne => ?_
  have hlength := h.le_length
  obtain ⟨p, hp⟩ := List.exists_mem_of_ne_nil _ hne
  obtain ⟨u, hsuffix, hu⟩ := Lexicon.exists_mem_outputs_of_mem_heard hp
  have hge := h.first p u j (mem_registeredAs.1 hu).1 (by omega) hsuffix
  omega

end FirstEnd

namespace Lexicon

theorem hits_prefix (L : Lexicon) (text : Bytes) (hmn : m ≤ n) : L.hits text m <+: L.hits text n := by
  induction n, hmn using Nat.le_induction with
  | base => exact List.prefix_rfl
  | succ n _ ih =>
      rw [hits_succ]
      exact ih.trans (List.prefix_append _ _)

/-- A leftmost report of a pattern that is not empty is of the longest registered
pattern that ends there, and nothing that occurs begins before it. -/
theorem longest_of_mem_heard (hk : kind.isLeftmost = true) (hne : words[p.index]? ≠ some [])
    (hp : p ∈ (ofWords kind words).heard text) :
    ∃ v, LongestAtEnd kind words text v ∧ Registered kind words p v ∧
      ¬ OccursBefore kind words text (text.length - v.length) := by
  obtain ⟨u, hsuffix, hu⟩ := exists_mem_outputs_of_mem_heard hp
  have hreg : Registered kind words p u := mem_registeredAs.1 hu
  have hnil : u ≠ [] := fun hnil => hne (hnil ▸ hreg.1)
  obtain ⟨v, hv⟩ := exists_longestAtEnd hreg hnil hsuffix
  have hheard := heard_of_longest hk hv
  by_cases hoccurs : OccursBefore kind words text (text.length - v.length)
  · rw [hheard.1 hoccurs] at hp
    cases hp
  · rw [hheard.2 hoccurs] at hp
    exact ⟨v, hv, mem_registeredAs.1 hp, hoccurs⟩

theorem hits_sublist_standard (hm : m ≤ n) :
    ((ofWords kind words).hits text m).Sublist ((ofWords .standard words).hits text n) := by
  have hnodup : ((ofWords kind words).hits text m).Nodup :=
    (pairwise_hits _ text m).imp fun hlt heq => by
      subst heq
      omega
  have hsubset : (ofWords kind words).hits text m ⊆ (ofWords .standard words).hits text n := by
    intro h hh
    obtain ⟨hlt, u, hu, hsuffix⟩ := exists_suffix_of_mem_hits hh
    exact mem_hits_standard.2 ⟨by omega, u, hu, hsuffix⟩
  have hantisymm : Std.Antisymm fun g h : Hit =>
      g.last < h.last ∨ g.last = h.last ∧ g.pattern.index < h.pattern.index :=
    ⟨fun g h hgh hhg => by omega⟩
  exact List.sublist_of_subperm_of_pairwise (List.subperm_of_subset hnodup hsubset)
    (pairwise_hits _ text m) (pairwise_hits _ text n)

theorem eq_of_mem_reported {ps : List PatternId} (hk : kind.isLeftmost = true)
    (hp : p ∈ Cursor.reported kind ps) (hq : q ∈ Cursor.reported kind ps) : p = q := by
  rw [Cursor.reported, if_pos hk] at hp hq
  cases ps with
  | nil => cases hp
  | cons x rest =>
      rw [List.take_succ_cons, List.take_zero, List.mem_singleton] at hp hq
      rw [hp, hq]

/-- Of two leftmost reports the later one ends later and does not begin
later. -/
theorem pairwise_hits_leftmost (hk : kind.isLeftmost = true) (hne : [] ∉ words)
    (hm : m ≤ text.length) :
    ((ofWords kind words).hits text m).Pairwise fun g h => g.last < h.last ∧
      ∀ u v, words[g.pattern.index]? = some u → words[h.pattern.index]? = some v →
        h.last + 1 - v.length ≤ g.last + 1 - u.length := by
  refine (pairwise_hits (ofWords kind words) text m).imp_of_mem fun {g h} hg hh horder => ?_
  obtain ⟨hgm, hgp⟩ := mem_hits.1 hg
  obtain ⟨hhm, hhp⟩ := mem_hits.1 hh
  have hlast : g.last < h.last := by
    refine horder.resolve_right fun heq => ?_
    rw [heq.1] at hgp
    have hsame := eq_of_mem_reported hk hgp hhp
    rw [hsame] at heq
    exact Nat.lt_irrefl _ heq.2
  refine ⟨hlast, fun u v hu hv => Nat.le_of_not_lt fun hlt => ?_⟩
  have hnil : ∀ q : PatternId, words[q.index]? ≠ some [] := fun q h => hne (List.mem_of_getElem? h)
  obtain ⟨u', hu', hureg, -⟩ := longest_of_mem_heard hk (hnil _) (mem_reported hgp)
  obtain ⟨v', hv', hvreg, hnot⟩ := longest_of_mem_heard hk (hnil _) (mem_reported hhp)
  obtain rfl : u' = u := Option.some.inj (hureg.1.symm.trans hu)
  obtain rfl : v' = v := Option.some.inj (hvreg.1.symm.trans hv)
  -- The earlier report occurs in what has been read when the later one is made.
  have hbegins := prefix_drop_of_suffix_take hu'.1.2.2 (show g.last + 1 ≤ text.length by omega)
  have hlength := hu'.1.2.2.length_le
  rw [List.length_take_of_le (by omega)] at hlength
  rw [List.length_take_of_le (by omega)] at hnot
  exact hnot ⟨g.last + 1 - u'.length, hlt, g.pattern, u', hureg, hu'.1.1,
    prefix_drop_take hbegins (by omega)⟩

end Lexicon

namespace FirstEnd

/-- A leftmost scan does not stop before a pattern has ended. -/
theorem le_position (h : FirstEnd words text k) (hk : kind.isLeftmost = true) (hne : [] ∉ words)
    {c : Cursor} (hended : c.Ended (.ofWords kind words) text) : k ≤ c.position := by
  rcases hended.ending with ⟨-, -, hstops⟩ | ⟨-, heq⟩
  · refine Nat.le_of_not_lt fun hlt => ?_
    exact h.not_mustStop hne hlt ((Lexicon.stops_iff hk).1 hstops)
  · rw [heq]
    exact h.le_length

/-- Where a pattern ends first a leftmost scan reports for the first time: the
longest pattern that ends there, by its first name. -/
theorem head?_hits (h : FirstEnd words text k) (hk : kind.isLeftmost = true)
    (hne : [] ∉ words) {c : Cursor} (hended : c.Ended (.ofWords kind words) text) :
    ∃ (p : PatternId) (v : Bytes),
      ((Lexicon.ofWords kind words).hits text c.position).head? = some ⟨p, k - 1⟩ ∧
        words[p.index]? = some v ∧ v <:+ text.take k ∧
        ∀ (q : PatternId) (u : Bytes), words[q.index]? = some u → u <:+ text.take k →
          u.length < v.length ∨ u.length = v.length ∧ p.index ≤ q.index := by
  have hread := h.le_position hk hne hended
  obtain ⟨n, rfl⟩ : ∃ n, k = n + 1 := ⟨k - 1, by have := h.pos hne; omega⟩
  obtain ⟨v, hv, hnot⟩ := h.exists_longest kind hne
  have hheard := Lexicon.heard_of_longest hk hv
  rw [List.length_take_of_le h.le_length] at hheard
  obtain ⟨q, hq⟩ := hv.1.2.1
  obtain ⟨p, hname, hleast⟩ := take_one_registeredAs hq
  have hhits : (Lexicon.ofWords kind words).hits text (n + 1) = [⟨p, n⟩] := by
    have hbefore : (Lexicon.ofWords kind words).hits text n = [] :=
      Lexicon.hits_of_silent (Nat.zero_le n) fun j _ hj => h.heard_before (Nat.lt_succ_of_le hj)
    rw [Lexicon.hits_succ, hbefore, hheard.2 hnot, Cursor.reported,
      if_pos (show (Lexicon.ofWords kind words).kind.isLeftmost = true from hk), hname]
    rfl
  have hbegins := Lexicon.hits_prefix (.ofWords kind words) text hread
  rw [hhits] at hbegins
  obtain ⟨rest, hrest⟩ := hbegins
  refine ⟨p, v, ?_, hleast.1, hv.1.2.2, ?_⟩
  · rw [← hrest]
    rfl
  · intro q u hu hsuffix
    have hnil : u ≠ [] := fun hnil => hne (hnil ▸ List.mem_of_getElem? hu)
    rcases Nat.lt_or_eq_of_le (hv.2 q u (h.registered kind hu hsuffix) hnil hsuffix) with hlt | heq
    · exact Or.inl hlt
    · refine Or.inr ⟨heq, hleast.2 ?_⟩
      rw [← (List.suffix_of_suffix_length_le hsuffix hv.1.2.2 heq.le).eq_of_length heq]
      exact hu

end FirstEnd

namespace Matcher

theorem isMatch_eq (st : Settings) (patterns : List Bytes) (haystack : Bytes) :
    (build st patterns).isMatch haystack = !((build st patterns).findAll haystack).isEmpty := by
  obtain ⟨c, hits, hgives, hdrain, -, -⟩ := Automaton.drain_scan st patterns haystack
  have hfound : (build st patterns).findAll haystack =
      hits.map (build st patterns).occurrence := by
    rw [findAll, Feed.rest, drain_search]
    exact congrArg (fun r => r.1.map (build st patterns).occurrence) hdrain
  have hnext : (build st patterns).isMatch haystack =
      ((Automaton.compile st patterns).scan haystack).next.1.isSome := by
    rw [isMatch, Search.next]
    exact Option.isSome_map
  rw [hfound, hnext]
  cases hgives with
  | nil h =>
      rw [show Cursor.next _ = _ from h]
      rfl
  | cons h _ =>
      rw [show Cursor.next _ = _ from h]
      rfl

section

variable {foldCase : Bool} {patterns : List Bytes} {haystack : Bytes} {x : Occurrence}

theorem mem_findAll_standard (kind : MatchKind) :
    x ∈ (build { kind := .standard, foldCase } patterns).findAll haystack ↔
      patterns[x.pattern.index]? = some x.bytes ∧ x.last < haystack.length ∧
        Settings.canon { kind, foldCase } x.bytes <:+
          (Settings.canon { kind, foldCase } haystack).take (x.last + 1) ∧
        x.start + x.bytes.length = x.last + 1 := by
  obtain ⟨c, hall, hended⟩ := findAll_eq { kind := .standard, foldCase } patterns haystack
  obtain ⟨-, hposition⟩ := hended.of_not_leftmost rfl
  rw [Settings.length_canon] at hposition
  rw [hall, hposition, ← Settings.canon_take]
  exact mem_map_occurrence

theorem findAll_sublist_standard (kind : MatchKind) :
    ((build { kind, foldCase } patterns).findAll haystack).Sublist
      ((build { kind := .standard, foldCase } patterns).findAll haystack) := by
  obtain ⟨c, hfound, hended⟩ := findAll_eq { kind, foldCase } patterns haystack
  obtain ⟨c', hall, hended'⟩ := findAll_eq { kind := .standard, foldCase } patterns haystack
  obtain ⟨-, hposition⟩ := hended'.of_not_leftmost rfl
  rw [hfound, hall]
  refine (Lexicon.hits_sublist_standard ?_).map _
  rw [hposition]
  exact hended.position_le

variable (hk : kind.isLeftmost = true)
  (hne : [] ∉ patterns.map (Settings.canon { kind, foldCase }))

include hk hne

/-- Where the standard search reports something a leftmost one does, and its
first report is the least of all. -/
theorem head?_findAll
    (hx : x ∈ (build { kind := .standard, foldCase } patterns).findAll haystack) :
    ∃ x, ((build { kind, foldCase } patterns).findAll haystack).head? = some x ∧
      ∀ y ∈ (build { kind := .standard, foldCase } patterns).findAll haystack,
        x.last < y.last ∨ x.last = y.last ∧
          (x.start < y.start ∨ x.start = y.start ∧ x.pattern.index ≤ y.pattern.index) := by
  have hword : ∀ {y : Occurrence}, patterns[y.pattern.index]? = some y.bytes →
      (patterns.map (Settings.canon { kind, foldCase }))[y.pattern.index]? =
        some (Settings.canon { kind, foldCase } y.bytes) := by
    intro y hy
    rw [List.getElem?_map, hy, Option.map_some]
  obtain ⟨hpattern, hlast, hsuffix, -⟩ := (mem_findAll_standard kind).1 hx
  obtain ⟨k, hfirst⟩ := exists_firstEnd (hword hpattern) (by rw [Settings.length_canon]; omega) hsuffix
  obtain ⟨c, hfound, hended⟩ := findAll_eq { kind, foldCase } patterns haystack
  obtain ⟨p, v, hhead, hv, -, hleast⟩ := hfirst.head?_hits hk hne hended
  have hpos := hfirst.pos hne
  refine ⟨(build { kind, foldCase } patterns).occurrence ⟨p, k - 1⟩, ?_, ?_⟩
  · rw [hfound, List.head?_map, hhead, Option.map_some]
  · generalize hocc : (build { kind, foldCase } patterns).occurrence ⟨p, k - 1⟩ = z
    have hz : z ∈ (build { kind := .standard, foldCase } patterns).findAll haystack := by
      refine (findAll_sublist_standard kind).subset ?_
      rw [hfound, ← hocc]
      exact List.mem_map_of_mem (List.mem_of_mem_head? hhead)
    obtain ⟨hzpattern, -, -, hzstart⟩ := (mem_findAll_standard kind).1 hz
    have hzp : z.pattern = p := by rw [← hocc]; rfl
    have hzlast : z.last = k - 1 := by rw [← hocc]; rfl
    obtain rfl : v = Settings.canon { kind, foldCase } z.bytes := by
      have hzword := hword hzpattern
      rw [hzp, hv] at hzword
      exact Option.some.inj hzword
    intro y hy
    obtain ⟨hypattern, hylast, hysuffix, hystart⟩ := (mem_findAll_standard kind).1 hy
    have hge := hfirst.first y.pattern _ (y.last + 1) (hword hypattern)
      (by rw [Settings.length_canon]; omega) hysuffix
    rcases Nat.lt_or_eq_of_le hge with hlt | heq
    · exact Or.inl (by omega)
    · rw [← heq] at hysuffix
      have hylength := hleast y.pattern _ (hword hypattern) hysuffix
      rw [Settings.length_canon, Settings.length_canon, ← hzp] at hylength
      omega

/-- Every report contains the one before. -/
theorem pairwise_findAll_leftmost :
    ((build { kind, foldCase } patterns).findAll haystack).Pairwise
      fun x y => x.last < y.last ∧ y.start ≤ x.start := by
  obtain ⟨c, hfound, hended⟩ := findAll_eq { kind, foldCase } patterns haystack
  have hword : ∀ h ∈ (Lexicon.ofWords kind (patterns.map (Settings.canon { kind, foldCase }))).hits
      (Settings.canon { kind, foldCase } haystack) c.position,
      (patterns.map (Settings.canon { kind, foldCase }))[h.pattern.index]? =
        some (Settings.canon { kind, foldCase }
          ((build { kind, foldCase } patterns).occurrence h).bytes) := by
    intro h hh
    have hx := (findAll_sublist_standard kind).subset
      (hfound ▸ List.mem_map_of_mem (f := (build { kind, foldCase } patterns).occurrence) hh)
    have hpattern := ((mem_findAll_standard kind).1 hx).1
    rw [List.getElem?_map]
    exact congrArg (Option.map _) hpattern
  rw [hfound, List.pairwise_map]
  refine (Lexicon.pairwise_hits_leftmost hk hne hended.position_le).imp_of_mem ?_
  intro g h hg hh hgh
  have hstart := hgh.2 _ _ (hword g hg) (hword h hh)
  rw [Settings.length_canon, Settings.length_canon] at hstart
  exact ⟨hgh.1, hstart⟩

end

/-- Of patterns that are not empty, a leftmost search reports some of what the
standard search reports, and something if that does. It begins with the match
that ends first, of those with the one that begins first, and of those with the
pattern given first; and every report contains the one before. -/
theorem findAll_leftmost_standard (kind : MatchKind) (hk : kind.isLeftmost = true)
    (foldCase : Bool) (patterns : List Bytes) (hne : ∀ w ∈ patterns, w ≠ [])
    (haystack : Bytes) :
    let leftmost := build { kind, foldCase } patterns
    let standard := build { kind := .standard, foldCase } patterns
    let found := leftmost.findAll haystack
    let all := standard.findAll haystack
    found.Sublist all ∧
      (found = [] ↔ all = []) ∧
      leftmost.isMatch haystack = standard.isMatch haystack ∧
      (∀ x, found.head? = some x → x ∈ all ∧ ∀ y ∈ all,
        x.last < y.last ∨ x.last = y.last ∧
          (x.start < y.start ∨ x.start = y.start ∧ x.pattern.index ≤ y.pattern.index)) ∧
      found.Pairwise fun x y => x.last < y.last ∧ y.start ≤ x.start := by
  intro leftmost standard found all
  have hnil : [] ∉ patterns.map (Settings.canon { kind, foldCase }) := by
    intro hmem
    obtain ⟨w, hw, hcanon⟩ := List.mem_map.1 hmem
    exact hne w hw ((Settings.canon_eq_nil_iff _ w).1 hcanon)
  have hsublist : found.Sublist all := findAll_sublist_standard kind
  have hempty : found = [] ↔ all = [] := by
    refine ⟨fun h => ?_, fun h => ?_⟩
    · refine Classical.byContradiction fun hsome => ?_
      obtain ⟨x, hx⟩ := List.exists_mem_of_ne_nil _ hsome
      obtain ⟨y, hy, -⟩ := head?_findAll hk hnil hx
      rw [show (build _ patterns).findAll haystack = [] from h] at hy
      cases hy
    · rw [h] at hsublist
      exact List.eq_nil_of_sublist_nil hsublist
  refine ⟨hsublist, hempty, ?_, ?_, pairwise_findAll_leftmost hk hnil⟩
  · rw [isMatch_eq, isMatch_eq, Bool.not_inj_iff, Bool.eq_iff_iff, List.isEmpty_iff,
      List.isEmpty_iff]
    exact hempty
  · intro x hx
    have hxall : x ∈ all := hsublist.subset (List.mem_of_mem_head? hx)
    obtain ⟨y, hy, hleast⟩ := head?_findAll hk hnil hxall
    obtain rfl : y = x := Option.some.inj (hy.symm.trans hx)
    exact ⟨hxall, hleast⟩

/-- In the text abcd the pattern bc is reported first, though abcd begins
before it. -/
theorem findAll_leftmost_standard_inner :
    MatchKind.leftmostFirst.isLeftmost = true ∧
      (∀ w ∈ ([[0x61, 0x62, 0x63, 0x64], [0x62, 0x63]] : List Bytes), w ≠ []) ∧
      ∃ x, ((build { kind := .leftmostFirst, foldCase := true }
          [[0x61, 0x62, 0x63, 0x64], [0x62, 0x63]]).findAll
            [0x61, 0x42, 0x63, 0x44]).head? = some x ∧ x.last ≤ 2 := by
  have hne : ∀ w ∈ ([[0x61, 0x62, 0x63, 0x64], [0x62, 0x63]] : List Bytes), w ≠ [] := by decide
  have hall := findAll_leftmost_standard .leftmostFirst rfl true _ hne [0x61, 0x42, 0x63, 0x44]
  have hinner : ⟨⟨1⟩, [0x62, 0x63], 1, 2⟩ ∈ (build { kind := .standard, foldCase := true }
      [[0x61, 0x62, 0x63, 0x64], [0x62, 0x63]]).findAll [0x61, 0x42, 0x63, 0x44] :=
    (mem_findAll_standard .standard).2 ⟨rfl, by decide, by decide, rfl⟩
  obtain ⟨-, hempty, -, hhead, -⟩ := hall
  have hfound := fun hnil => List.ne_nil_of_mem hinner (hempty.1 hnil)
  refine ⟨rfl, hne, _, List.head?_eq_some_head hfound, ?_⟩
  exact ((hhead _ (List.head?_eq_some_head hfound)).2 _ hinner).elim Nat.le_of_lt fun h =>
    Nat.le_of_eq h.1

end Matcher

end MultiPattern
