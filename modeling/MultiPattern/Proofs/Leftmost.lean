import Mathlib.Order.Bounds.Basic
import MultiPattern.Proofs.Scan

/-!
# What the leftmost rules report and where they stop

Under a leftmost rule the lexicon of a list of patterns is about registered
patterns alone: a string commits a search exactly if it is one of them and not
empty. That turns the two laws of `heard` and the law of `settle` into
statements about where registered patterns occur.

At every byte that is read the longest registered pattern that ends there is
looked at and no other. It is reported, by the name it was given first, unless
some registered pattern began earlier (`heard_of_longest`); where none ends
there, the empty pattern may be reported instead (`heard_of_none`). The scan
stops before the first byte that would make it drop the beginning of a
registered pattern, or everything if the empty pattern is one (`stops_iff`).
-/

namespace MultiPattern

variable {kind : MatchKind} {words : List Bytes} {text v w : Bytes} {p : PatternId} {n s : Nat}

/-- The longest registered pattern, of those that are not empty, that `text`
ends with. -/
def LongestAtEnd (kind : MatchKind) (words : List Bytes) (text v : Bytes) : Prop :=
  (v ≠ [] ∧ (∃ p, Registered kind words p v) ∧ v <:+ text) ∧
    ∀ p u, Registered kind words p u → u ≠ [] → u <:+ text → u.length ≤ v.length

/-- After reading `text` the scan must stop: a registered pattern that is not
empty begins before everything that may still become one, or nothing may and
there is an empty pattern. -/
def MustStop (kind : MatchKind) (words : List Bytes) (text : Bytes) : Prop :=
  ∃ s, IsLeast {i | InTree kind words (text.drop i)} s ∧
    (OccursBefore kind words text s ∨ ([] ∈ words ∧ s = text.length))

/-- Where a registered pattern ends that is not empty, there is a longest. -/
theorem exists_longestAtEnd {u : Bytes} (hu : Registered kind words p u) (hne : u ≠ [])
    (hsuffix : u <:+ text) : ∃ v, LongestAtEnd kind words text v := by
  have hex : ∃ i, text.drop i ≠ [] ∧ ∃ p, Registered kind words p (text.drop i) := by
    refine ⟨text.length - u.length, ?_⟩
    rw [← List.suffix_iff_eq_drop.1 hsuffix]
    exact ⟨hne, p, hu⟩
  classical
  obtain ⟨hnil, hreg⟩ := Nat.find_spec hex
  refine ⟨text.drop (Nat.find hex), ⟨hnil, hreg, List.drop_suffix _ _⟩, ?_⟩
  intro q w hw hwne hwsuffix
  have hle : Nat.find hex ≤ text.length - w.length := by
    refine Nat.find_min' hex ?_
    rw [← List.suffix_iff_eq_drop.1 hwsuffix]
    exact ⟨hwne, q, hw⟩
  have hlen := hwsuffix.length_le
  rw [List.length_drop]
  omega

/-! ## Names of a word -/

theorem registered_nil_iff : Registered kind words p [] ↔ words[p.index]? = some [] := by
  refine and_iff_left ?_
  intro h
  obtain ⟨-, u, -, hprefix, hne⟩ := h
  exact hne (List.prefix_nil.1 hprefix)

/-- With a pattern, every earlier one of the same word is registered. -/
theorem Registered.of_le {q : PatternId} (h : Registered kind words p w)
    (hq : words[q.index]? = some w) (hle : q.index ≤ p.index) : Registered kind words q w := by
  refine ⟨hq, ?_⟩
  intro hgiven
  obtain ⟨hk, u, hu, hprefix⟩ := hgiven
  exact h.2 ⟨hk, u, List.take_subset_take_left words hle hu, hprefix⟩

theorem registeredAs_ne_nil_iff :
    registeredAs kind words w ≠ [] ↔ ∃ p, Registered kind words p w := by
  refine ⟨?_, ?_⟩
  · intro hne
    obtain ⟨p, hp⟩ := List.exists_mem_of_ne_nil _ hne
    exact ⟨p, mem_registeredAs.1 hp⟩
  · intro h
    obtain ⟨p, hp⟩ := h
    exact List.ne_nil_of_mem (mem_registeredAs.2 hp)

/-- Of the names of a registered word the first is reported. -/
theorem take_one_registeredAs (h : Registered kind words p w) :
    ∃ p, (registeredAs kind words w).take 1 = [p] ∧ IsLeast {i | words[i]? = some w} p.index := by
  have hmem := mem_registeredAs.2 h
  have hpairwise := pairwise_registeredAs kind words w
  cases hnames : registeredAs kind words w with
  | nil =>
      rw [hnames] at hmem
      cases hmem
  | cons first rest =>
      have hfirst : Registered kind words first w := by
        rw [← mem_registeredAs, hnames]
        exact List.mem_cons_self
      rw [hnames] at hpairwise
      refine ⟨first, rfl, hfirst.1, ?_⟩
      intro i hi
      show first.index ≤ i
      rcases Nat.le_total first.index i with hle | hle
      · exact hle
      · -- An earlier name is registered too, and the list is ascending.
        have hreg : Registered kind words ⟨i⟩ w := hfirst.of_le hi hle
        rw [← mem_registeredAs, hnames] at hreg
        rcases List.mem_cons.1 hreg with heq | hrest
        · exact Nat.le_of_eq (congrArg PatternId.index heq.symm)
        · exact Nat.le_of_lt ((List.pairwise_cons.1 hpairwise).1 _ hrest)

/-! ## The lexicon of patterns under a leftmost rule -/

namespace Lexicon

section

variable (hk : kind.isLeftmost = true)
include hk

theorem commits_ofWords_iff :
    (ofWords kind words).Commits w ↔ w ≠ [] ∧ ∃ p, Registered kind words p w :=
  (and_iff_right hk).trans (and_congr_right fun _ => registeredAs_ne_nil_iff)

theorem committed_ofWords_iff :
    (ofWords kind words).Committed w ↔ ∃ p u, Registered kind words p u ∧ u ≠ [] ∧ u <+: w := by
  rw [committed_iff]
  simp only [commits_ofWords_iff hk]
  refine ⟨?_, ?_⟩
  · intro h
    obtain ⟨u, hprefix, hne, p, hp⟩ := h
    exact ⟨p, u, hp, hne, hprefix⟩
  · intro h
    obtain ⟨p, u, hp, hne, hprefix⟩ := h
    exact ⟨u, hprefix, hne, p, hp⟩

theorem occursBefore_iff :
    OccursBefore kind words text s ↔ ∃ i < s, (ofWords kind words).Committed (text.drop i) := by
  simp only [committed_ofWords_iff hk]
  exact Iff.rfl

theorem shut_ofWords_iff : (ofWords kind words).Shut ↔ [] ∈ words := by
  refine (and_iff_right hk).trans (registeredAs_ne_nil_iff.trans ?_)
  rw [List.mem_iff_getElem?]
  simp only [registered_nil_iff]
  exact ⟨fun ⟨p, hp⟩ => ⟨p.index, hp⟩, fun ⟨i, hi⟩ => ⟨⟨i⟩, hi⟩⟩

/-- The longest registered pattern at the end decides, if there is one. -/
theorem heard_of_longest (hv : LongestAtEnd kind words text v) :
    (OccursBefore kind words text (text.length - v.length) →
        (ofWords kind words).heard text = []) ∧
      (¬ OccursBefore kind words text (text.length - v.length) →
        (ofWords kind words).heard text = registeredAs kind words v) := by
  obtain ⟨⟨hne, hreg, hsuffix⟩, hlongest⟩ := hv
  have hdrop : text.drop (text.length - v.length) = v := (List.suffix_iff_eq_drop.1 hsuffix).symm
  have hleast : IsLeast {i | (ofWords kind words).Commits (text.drop i)}
      (text.length - v.length) := by
    refine ⟨?_, ?_⟩
    · show (ofWords kind words).Commits (text.drop _)
      rw [hdrop]
      exact (commits_ofWords_iff hk).2 ⟨hne, hreg⟩
    · intro i hi
      obtain ⟨hnil, q, hq⟩ := (commits_ofWords_iff hk).1 hi
      have hle := hlongest q _ hq hnil (List.drop_suffix i text)
      rw [List.length_drop] at hle
      omega
  have hheard := heard_of_isLeast (show (ofWords kind words).kind.isLeftmost = true from hk) hleast
  rw [← occursBefore_iff hk, hdrop] at hheard
  refine ⟨hheard.1, ?_⟩
  intro hnot
  refine hheard.2 ?_
  intro i hi hcom
  exact hnot ((occursBefore_iff hk).2 ⟨i, hi, hcom⟩)

/-- Where no registered pattern ends, the empty one is heard if nothing else
is. -/
theorem heard_of_none {b : UInt8}
    (hnone : ∀ p u, Registered kind words p u → u ≠ [] → ¬ u <:+ text ++ [b]) :
    (OccursBefore kind words (text ++ [b]) (text ++ [b]).length ∨ InTree kind words [b] →
        (ofWords kind words).heard (text ++ [b]) = []) ∧
      (¬ OccursBefore kind words (text ++ [b]) (text ++ [b]).length → ¬ InTree kind words [b] →
        (ofWords kind words).heard (text ++ [b]) = registeredAs kind words []) := by
  have hnot : ∀ i, ¬ (ofWords kind words).Commits ((text ++ [b]).drop i) := by
    intro i hi
    obtain ⟨hne, p, hp⟩ := (commits_ofWords_iff hk).1 hi
    exact hnone p _ hp hne (List.drop_suffix i _)
  -- Behind the last byte nothing is left that could be committed.
  have hcommitted : OccursBefore kind words (text ++ [b]) (text ++ [b]).length ↔
      ∃ i, (ofWords kind words).Committed ((text ++ [b]).drop i) := by
    rw [occursBefore_iff hk]
    refine exists_congr fun i => and_iff_right_of_imp ?_
    intro hcom
    refine Nat.lt_of_not_le fun hle => ?_
    rw [List.drop_eq_nil_of_le hle] at hcom
    exact not_committed_nil hcom
  have hheard :=
    heard_of_not_commits (show (ofWords kind words).kind.isLeftmost = true from hk) hnot
  rw [← hcommitted] at hheard
  refine ⟨?_, ?_⟩
  · intro hor
    exact hheard.1 (hor.imp_right Strings.mem_ofWords.2)
  · intro hoccurs htree
    refine hheard.2 ?_ fun hmem => htree (Strings.mem_ofWords.1 hmem)
    intro i hi
    exact hoccurs (hcommitted.2 ⟨i, hi⟩)

omit hk in
theorem setOf_mem_strings (kind : MatchKind) (words : List Bytes) (text : Bytes) :
    {i | text.drop i ∈ (ofWords kind words).strings} = {i | InTree kind words (text.drop i)} := by
  ext i
  exact Strings.mem_ofWords

/-- A scan must stop exactly if it would settle on nothing, or on the start
state while that is shut. -/
theorem stops_iff : (ofWords kind words).Stops ((ofWords kind words).settle text) ↔
    MustStop kind words text := by
  obtain ⟨s, hs⟩ := exists_isLeast (ofWords kind words) text
  have hset := setOf_mem_strings kind words text
  have hsettle := settle_eq_of_isLeast hs
  rw [← occursBefore_iff hk] at hsettle
  have hle : s ≤ text.length := by
    refine hs.2 ?_
    show text.drop text.length ∈ (ofWords kind words).strings
    rw [List.drop_length]
    exact Strings.nil_mem _
  by_cases hoccurs : OccursBefore kind words text s
  · rw [hsettle.1 hoccurs]
    exact iff_of_true (Or.inl rfl) ⟨s, hset ▸ hs, Or.inl hoccurs⟩
  · have hkept : (ofWords kind words).settle text = some (text.drop s) :=
      hsettle.2 fun i hi hcom => hoccurs ((occursBefore_iff hk).2 ⟨i, hi, hcom⟩)
    have hnil : text.drop s = [] ↔ s = text.length := by
      rw [List.drop_eq_nil_iff]
      omega
    rw [hkept, Stops, shut_ofWords_iff hk, Option.some_inj, hnil, or_iff_right (by simp)]
    refine ⟨?_, ?_⟩
    · intro h
      exact ⟨s, hset ▸ hs, Or.inr h⟩
    · intro h
      obtain ⟨s', hs', hor⟩ := h
      obtain rfl : s' = s := IsLeast.unique (hset ▸ hs') hs
      exact hor.resolve_left hoccurs

end

end Lexicon

/-! ## Scans -/

/-- One byte more of a text. -/
theorem canon_take_succ (st : Settings) {haystack : Bytes} (hn : n < haystack.length) :
    ∃ b, st.canon ((haystack.drop n).take 1) = [b] ∧
      st.canon (haystack.take (n + 1)) = st.canon (haystack.take n) ++ [b] := by
  refine ⟨Byte.canonical st.foldCase haystack[n], ?_, ?_⟩
  · rw [List.drop_eq_getElem_cons hn, List.take_succ_cons, List.take_zero]
    rfl
  · rw [List.take_succ_eq_append_getElem hn]
    exact List.map_append

namespace Automaton

/-- What is reported at a byte is the first of what is heard there. -/
theorem filter_drain_scan (st : Settings) (hk : st.kind.isLeftmost = true)
    (patterns : List Bytes) (haystack : Bytes) {n : Nat}
    (hn : n < (Feed.drain ((compile st patterns).scan haystack)).2.position) :
    ((Feed.drain ((compile st patterns).scan haystack)).1.filter fun h => h.last = n) =
        (((Lexicon.ofWords st.kind (patterns.map st.canon)).heard
          (st.canon (haystack.take (n + 1)))).take 1).map (Hit.mk · n) ∧
      n < haystack.length := by
  obtain ⟨c, hits, -, hdrain, hhits, hended⟩ := drain_scan st patterns haystack
  rw [hdrain] at hn ⊢
  have hle := hended.position_le
  rw [Settings.length_canon] at hle
  refine ⟨?_, Nat.lt_of_lt_of_le hn hle⟩
  rw [hhits, Lexicon.filter_hits hn, Settings.canon_take, Cursor.reported, if_pos]
  exact hk

/-- What a leftmost scan reports at a byte that it reads. Of the registered
patterns that end there the longest is looked at, and it is reported by its first
name unless a registered pattern began before it. Where there is none the first
empty pattern is reported, unless a registered pattern has occurred or the byte
begins one. -/
theorem leftmost_hits (st : Settings) (hk : st.kind.isLeftmost = true) (patterns : List Bytes)
    (haystack : Bytes) (n : Nat)
    (hn : n < (Feed.drain ((compile st patterns).scan haystack)).2.position) :
    let words := patterns.map st.canon
    let text := st.canon (haystack.take (n + 1))
    let byte := st.canon ((haystack.drop n).take 1)
    let reports := (Feed.drain ((compile st patterns).scan haystack)).1.filter
      fun h => h.last = n
    (∀ v, LongestAtEnd st.kind words text v →
      (¬ OccursBefore st.kind words text (n + 1 - v.length) →
        ∃ p : PatternId, reports = [⟨p, n⟩] ∧ IsLeast {i | words[i]? = some v} p.index) ∧
      (OccursBefore st.kind words text (n + 1 - v.length) → reports = [])) ∧
    ((¬ ∃ v, LongestAtEnd st.kind words text v) →
      ([] ∈ words → ¬ OccursBefore st.kind words text (n + 1) →
        ¬ InTree st.kind words byte →
        ∃ p : PatternId, reports = [⟨p, n⟩] ∧ IsLeast {i | words[i]? = some []} p.index) ∧
      ([] ∉ words ∨ OccursBefore st.kind words text (n + 1) ∨ InTree st.kind words byte →
        reports = [])) := by
  intro words text byte reports
  obtain ⟨hreports, hlt⟩ := filter_drain_scan st hk patterns haystack hn
  have hlength : text.length = n + 1 := by
    rw [Settings.length_canon, List.length_take_of_le hlt]
  -- Reports are the first name of what is heard.
  have hname : ∀ {p w}, (Lexicon.ofWords st.kind words).heard text =
      registeredAs st.kind words w → Registered st.kind words p w →
        ∃ p : PatternId, reports = [⟨p, n⟩] ∧ IsLeast {i | words[i]? = some w} p.index := by
    intro p w hheard hp
    obtain ⟨q, hq, hleast⟩ := take_one_registeredAs hp
    refine ⟨q, ?_, hleast⟩
    rw [show reports = _ from hreports, hheard, hq]
    rfl
  have hsilent : (Lexicon.ofWords st.kind words).heard text = [] → reports = [] := by
    intro hheard
    rw [show reports = _ from hreports, hheard]
    rfl
  refine ⟨?_, ?_⟩
  · intro v hv
    obtain ⟨p, hp⟩ := hv.1.2.1
    have hheard := Lexicon.heard_of_longest hk hv
    rw [hlength] at hheard
    exact ⟨fun hnot => hname (hheard.2 hnot) hp, fun hoccurs => hsilent (hheard.1 hoccurs)⟩
  · intro hnone
    obtain ⟨b, hbyte, hsplit⟩ := canon_take_succ st hlt
    replace hbyte : byte = [b] := hbyte
    replace hsplit : text = st.canon (haystack.take n) ++ [b] := hsplit
    have hends : ∀ p u, Registered st.kind words p u → u ≠ [] → ¬ u <:+ text :=
      fun p u hp hne hsuffix => hnone (exists_longestAtEnd hp hne hsuffix)
    rw [hsplit] at hends
    have hheard := Lexicon.heard_of_none hk hends
    rw [← hsplit, hlength, ← hbyte] at hheard
    refine ⟨?_, ?_⟩
    · intro hempty hoccurs htree
      obtain ⟨i, hi⟩ := List.mem_iff_getElem?.1 hempty
      exact hname (hheard.2 hoccurs htree) (registered_nil_iff.2 (show words[i]? = some [] from hi))
    · intro hor
      by_cases hblocked : OccursBefore st.kind words text (n + 1) ∨ InTree st.kind words byte
      · exact hsilent (hheard.1 hblocked)
      · have hempty : [] ∉ words := hor.resolve_right hblocked
        have hnames : registeredAs st.kind words [] = [] := by
          refine Classical.byContradiction fun hne => hempty ?_
          obtain ⟨p, hp⟩ := registeredAs_ne_nil_iff.1 hne
          exact List.mem_of_getElem? hp.1
        refine hsilent ?_
        rw [hheard.2 (fun h => hblocked (Or.inl h)) fun h => hblocked (Or.inr h), hnames]

/-- Of the patterns b and ab the longer one is reported at the end of the text
ab. -/
theorem leftmost_hits_last_byte :
    1 < (Feed.drain ((compile { kind := .leftmostFirst } [[0x62], [0x61, 0x62]]).scan
        [0x61, 0x62])).2.position ∧
      ∃ p : PatternId,
        ((Feed.drain ((compile { kind := .leftmostFirst } [[0x62], [0x61, 0x62]]).scan
          [0x61, 0x62])).1.filter fun h => h.last = 1) = [⟨p, 1⟩] := by
  have hread : 1 < (Feed.drain ((compile { kind := .leftmostFirst } [[0x62], [0x61, 0x62]]).scan
      [0x61, 0x62])).2.position := by decide +kernel
  have hlongest : LongestAtEnd .leftmostFirst [[0x62], [0x61, 0x62]] [0x61, 0x62] [0x61, 0x62] :=
    ⟨⟨by decide, ⟨⟨1⟩, by decide⟩, List.suffix_rfl⟩, fun _ _ _ _ hsuffix => hsuffix.length_le⟩
  have hnot : ¬ OccursBefore .leftmostFirst [[0x62], [0x61, 0x62]] [0x61, 0x62] 0 := by
    intro hoccurs
    obtain ⟨i, hi, -⟩ := hoccurs
    exact Nat.not_lt_zero i hi
  have hall := leftmost_hits { kind := .leftmostFirst } rfl [[0x62], [0x61, 0x62]] [0x61, 0x62] 1
    hread
  obtain ⟨p, hp, -⟩ := (hall.1 [0x61, 0x62] hlongest).1 hnot
  exact ⟨hread, p, hp⟩

/-- Where a leftmost scan stops: before the first byte after which it would
have to drop the beginning of a pattern that occurred, and else at the end. -/
theorem leftmost_end (st : Settings) (hk : st.kind.isLeftmost = true) (patterns : List Bytes)
    (haystack : Bytes) :
    let words := patterns.map st.canon
    let c := (Feed.drain ((compile st patterns).scan haystack)).2
    let stops := fun m => MustStop st.kind words (st.canon (haystack.take (m + 1)))
    c.next = (none, c) ∧
      ((c.dead = true ∧ IsLeast {m | m < haystack.length ∧ stops m} c.position) ∨
        (c.dead = false ∧ c.position = haystack.length ∧
          ∀ m < haystack.length, ¬ stops m)) := by
  intro words c stops
  obtain ⟨c', hits, -, hdrain, hhits, hended⟩ := drain_scan st patterns haystack
  obtain rfl : c = c' := congrArg Prod.snd hdrain
  have hstops : ∀ m, (Lexicon.ofWords st.kind words).Stops
      ((Lexicon.ofWords st.kind words).settle ((st.canon haystack).take (m + 1))) ↔ stops m := by
    intro m
    rw [Lexicon.stops_iff hk, ← Settings.canon_take]
  have hbefore : ∀ m < c.position, ¬ stops m :=
    fun m hm hs => hended.before m hm ((hstops m).2 hs)
  refine ⟨hended.asked, ?_⟩
  rcases hended.ending with ⟨hdead, hlt, hs⟩ | ⟨halive, heq⟩
  · rw [Settings.length_canon] at hlt
    refine Or.inl ⟨hdead, ⟨hlt, (hstops _).1 hs⟩, ?_⟩
    intro m hm
    exact Nat.le_of_not_lt fun hlt' => hbefore m hlt' hm.2
  · rw [Settings.length_canon] at heq
    refine Or.inr ⟨halive, heq, ?_⟩
    intro m hm
    exact hbefore m (heq ▸ hm)

/-- Behind the pattern a, found at the beginning of the text ab, nothing is
read. -/
theorem leftmost_end_behind_match :
    MatchKind.leftmostFirst.isLeftmost = true ∧
      IsLeast {m | m < 2 ∧ MustStop .leftmostFirst [[0x61]]
        (Settings.canon { kind := .leftmostFirst } (List.take (m + 1) [0x61, 0x62]))} 1 := by
  refine ⟨rfl, ?_⟩
  have hend := leftmost_end { kind := .leftmostFirst } rfl [[0x61]] [0x61, 0x62]
  have hposition : (Feed.drain ((compile { kind := .leftmostFirst } [[0x61]]).scan
      [0x61, 0x62])).2.position = 1 := by decide +kernel
  rcases hend.2 with ⟨-, hleast⟩ | ⟨-, hlength, -⟩
  · rw [hposition] at hleast
    exact hleast
  · rw [hposition] at hlength
    exact absurd hlength (by decide)

end Automaton

end MultiPattern
