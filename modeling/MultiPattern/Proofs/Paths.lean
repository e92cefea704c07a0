import MultiPattern.Proofs.Leftmost
import MultiPattern.Proofs.Standard

/-!
# The states of a finished automaton, by their paths

A state other than the start and the dead state is reached down the tree, along
transitions that go to such states alone. The bytes on the way are its *path*.
`Arena.Path` reads paths off the finished arena, loops and all; under case
folding a state has several, which differ in case only.

What else a state has is a law about its path and the patterns. Its failure link
leads to the state of the longest proper suffix that is a path, unless a pattern
is committed to that begins before that suffix. It reports all patterns that are
a suffix of its path, or under a leftmost rule those names that the longest such
pattern was registered under, with the same exception. Each law is the
description of the lexicon with strings replaced by paths.
-/

namespace MultiPattern

/-- What a state with the path `text` reports under a leftmost rule. -/
structure LeftmostReports (kind : MatchKind) (words : List Bytes) (text : Bytes)
    (outputs : List PatternId) : Prop where
  /-- The path is a registered pattern. -/
  whole : (∃ p, Registered kind words p text) → outputs = registeredAs kind words text
  /-- A registered pattern is a proper suffix of the path, and nothing began before the longest. -/
  suffix : ∀ v, LongestAtEnd kind words text v → v ≠ text →
    ¬ OccursBefore kind words text (text.length - v.length) → outputs = registeredAs kind words v
  suffix_late : ∀ v, LongestAtEnd kind words text v → v ≠ text →
    OccursBefore kind words text (text.length - v.length) → outputs = []
  /-- No registered pattern ends here, and the last byte begins none. -/
  empty : (¬ ∃ v, LongestAtEnd kind words text v) → ¬ OccursBefore kind words text text.length →
    2 ≤ text.length → ¬ InTree kind words (text.drop (text.length - 1)) →
    outputs = registeredAs kind words []
  empty_hidden : (¬ ∃ v, LongestAtEnd kind words text v) →
    OccursBefore kind words text text.length ∨ text.length < 2 ∨
      InTree kind words (text.drop (text.length - 1)) → outputs = []

theorem Lexicon.leftmostReports_heard {kind : MatchKind} {words : List Bytes} {text : Bytes}
    (hk : kind.isLeftmost = true) (htext : InTree kind words text) (hne : text ≠ []) :
    LeftmostReports kind words text ((ofWords kind words).heard text) := by
  obtain ⟨t, b, rfl⟩ := (List.eq_nil_or_concat' text).resolve_left hne
  have hlast : (t ++ [b]).drop ((t ++ [b]).length - 1) = [b] := by simp
  have hnone : (¬ ∃ v, LongestAtEnd kind words (t ++ [b]) v) →
      ∀ p u, Registered kind words p u → u ≠ [] → ¬ u <:+ t ++ [b] :=
    fun h p u hp hu hsuffix => h (exists_longestAtEnd hp hu hsuffix)
  refine ⟨fun hreg => ?_, fun v hv _ => (heard_of_longest hk hv).2,
    fun v hv _ => (heard_of_longest hk hv).1, fun h hoccurs _ hb => ?_, fun h hor => ?_⟩
  · have hlongest : LongestAtEnd kind words (t ++ [b]) (t ++ [b]) :=
      ⟨⟨hne, hreg, List.suffix_rfl⟩, fun _ _ _ _ hsuffix => hsuffix.length_le⟩
    refine (heard_of_longest hk hlongest).2 fun hoccurs => ?_
    obtain ⟨i, hi, -⟩ := hoccurs
    omega
  · rw [hlast] at hb
    exact (heard_of_none hk (hnone h)).2 hoccurs hb
  · refine (heard_of_none hk (hnone h)).1 (hor.imp_right fun hor => ?_)
    rcases hor with hlt | hb
    · rw [List.length_append, List.length_singleton] at hlt
      obtain rfl : t = [] := List.length_eq_zero_iff.1 (by omega)
      exact htext
    · rwa [hlast] at hb

namespace Arena

/-- The tree leads from the start state along `w` to `s`. -/
inductive Path (a : Arena) : Bytes → StateId → Prop where
  | nil : Path a [] .start
  | snoc {w : Bytes} {b : UInt8} {s t : StateId} (h : Path a w s) (hnext : a.next s b = some t)
      (hstart : t ≠ .start) (hdead : t ≠ .dead) : Path a (w ++ [b]) t

namespace Compiled

variable {st : Settings} {a : Arena} {L : Lexicon} {w : Bytes} {s : StateId}

theorem path_iff (h : a.Compiled st.foldCase L) :
    a.Path w s ↔ st.canon w ∈ L.strings ∧ L.strings.id (st.canon w) = s := by
  refine ⟨fun hp => ?_, fun hw => ?_⟩
  · induction hp with
    | nil => exact ⟨Strings.nil_mem _, rfl⟩
    | @snoc w b s t _ hnext hstart hdead ih =>
        obtain ⟨hw, rfl⟩ := ih
        rw [Settings.canon_concat]
        by_cases hmem : st.canon w ++ [Byte.canonical st.foldCase b] ∈ L.strings
        · rw [h.next_of_mem hmem, Option.some_inj] at hnext
          exact ⟨hmem, hnext⟩
        · -- Where the tree ends there is no transition, or a loop.
          by_cases hne : st.canon w = []
          · rw [hne, List.nil_append] at hmem
            rw [hne, Strings.id_nil, h.next_start_of_notMem hmem, Option.some_inj] at hnext
            split at hnext
            · exact absurd hnext.symm hdead
            · exact absurd hnext.symm hstart
          · rw [h.next_of_notMem hw hne hmem] at hnext
            cases hnext
  · obtain ⟨hw, rfl⟩ := hw
    induction w using List.reverseRecOn with
    | nil => exact Path.nil
    | append_singleton w b ih =>
        rw [Settings.canon_concat] at hw ⊢
        refine Path.snoc (ih (Strings.mem_of_append hw)) (h.next_of_mem hw) ?_
          (Strings.id_ne_dead _ _)
        rw [Ne, Strings.id_eq_start_iff]
        simp

end Compiled

end Arena

namespace Automaton

variable {st : Settings} {patterns : List Bytes} {w : Bytes} {s : Nat} {u : StateId}

theorem path_iff :
    (compile st patterns).arena.Path w u ↔
      st.canon w ∈ Strings.ofWords st.kind (patterns.map st.canon) ∧
        (Strings.ofWords st.kind (patterns.map st.canon)).id (st.canon w) = u :=
  (Trie.compiled_ofPatterns st patterns).path_iff

theorem exists_path_iff :
    (∃ u, (compile st patterns).arena.Path w u) ↔
      st.canon w ∈ Strings.ofWords st.kind (patterns.map st.canon) := by
  simp only [path_iff, exists_and_left, exists_eq', and_true]

theorem canon_of_mem (hw : w ∈ Strings.ofWords st.kind (patterns.map st.canon)) :
    st.canon w = w := by
  induction w using List.reverseRecOn with
  | nil => rfl
  | append_singleton w b ih =>
      rw [Settings.canon_concat, ih (Strings.mem_of_append hw),
        Trie.canonical_ofWords st patterns w b hw]

/-- Every state but the start and the dead state has a path. -/
theorem exists_path (hu : u.index < (compile st patterns).arena.size) (hstart : u ≠ .start)
    (hdead : u ≠ .dead) : ∃ w, (compile st patterns).arena.Path w u ∧ w ≠ [] := by
  have hcompiled := (of_compile st patterns).compiled
  obtain ⟨w, hw, rfl⟩ := Strings.exists_id _ (hcompiled.size ▸ hu) hdead
  refine ⟨w, path_iff.2 ?_, fun hnil => hstart (Strings.id_eq_start_iff.2 hnil)⟩
  rw [canon_of_mem hw]
  exact ⟨hw, rfl⟩

/-! ## Failure links -/

theorem isLeast_path (hw : w ≠ [])
    (hs : IsLeast {i | 0 < i ∧
      (st.canon w).drop i ∈ Strings.ofWords st.kind (patterns.map st.canon)} s) :
    IsLeast {i | 1 ≤ i ∧ i ≤ w.length ∧ ∃ u, (compile st patterns).arena.Path (w.drop i) u} s := by
  have hlength : s ≤ w.length := by
    refine hs.2 ⟨List.length_pos_iff.2 hw, ?_⟩
    rw [← Settings.canon_drop, List.drop_length]
    exact Strings.nil_mem _
  simp only [exists_path_iff, Settings.canon_drop]
  exact ⟨⟨hs.1.1, hlength, hs.1.2⟩, fun i hi => hs.2 ⟨hi.1, hi.2.2⟩⟩

theorem failure_eq_place (h : (compile st patterns).arena.Path w u) :
    ((compile st patterns).arena.state u).failure =
      (Lexicon.ofWords st.kind (patterns.map st.canon)).place
        ((Lexicon.ofWords st.kind (patterns.map st.canon)).fallback (st.canon w)) := by
  obtain ⟨hw, rfl⟩ := path_iff.1 h
  exact (of_compile st patterns).compiled.failure _ hw

/-- A failure link leads to the longest proper suffix of the path that is a path,
except that under a leftmost rule it leads to the dead state if a registered
pattern occurs in the path and begins before that suffix. -/
theorem failure_of_path (st : Settings) (patterns : List Bytes) :
    let a := (compile st patterns).arena
    let words := patterns.map st.canon
    (∀ u : StateId, u.index < a.size → u ≠ .start → u ≠ .dead → ∃ w, a.Path w u ∧ w ≠ []) ∧
      ∀ w u, a.Path w u → w ≠ [] →
        ∃ s target, IsLeast {i | 1 ≤ i ∧ i ≤ w.length ∧ ∃ t, a.Path (w.drop i) t} s ∧
          a.Path (w.drop s) target ∧
          (st.kind.isLeftmost = true → OccursBefore st.kind words (st.canon w) s →
            (a.state u).failure = .dead) ∧
          ((st.kind.isLeftmost = true → ¬ OccursBefore st.kind words (st.canon w) s) →
            (a.state u).failure = target) := by
  intro a words
  refine ⟨fun u => exists_path, fun w u hu hw => ?_⟩
  have hne : st.canon w ≠ [] := by simpa using hw
  obtain ⟨s, hs⟩ := (Lexicon.ofWords st.kind words).exists_isLeast_tail hne
  have hfallback := Lexicon.fallback_eq_of_isLeast hne hs
  have hleast := isLeast_path hw hs
  obtain ⟨target, htarget⟩ := hleast.1.2.2
  refine ⟨s, target, hleast, htarget, fun hk hoccurs => ?_, fun hclear => ?_⟩
  · rw [failure_eq_place hu, hfallback.1 ((Lexicon.occursBefore_iff hk).1 hoccurs)]
    rfl
  · have hnone : ∀ i < s, ¬ (Lexicon.ofWords st.kind words).Committed ((st.canon w).drop i) := by
      intro i hi hcom
      by_cases hk : st.kind.isLeftmost = true
      · exact hclear hk ((Lexicon.occursBefore_iff hk).2 ⟨i, hi, hcom⟩)
      · exact Lexicon.not_committed_of_not_leftmost (Bool.eq_false_iff.2 hk) hcom
    obtain ⟨-, rfl⟩ := path_iff.1 htarget
    rw [failure_eq_place hu, hfallback.2 hnone, Settings.canon_drop]
    rfl

/-- The pattern b is found on the way to abcd, so behind abc a leftmost search is
over, though no pattern ends there. -/
theorem failure_of_path_cut :
    let a := (compile { kind := .leftmostFirst } [[0x61, 0x62, 0x63, 0x64], [0x62]]).arena
    a.Path [0x61, 0x62, 0x63] ⟨4⟩ ∧ (a.state ⟨4⟩).failure = .dead := by
  intro a
  have habc : a.Path [0x61, 0x62, 0x63] ⟨4⟩ := path_iff.2 (by decide)
  have hbc : ∀ t, ¬ a.Path [0x62, 0x63] t := fun t h => absurd (path_iff.1 h).1 (by decide)
  obtain ⟨s, target, hs, htarget, hcut, -⟩ := (failure_of_path { kind := .leftmostFirst }
    [[0x61, 0x62, 0x63, 0x64], [0x62]]).2 [0x61, 0x62, 0x63] ⟨4⟩ habc (by decide)
  have hlt : 1 < s := by
    refine Nat.lt_of_le_of_ne hs.1.1 fun heq => ?_
    subst heq
    exact hbc target htarget
  exact ⟨habc, hcut rfl ⟨1, hlt, ⟨1⟩, [0x62], by decide, by decide, by decide⟩⟩

/-! ## Reports -/

theorem outputs_eq_heard (h : (compile st patterns).arena.Path w u) :
    ((compile st patterns).arena.state u).outputs =
      (Lexicon.ofWords st.kind (patterns.map st.canon)).heard (st.canon w) := by
  obtain ⟨hw, rfl⟩ := path_iff.1 h
  exact (of_compile st patterns).compiled.outputs _ hw

theorem mem_outputs_start {p : PatternId} :
    p ∈ ((compile st patterns).arena.state .start).outputs ↔ patterns[p.index]? = some [] := by
  rw [outputs_eq_heard .nil, Settings.canon_nil]
  show p ∈ registeredAs st.kind (patterns.map st.canon) [] ↔ _
  simp [mem_registeredAs, registered_nil_iff]

/-- A state reports what ends with its path, in order. Under the standard rule
these are all patterns that are a suffix of it. Under a leftmost rule they are
the names of the longest, unless a registered pattern began before. -/
theorem outputs_of_path (st : Settings) (patterns : List Bytes) :
    let a := (compile st patterns).arena
    let words := patterns.map st.canon
    (a.state .dead).outputs = [] ∧
      (∀ p, p ∈ (a.state .start).outputs ↔ patterns[p.index]? = some []) ∧
      (∀ u, (a.state u).outputs.Pairwise (·.index < ·.index)) ∧
      (∀ u : StateId, u.index < a.size → u ≠ .start → u ≠ .dead → ∃ w, a.Path w u ∧ w ≠ []) ∧
      ∀ w u, a.Path w u → w ≠ [] →
        (st.kind = .standard → ∀ p : PatternId, p ∈ (a.state u).outputs ↔
          ∃ pattern, patterns[p.index]? = some pattern ∧ st.canon pattern <:+ st.canon w) ∧
        (st.kind.isLeftmost = true →
          LeftmostReports st.kind words (st.canon w) (a.state u).outputs) := by
  intro a words
  have hcompiled := Trie.compiled_ofPatterns st patterns
  refine ⟨hcompiled.dead.2, fun p => mem_outputs_start, fun u => ?_, fun u => exists_path, ?_⟩
  · rcases hcompiled.state_cases u with ⟨w, hw, rfl⟩ | rfl | ⟨-, hu⟩
    · rw [show (a.state _).outputs = _ from hcompiled.outputs w hw]
      exact Lexicon.pairwise_heard _ w
    · rw [show (a.state .dead).outputs = [] from hcompiled.dead.2]
      exact List.Pairwise.nil
    · rw [show a.state u = _ from hu]
      exact List.Pairwise.nil
  · intro w u hu hw
    rw [show (a.state u).outputs = _ from outputs_eq_heard hu]
    refine ⟨fun hk p => ?_, fun hk => ?_⟩
    · rw [hk, Lexicon.mem_heard_standard]
      simp
    · refine Lexicon.leftmostReports_heard hk (Strings.mem_ofWords.1 (path_iff.1 hu).1) ?_
      simpa using hw

/-- Where ab ends a leftmost search reports it alone, though b was given first. -/
theorem outputs_of_path_whole :
    let a := (compile { kind := .leftmostFirst } [[0x62], [0x61, 0x62], []]).arena
    a.Path [0x61, 0x62] ⟨4⟩ ∧ (a.state ⟨4⟩).outputs = [⟨1⟩] := by
  intro a
  have hab : a.Path [0x61, 0x62] ⟨4⟩ := path_iff.2 (by decide)
  have hreports := ((outputs_of_path { kind := .leftmostFirst }
    [[0x62], [0x61, 0x62], []]).2.2.2.2 _ _ hab (by decide)).2 rfl
  exact ⟨hab, (hreports.whole ⟨⟨1⟩, by decide⟩).trans (by decide)⟩

end Automaton

end MultiPattern
