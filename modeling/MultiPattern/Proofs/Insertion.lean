import MultiPattern.Proofs.Numbering
import MultiPattern.Proofs.Strings
import MultiPattern.Trie

/-!
# The prefix tree spells its words

Inserting patterns one after the other leaves the tree of the strings that
registered patterns begin with. `Arena.Spells` reads this off an arena: state
for state, the transition on a byte leads to the string one byte longer if there
is one, the depth is the length, and the reports are those of the patterns that
end here. Under case folding a transition is written on both cases of a letter,
which is the same as a transition on the representative, since representatives
agree on exactly these two bytes.

A walk down the tree is followed by induction on what is left of the pattern.
There are two of them. A pattern that is given up meets a reporting state; every
state on its way there exists already and the alphabet has the bytes, so the walk
adds nothing and only notes where it came to. A pattern that is kept adds what is
missing and is accepted by the last state. `Trie.Holds` is what both rely on.
-/

namespace MultiPattern

namespace State

@[simp] theorem fresh_next_get (depth : Nat) (b : UInt8) : (fresh depth).next.get b = none :=
  ByteTable.get_replicate _ _

theorem isMatch_iff {s : State} : s.isMatch = true ↔ s.outputs ≠ [] := by
  simp [isMatch]

end State

namespace Arena

/-- The arena holds the prefix tree of the strings `ss`, with the reports
`outs`. -/
structure Spells (a : Arena) (foldCase : Bool) (ss : Strings) (outs : Bytes → List PatternId) :
    Prop where
  size : a.size = ss.list.length + 2
  next : ∀ w ∈ ss, ∀ b, a.next (ss.id w) b = ss.id? (w ++ [Byte.canonical foldCase b])
  depth : ∀ w ∈ ss, (a.state (ss.id w)).depth = w.length
  failure : ∀ w ∈ ss, (a.state (ss.id w)).failure = .start
  outputs : ∀ w ∈ ss, (a.state (ss.id w)).outputs = outs w
  mem_of_outputs : ∀ w, outs w ≠ [] → w ∈ ss
  dead : a.state .dead = State.fresh 0

theorem spells_empty (foldCase : Bool) : empty.Spells foldCase .empty fun _ => [] where
  size := rfl
  next w hw b := by
    obtain rfl : w = [] := hw.resolve_right List.not_mem_nil
    rw [Strings.id?_of_not_mem (by simp [Strings.mem_def, Strings.empty])]
    exact State.fresh_next_get 0 b
  depth w hw := by
    obtain rfl : w = [] := hw.resolve_right List.not_mem_nil
    rfl
  failure w hw := by
    obtain rfl : w = [] := hw.resolve_right List.not_mem_nil
    rfl
  outputs w hw := by
    obtain rfl : w = [] := hw.resolve_right List.not_mem_nil
    rfl
  mem_of_outputs w h := absurd rfl h
  dead := rfl

end Arena

namespace Trie

variable {foldCase : Bool} {ss : Strings} {outs : Bytes → List PatternId} {kind : MatchKind}
  {t : Trie} {p : PatternId} {u v w rest : Bytes} {b : UInt8}

theorem size_branch (t : Trie) (s : StateId) (b : UInt8) :
    (t.branch s b).1.arena.size = t.arena.size + 1 := by
  rw [branch, Arena.size_modify, Arena.size_push]

section

variable {s : StateId} (hs : s.index < t.arena.size)

include hs

theorem lt_size_push (x : State) : s.index < (t.arena.push x).size :=
  Arena.size_push t.arena x ▸ Nat.lt_succ_of_lt hs

theorem state_branch_of_ne {u : StateId} (hu : s ≠ u) :
    (t.branch s b).1.arena.state u =
      if u.index = t.arena.size then State.fresh ((t.arena.state s).depth + 1)
      else t.arena.state u := by
  rw [branch, Arena.state_modify _ _ _ _ (lt_size_push hs _), if_neg hu, Arena.state_push]

/-- The state above the new one leads to it, on both cases of a letter under
folding. -/
theorem next_branch_self (c : UInt8) :
    (t.branch s b).1.arena.next s c =
      if Byte.canonical t.alphabet.foldCase b = Byte.canonical t.alphabet.foldCase c then
        some ⟨t.arena.size⟩
      else t.arena.next s c := by
  rw [branch, Arena.next, Arena.state_modify _ _ _ _ (lt_size_push hs _), if_pos rfl, Arena.state_push,
    if_neg (Nat.ne_of_lt hs)]
  simp only [Byte.canonical_eq_canonical_iff]
  by_cases hfold : t.alphabet.foldCase = true
  · simp only [hfold, if_true, State.next_setNext, true_and, Arena.next]
    by_cases hb : b = c <;> by_cases hswap : Byte.swapCase b = c <;> simp [hb, hswap]
  · simp [hfold, State.next_setNext, Arena.next]

/-- All but its transitions stays as it is with a state above a new one. -/
theorem state_branch_self :
    ∃ next, (t.branch s b).1.arena.state s = { t.arena.state s with next } := by
  rw [branch, Arena.state_modify _ _ _ _ (lt_size_push hs _), if_pos rfl, Arena.state_push,
    if_neg (Nat.ne_of_lt hs)]
  dsimp only
  split
  · exact ⟨_, rfl⟩
  · exact ⟨_, rfl⟩

end

theorem spells_branch (hfold : t.alphabet.foldCase = foldCase)
    (h : t.arena.Spells foldCase ss outs) (hw : w ∈ ss)
    (hb : w ++ [Byte.canonical foldCase b] ∉ ss) :
    (t.branch (ss.id w) b).1.arena.Spells foldCase
      (ss.add w (Byte.canonical foldCase b)) outs := by
  have hs : (ss.id w).index < t.arena.size := h.size ▸ Strings.id_index_lt hw
  have hold : ∀ v ∈ ss, (ss.id v).index ≠ t.arena.size :=
    fun v hv => Nat.ne_of_lt (h.size ▸ Strings.id_index_lt hv)
  have hnew := (Strings.id_add_self hw hb).trans (by rw [← h.size])
  have hne : ss.id w ≠ ⟨t.arena.size⟩ := fun heq => hold w hw (congrArg StateId.index heq)
  -- Transitions aside, a state is the old one of its string, or else fresh.
  have hstate : ∀ v ∈ ss.add w (Byte.canonical foldCase b), ∃ next,
      (t.branch (ss.id w) b).1.arena.state ((ss.add w (Byte.canonical foldCase b)).id v) =
        { (if v ∈ ss then t.arena.state (ss.id v) else State.fresh v.length) with next } := by
    intro v hv
    rcases (Strings.mem_add hw).1 hv with hmem | hmem
    · rw [Strings.id_add_of_mem hmem, if_pos hmem]
      by_cases hvw : w = v
      · subst hvw
        exact state_branch_self hs
      · rw [state_branch_of_ne hs fun heq => hvw ((Strings.id_inj hw).1 heq), if_neg (hold v hmem)]
        exact ⟨_, rfl⟩
    · subst hmem
      rw [hnew, state_branch_of_ne hs hne, if_pos rfl, if_neg hb, h.depth w hw,
        List.length_append]
      exact ⟨_, rfl⟩
  refine ⟨?_, ?_, ?_, ?_, ?_, ?_, ?_⟩
  · rw [size_branch, h.size, Strings.list_add hw hb, List.length_append]
    rfl
  · intro v hv c
    rw [Strings.id?_add hw hb, ← h.size]
    rcases (Strings.mem_add hw).1 hv with hmem | hmem
    · rw [Strings.id_add_of_mem hmem]
      by_cases hvw : w = v
      · subst hvw
        rw [next_branch_self hs, hfold, h.next w hw]
        simp only [List.append_cancel_left_eq, List.cons.injEq, and_true]
        exact if_congr eq_comm rfl rfl
      · have hlast : v ++ [Byte.canonical foldCase c] ≠
            w ++ [Byte.canonical foldCase b] :=
          fun heq => hvw (List.append_inj' heq rfl).1.symm
        rw [Arena.next, state_branch_of_ne hs fun heq => hvw ((Strings.id_inj hw).1 heq),
          if_neg (hold v hmem), if_neg hlast]
        exact h.next v hmem c
    · subst hmem
      rw [hnew, Arena.next, state_branch_of_ne hs hne, if_pos rfl, if_neg (by simp),
        Strings.id?_of_not_mem fun hmem => hb (Strings.mem_of_append hmem)]
      exact State.fresh_next_get _ _
  · intro v hv
    obtain ⟨next, hnext⟩ := hstate v hv
    rw [hnext]
    split
    · next hmem => exact h.depth v hmem
    · rfl
  · intro v hv
    obtain ⟨next, hnext⟩ := hstate v hv
    rw [hnext]
    split
    · next hmem => exact h.failure v hmem
    · rfl
  · intro v hv
    obtain ⟨next, hnext⟩ := hstate v hv
    rw [hnext]
    split
    · next hmem => exact h.outputs v hmem
    · next hmem =>
        exact Classical.byContradiction fun hout => hmem (h.mem_of_outputs v (Ne.symm hout))
  · exact fun v hv => (Strings.mem_add hw).2 (Or.inl (h.mem_of_outputs v hv))
  · have hdead : StateId.dead.index ≠ t.arena.size := by
      rw [h.size]
      show 1 ≠ ss.list.length + 2
      omega
    rw [state_branch_of_ne hs (Strings.id_ne_dead ss w), if_neg hdead, h.dead]

theorem spells_descend (hfold : t.alphabet.foldCase = foldCase)
    (h : t.arena.Spells foldCase ss outs) (hw : w ∈ ss) (b : UInt8) :
    (t.descend (ss.id w) b).1.arena.Spells foldCase (ss.add w (Byte.canonical foldCase b)) outs ∧
      (t.descend (ss.id w) b).2 =
        (ss.add w (Byte.canonical foldCase b)).id (w ++ [Byte.canonical foldCase b]) := by
  rw [descend]
  dsimp only
  rw [h.next w hw]
  by_cases hb : w ++ [Byte.canonical foldCase b] ∈ ss
  · rw [Strings.id?_of_mem hb, Strings.add_of_mem hb]
    exact ⟨h, rfl⟩
  · rw [Strings.id?_of_not_mem hb, Strings.id_add_self hw hb, ← h.size]
    refine ⟨spells_branch ?_ h hw hb, rfl⟩
    exact (Alphabet.foldCase_add _ _).trans hfold

theorem insertFrom_cons (kind : MatchKind) (p : PatternId) (t : Trie) (s : StateId) (b : UInt8)
    (rest : Bytes) :
    t.insertFrom kind p s (b :: rest) =
      if kind.isLeftmost && (t.arena.state s).isMatch then
        { t with
          prunedCount := t.prunedCount + 1
          events := t.events ++ [.pruned p (t.arena.state s).depth] }
      else (t.descend s b).1.insertFrom kind p (t.descend s b).2 rest :=
  rfl

/-! ## The two walks -/

/-- A walk from `w` along `rest` has to be given up: it comes to a string that
is reported, before it is at its end. -/
def Blocked (kind : MatchKind) (outs : Bytes → List PatternId) (w rest : Bytes) : Prop :=
  kind.isLeftmost = true ∧ ∃ u, w <+: u ∧ u <+: w ++ rest ∧ u ≠ w ++ rest ∧ outs u ≠ []

theorem not_blocked_nil : ¬ Blocked kind outs w [] := by
  intro h
  obtain ⟨-, u, hwu, huw, hne, -⟩ := h
  rw [List.append_nil] at huw hne
  exact hne (huw.eq_of_length_le hwu.length_le)

theorem blocked_cons :
    Blocked kind outs w (b :: rest) ↔
      (kind.isLeftmost = true ∧ outs w ≠ []) ∨ Blocked kind outs (w ++ [b]) rest := by
  have happ : w ++ [b] ++ rest = w ++ b :: rest := by simp
  rw [Blocked, Blocked, happ]
  refine ⟨fun h => ?_, fun h => ?_⟩
  · obtain ⟨hkind, u, ⟨v, rfl⟩, hu, hne, hout⟩ := h
    cases v with
    | nil => exact Or.inl ⟨hkind, by rwa [List.append_nil] at hout⟩
    | cons c v =>
        have hc := hu
        rw [List.prefix_append_right_inj, List.cons_prefix_cons] at hc
        obtain ⟨rfl, -⟩ := hc
        exact Or.inr ⟨hkind, _, ⟨v, by simp⟩, hu, hne, hout⟩
  · rcases h with ⟨hkind, hout⟩ | ⟨hkind, u, hwu, hu, hne, hout⟩
    · exact ⟨hkind, w, List.prefix_rfl, List.prefix_append _ _, by simp, hout⟩
    · exact ⟨hkind, u, (List.prefix_append _ _).trans hwu, hu, hne, hout⟩

theorem spells_accept {a : Arena} (h : a.Spells foldCase ss outs) (hw : w ∈ ss) :
    (a.modify (ss.id w) (·.accept p)).Spells foldCase ss
      fun u => if u = w then p.insertInto (outs u) else outs u := by
  have hs : (ss.id w).index < a.size := h.size ▸ Strings.id_index_lt hw
  have hstate : ∀ v ∈ ss, (a.modify (ss.id w) (·.accept p)).state (ss.id v) =
      if v = w then (a.state (ss.id v)).accept p else a.state (ss.id v) := by
    intro v _
    rw [Arena.state_modify _ _ _ _ hs]
    exact if_congr ((Strings.id_inj hw).trans eq_comm) rfl rfl
  refine ⟨?_, ?_, ?_, ?_, ?_, ?_, ?_⟩
  · rw [Arena.size_modify]
    exact h.size
  · intro v hv b
    rw [Arena.next, hstate v hv]
    split
    · exact h.next v hv b
    · exact h.next v hv b
  · intro v hv
    rw [hstate v hv]
    split
    · exact h.depth v hv
    · exact h.depth v hv
  · intro v hv
    rw [hstate v hv]
    split
    · exact h.failure v hv
    · exact h.failure v hv
  · intro v hv
    rw [hstate v hv, ← h.outputs v hv]
    split
    · rfl
    · rfl
  · intro v hout
    by_cases hvw : v = w
    · rw [hvw]
      exact hw
    · rw [if_neg hvw] at hout
      exact h.mem_of_outputs v hout
  · rw [Arena.state_modify _ _ _ _ hs, if_neg (Strings.id_ne_dead ss w)]
    exact h.dead

/-- The tree holds the strings `ss` with the reports `outs`, and its alphabet has
their bytes. -/
structure Holds (t : Trie) (foldCase : Bool) (ss : Strings) (outs : Bytes → List PatternId) :
    Prop where
  spells : t.arena.Spells foldCase ss outs
  foldCase : t.alphabet.foldCase = foldCase
  sound : t.alphabet.Sound
  bytes : ∀ w ∈ ss, w ⊆ t.alphabet.bytes

/-- A walk from `w` along `rest` meets its first report at `u`, before it is at
its end. -/
structure Meets (outs : Bytes → List PatternId) (w rest u : Bytes) : Prop where
  below : w <+: u
  onWay : u <+: w ++ rest
  ne : u ≠ w ++ rest
  reports : outs u ≠ []
  first : ∀ v, w <+: v → v <+: u → outs v ≠ [] → v = u

theorem Meets.cons (hout : outs w = []) (h : Meets outs (w ++ [b]) rest u) :
    Meets outs w (b :: rest) u := by
  have happ : w ++ [b] ++ rest = w ++ b :: rest := by simp
  refine ⟨(List.prefix_append _ _).trans h.below, happ ▸ h.onWay, happ ▸ h.ne, h.reports, ?_⟩
  intro v hwv hvu hv
  refine h.first v ?_ hvu hv
  obtain ⟨x, rfl⟩ := hwv
  cases x with
  | nil => exact absurd hout (by simpa using hv)
  | cons c x =>
      -- Both strings go on from `w` on the way to `u`, so by the same byte.
      exact List.prefix_of_prefix_length_le h.below hvu (by simp)

/-- A step changes the arena and the alphabet and nothing else. -/
theorem exists_descend_fst (t : Trie) (s : StateId) (b : UInt8) :
    ∃ arena, (t.descend s b).1 = { t with arena, alphabet := t.alphabet.add b } := by
  rw [descend]
  dsimp only
  split
  · exact ⟨_, rfl⟩
  · exact ⟨_, rfl⟩

theorem alphabet_descend (t : Trie) (s : StateId) (b : UInt8) :
    (t.descend s b).1.alphabet = t.alphabet.add b := by
  obtain ⟨arena, heq⟩ := exists_descend_fst t s b
  rw [heq]

theorem holds_empty (foldCase : Bool) : (empty foldCase).Holds foldCase .empty fun _ => [] := by
  refine ⟨Arena.spells_empty foldCase, rfl, Alphabet.sound_empty foldCase, fun w hw => ?_⟩
  obtain rfl : w = [] := hw.resolve_right List.not_mem_nil
  exact List.nil_subset _

namespace Holds

/-- Only its states and its alphabet matter. -/
theorem congr {t' : Trie} (h : t.Holds foldCase ss outs) (harena : t'.arena = t.arena)
    (halphabet : t'.alphabet = t.alphabet) : t'.Holds foldCase ss outs := by
  refine ⟨harena ▸ h.spells, ?_, ?_, ?_⟩
  · rw [halphabet, h.foldCase]
  · rw [halphabet]
    exact h.sound
  · rw [halphabet]
    exact h.bytes

theorem stops_iff (kind : MatchKind) (h : t.Holds foldCase ss outs) (hw : w ∈ ss) :
    (kind.isLeftmost && (t.arena.state (ss.id w)).isMatch) = true ↔
      kind.isLeftmost = true ∧ outs w ≠ [] := by
  rw [Bool.and_eq_true, State.isMatch_iff, h.spells.outputs w hw]

theorem descend (h : t.Holds foldCase ss outs) (hw : w ∈ ss) (b : UInt8) :
    (t.descend (ss.id w) b).1.Holds foldCase (ss.add w (Byte.canonical foldCase b)) outs ∧
      (t.descend (ss.id w) b).2 =
        (ss.add w (Byte.canonical foldCase b)).id (w ++ [Byte.canonical foldCase b]) := by
  obtain ⟨hspells, hchild⟩ := spells_descend h.foldCase h.spells hw b
  refine ⟨⟨hspells, ?_, ?_, ?_⟩, hchild⟩
  · rw [alphabet_descend, Alphabet.foldCase_add, h.foldCase]
  · rw [alphabet_descend]
    exact h.sound.add b
  · intro v hv c hc
    have hcanonical : t.alphabet.canonical b = Byte.canonical foldCase b := by
      rw [Alphabet.canonical, h.foldCase]
    rw [alphabet_descend, h.sound.mem_bytes_add, hcanonical]
    rcases (Strings.mem_add hw).1 hv with hv | rfl
    · exact Or.inl (h.bytes v hv hc)
    · rcases List.mem_append.1 hc with hc | hc
      · exact Or.inl (h.bytes w hw hc)
      · exact Or.inr (List.mem_singleton.1 hc).symm

/-- A step to a state that is there changes nothing. -/
theorem descend_of_mem (h : t.Holds foldCase ss outs)
    (hw : w ++ [Byte.canonical foldCase b] ∈ ss) :
    t.descend (ss.id w) b = (t, ss.id (w ++ [Byte.canonical foldCase b])) := by
  obtain ⟨hspells, rfl, hsound, hbytes⟩ := h
  rw [Trie.descend, hsound.add_of_mem (hbytes _ hw (by simp [Alphabet.canonical]))]
  dsimp only
  rw [hspells.next w (Strings.mem_of_append hw), Strings.id?_of_mem hw]

/-- Giving a pattern up leaves the tree as it is: the state that stops the walk
is there, and so is every state on the way to it. Only the place is noted. -/
theorem insertFrom_of_blocked (h : t.Holds foldCase ss outs) (hw : w ∈ ss)
    (hblock : Blocked kind outs w (rest.map (Byte.canonical foldCase))) :
    ∃ u, Meets outs w (rest.map (Byte.canonical foldCase)) u ∧
      t.insertFrom kind p (ss.id w) rest =
        { t with
          prunedCount := t.prunedCount + 1
          events := t.events ++ [.pruned p u.length] } := by
  induction rest generalizing w with
  | nil => exact absurd hblock not_blocked_nil
  | cons b rest ih =>
      rw [insertFrom_cons, List.map_cons]
      by_cases hout : outs w = []
      · have hgoes := fun hstop => ((h.stops_iff kind hw).1 hstop).2 hout
        have hrest := (blocked_cons.1 hblock).resolve_left fun hstop => hstop.2 hout
        have hmem : w ++ [Byte.canonical foldCase b] ∈ ss := by
          obtain ⟨-, v, hwv, -, -, hv⟩ := hrest
          exact Strings.mem_of_prefix hwv (h.spells.mem_of_outputs v hv)
        obtain ⟨u, hu, heq⟩ := ih hmem hrest
        refine ⟨u, hu.cons hout, ?_⟩
        rw [if_neg hgoes, h.descend_of_mem hmem]
        exact heq
      · refine ⟨w, ⟨List.prefix_rfl, List.prefix_append _ _, by simp, hout, ?_⟩, ?_⟩
        · exact fun v hwv hvw _ => hvw.eq_of_length_le hwv.length_le
        · rw [if_pos ((h.stops_iff kind hw).2 ⟨hblock.1, hout⟩), h.spells.depth w hw]

/-- Inserting a pattern to its end adds its beginnings and its bytes, and the
last of the beginnings reports it. -/
theorem insertFrom_of_not_blocked (h : t.Holds foldCase ss outs) (hw : w ∈ ss)
    (hblock : ¬ Blocked kind outs w (rest.map (Byte.canonical foldCase))) :
    (t.insertFrom kind p (ss.id w) rest).Holds foldCase
        (ss.extend w (rest.map (Byte.canonical foldCase)))
        (fun u => if u = w ++ rest.map (Byte.canonical foldCase) then p.insertInto (outs u)
          else outs u) ∧
      (t.insertFrom kind p (ss.id w) rest).alphabet = t.alphabet.addAll rest ∧
      (t.insertFrom kind p (ss.id w) rest).events = t.events ∧
      (t.insertFrom kind p (ss.id w) rest).prunedCount = t.prunedCount := by
  induction rest generalizing t w ss with
  | nil =>
      rw [List.map_nil, List.append_nil]
      exact ⟨⟨spells_accept h.spells hw, h.foldCase, h.sound, h.bytes⟩, rfl, rfl, rfl⟩
  | cons b rest ih =>
      rw [List.map_cons, blocked_cons, not_or] at hblock
      obtain ⟨hholds, hchild⟩ := h.descend hw b
      have hmem := (Strings.mem_add hw (b := Byte.canonical foldCase b)).2 (Or.inr rfl)
      obtain ⟨hrest, halphabet, hevents, hcount⟩ := ih hholds hmem hblock.2
      obtain ⟨arena, hstep⟩ := exists_descend_fst t (ss.id w) b
      rw [List.append_assoc] at hrest
      rw [insertFrom_cons, if_neg fun hstop => hblock.1 ((h.stops_iff kind hw).1 hstop), hchild,
        halphabet, hevents, hcount, hstep]
      exact ⟨hstep ▸ hrest, rfl, rfl, rfl⟩

end Holds

/-! ## The tree of a list of patterns -/

theorem ofPatterns_concat (st : Settings) (patterns : List Bytes) (pattern : Bytes) :
    ofPatterns st (patterns ++ [pattern]) =
      (ofPatterns st patterns).insert st.kind pattern := by
  rw [ofPatterns, List.foldl_append]
  rfl

/-- However far a pattern is inserted, its length was recorded before. -/
theorem lengths_insertFrom (kind : MatchKind) (p : PatternId) (t : Trie) (s : StateId)
    (bytes : Bytes) :
    (t.insertFrom kind p s bytes).lengths = t.lengths ∧
      (t.insertFrom kind p s bytes).minLength = t.minLength ∧
      (t.insertFrom kind p s bytes).maxLength = t.maxLength := by
  induction bytes generalizing t s with
  | nil => exact ⟨rfl, rfl, rfl⟩
  | cons b rest ih =>
      rw [insertFrom_cons]
      split
      · exact ⟨rfl, rfl, rfl⟩
      · obtain ⟨hlengths, hmin, hmax⟩ := ih (t.descend s b).1 (t.descend s b).2
        obtain ⟨arena, heq⟩ := exists_descend_fst t s b
        rw [hlengths, hmin, hmax, heq]
        exact ⟨rfl, rfl, rfl⟩

theorem lengths_ofPatterns (st : Settings) (patterns : List Bytes) :
    (ofPatterns st patterns).lengths = patterns.map List.length := by
  induction patterns using List.reverseRecOn with
  | nil => rfl
  | append_singleton patterns pattern ih =>
      rw [ofPatterns_concat, insert, (lengths_insertFrom ..).1, record, ih, List.map_append]
      rfl

theorem length_lengths_ofPatterns (st : Settings) (patterns : List Bytes) :
    (ofPatterns st patterns).lengths.length = (patterns.map st.canon).length := by
  rw [lengths_ofPatterns, List.length_map, List.length_map]

theorem min?_getD_concat (ns : List Nat) (n : Nat) :
    (ns ++ [n]).min?.getD 0 = if ns.isEmpty then n else min (ns.min?.getD 0) n := by
  cases ns with
  | nil => rfl
  | cons m ns => simp [List.min?, List.foldl_append]

theorem max?_getD_concat (ns : List Nat) (n : Nat) :
    (ns ++ [n]).max?.getD 0 = if ns.isEmpty then n else max (ns.max?.getD 0) n := by
  cases ns with
  | nil => rfl
  | cons m ns => simp [List.max?, List.foldl_append]

/-- The least length that is kept is the least of all, and the greatest the greatest. -/
theorem minLength_ofPatterns (st : Settings) (patterns : List Bytes) :
    (ofPatterns st patterns).minLength = (patterns.map List.length).min?.getD 0 := by
  induction patterns using List.reverseRecOn with
  | nil => rfl
  | append_singleton patterns pattern ih =>
      rw [ofPatterns_concat, insert, (lengths_insertFrom ..).2.1, record, ih, lengths_ofPatterns,
        List.map_append, List.map_singleton, min?_getD_concat]

theorem maxLength_ofPatterns (st : Settings) (patterns : List Bytes) :
    (ofPatterns st patterns).maxLength = (patterns.map List.length).max?.getD 0 := by
  induction patterns using List.reverseRecOn with
  | nil => rfl
  | append_singleton patterns pattern ih =>
      rw [ofPatterns_concat, insert, (lengths_insertFrom ..).2.2, record, ih, lengths_ofPatterns,
        List.map_append, List.map_singleton, max?_getD_concat]

/-- A walk from the start state is given up exactly when the law says so. -/
theorem blocked_iff {words : List Bytes} :
    Blocked kind (registeredAs kind words) [] w ↔ GivenUp kind words w := by
  rw [givenUp_iff_registered, Blocked, List.nil_append]
  refine and_congr_right fun _ => ⟨fun h => ?_, fun h => ?_⟩
  · obtain ⟨u, -, hu, hne, hout⟩ := h
    obtain ⟨p, hp⟩ := List.exists_mem_of_ne_nil _ hout
    exact ⟨p, u, mem_registeredAs.1 hp, hu, hne⟩
  · obtain ⟨p, u, hp, hu, hne⟩ := h
    exact ⟨u, List.nil_prefix, hu, hne, List.ne_nil_of_mem (mem_registeredAs.2 hp)⟩

namespace Holds

variable {st : Settings} {words : List Bytes} {pattern : Bytes}
  (h : t.Holds st.foldCase (.ofWords st.kind words) (registeredAs st.kind words))
  (hlength : t.lengths.length = words.length)

include h hlength

theorem insert_of_givenUp (hup : GivenUp st.kind words (st.canon pattern)) :
    ∃ u, Meets (registeredAs st.kind words) [] (st.canon pattern) u ∧
      t.insert st.kind pattern =
        { t.record pattern.length with
          prunedCount := t.prunedCount + 1
          events := t.events ++ [.pruned ⟨words.length⟩ u.length] } := by
  have hnext : (t.record pattern.length).Holds st.foldCase
      (.ofWords st.kind words) (registeredAs st.kind words) := h.congr rfl rfl
  rw [insert, hlength]
  exact hnext.insertFrom_of_blocked (Strings.nil_mem _) (blocked_iff.2 hup)

theorem insert_of_not_givenUp (hup : ¬ GivenUp st.kind words (st.canon pattern)) :
    (t.insert st.kind pattern).Holds st.foldCase (.ofWords st.kind (words ++ [st.canon pattern]))
        (registeredAs st.kind (words ++ [st.canon pattern])) ∧
      (t.insert st.kind pattern).alphabet = t.alphabet.addAll pattern ∧
      (t.insert st.kind pattern).events = t.events ∧
      (t.insert st.kind pattern).prunedCount = t.prunedCount := by
  have hnext : (t.record pattern.length).Holds st.foldCase
      (.ofWords st.kind words) (registeredAs st.kind words) := h.congr rfl rfl
  have hout : registeredAs st.kind (words ++ [st.canon pattern]) =
      fun u => if u = [] ++ st.canon pattern then
        PatternId.insertInto ⟨words.length⟩ (registeredAs st.kind words u)
        else registeredAs st.kind words u := by
    funext u
    rw [registeredAs_concat, List.nil_append]
    exact if_congr (and_iff_left hup) rfl rfl
  rw [insert, hlength, Strings.ofWords_concat, if_neg hup, hout]
  exact hnext.insertFrom_of_not_blocked (Strings.nil_mem _)
    fun hblock => hup (blocked_iff.1 hblock)

end Holds

/-- The prefix tree has a state for every string that a registered pattern
begins with, and the state of a string reports the patterns that are it. -/
theorem holds_ofPatterns (st : Settings) (patterns : List Bytes) :
    (ofPatterns st patterns).Holds st.foldCase
      (Strings.ofWords st.kind (patterns.map st.canon))
      (registeredAs st.kind (patterns.map st.canon)) := by
  induction patterns using List.reverseRecOn with
  | nil => exact holds_empty st.foldCase
  | append_singleton patterns pattern ih =>
      have hlength := length_lengths_ofPatterns st patterns
      rw [ofPatterns_concat, List.map_append, List.map_singleton]
      by_cases hup : GivenUp st.kind (patterns.map st.canon) (st.canon pattern)
      · obtain ⟨u, -, heq⟩ := ih.insert_of_givenUp hlength hup
        have hout : registeredAs st.kind (patterns.map st.canon ++ [st.canon pattern]) =
            registeredAs st.kind (patterns.map st.canon) := by
          funext u
          rw [registeredAs_concat, if_neg fun h => h.2 hup]
        rw [heq, Strings.ofWords_concat, if_pos hup, hout]
        exact ih.congr rfl rfl
      · exact (ih.insert_of_not_givenUp hlength hup).1

end Trie

end MultiPattern
