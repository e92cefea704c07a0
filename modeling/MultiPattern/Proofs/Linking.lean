import MultiPattern.Proofs.Levels
import MultiPattern.Proofs.Lexicon

/-!
# Writing the failure links

The links are written one branch at a time, and each is found by walking along
links that are there already. `Arena.Linked` describes the arena half way: of
the strings in a set `done` the failure state and the reports are what the
lexicon says they should be, `fallback` and `heard`; of the others they are what
insertion left. Transitions and depths do not change.

One branch extends the set by one string, provided that all strings no longer
than its parent are in it (`Linked.link`): the walk only visits those, and each
state it passes is one step of `settle`. Breadth-first order provides this, so a
fold over the branches ends with all strings done. Shutting the start state is
the last change, and `Arena.Compiled` is the description of the result that
everything about searches rests on.
-/

namespace MultiPattern

namespace State

theorem acceptAll_eq (s : State) (ps : List PatternId) :
    s.acceptAll ps = { s with outputs := PatternId.merge s.outputs ps } := by
  induction ps generalizing s with
  | nil => rfl
  | cons p ps ih =>
      rw [acceptAll, List.foldl_cons, ← acceptAll, ih]
      rfl

end State

namespace Lexicon

/-- The state that a search is in when this is what it keeps. -/
def place (L : Lexicon) : Option Bytes → StateId
  | none => .dead
  | some w => L.strings.id w

/-- The start state is shut: the empty pattern is committed to before the first
byte. -/
def Shut (L : Lexicon) : Prop :=
  L.kind.isLeftmost = true ∧ L.outputs [] ≠ []

instance (L : Lexicon) : Decidable L.Shut :=
  inferInstanceAs (Decidable (_ ∧ _))

/-- Where a byte leads with which the tree does not go on. Only the start state
has a loop, which goes to the dead state when it is shut. -/
def loop (L : Lexicon) (w : Bytes) : Option StateId :=
  if w = [] then some (if L.Shut then .dead else .start) else none

variable {L : Lexicon} {w : Bytes} {b : UInt8}

theorem loop_ne_id {u : Bytes} (hu : u ≠ []) : L.loop w ≠ some (L.strings.id u) := by
  rw [loop]
  split
  · split
    · exact fun h => Strings.id_ne_dead _ _ (Option.some.inj h).symm
    · exact fun h => hu (Strings.id_eq_start_iff.1 (Option.some.inj h).symm)
  · exact fun h => by cases h

theorem loop_eq_some {t : StateId} (h : L.loop w = some t) :
    t = .start ∨ t = .dead := by
  rw [loop] at h
  grind

theorem settle_singleton_of_notMem (h : [b] ∉ L.strings) : L.settle [b] = some [] := by
  have hcom : ¬ L.Committed [b] := fun hcom =>
    (committed_concat.1 hcom).elim not_committed_nil fun hc => h hc.mem
  rw [settle_cons_of_notMem h, fallback, if_neg hcom]
  rfl

theorem fallback_singleton (h : ¬ L.Commits [b]) : L.fallback [b] = some [] := by
  have hcom : ¬ L.Committed [b] := fun hcom =>
    (committed_concat.1 hcom).elim not_committed_nil h
  rw [fallback, if_neg hcom]
  rfl

theorem fallback_of_commits (h : L.Commits w) : L.fallback w = none := by
  cases w with
  | nil => exact absurd rfl h.2.1
  | cons b w => rw [fallback, if_pos h.committed]

theorem heard_singleton (hk : L.kind.isLeftmost = true) (hb : [b] ∈ L.strings)
    (h : ¬ L.Commits [b]) : L.heard [b] = L.outputs [b] := by
  have hcom : ¬ L.Committed [b] := fun hcom =>
    (committed_concat.1 hcom).elim not_committed_nil h
  rw [heard, if_neg hcom, if_pos ⟨hk, rfl, hb⟩,
    outputs_eq_nil_of_not_commits hk (List.cons_ne_nil b []) h]

theorem heard_singleton_of_standard (hk : L.kind.isLeftmost = false) :
    L.heard [b] = PatternId.merge (L.outputs [b]) (L.outputs []) := by
  rw [heard, if_neg (not_committed_of_not_leftmost hk), if_neg (by simp [hk]), heard]

theorem heard_concat_eq_merge (hw : w ≠ []) :
    L.heard (w ++ [b]) =
      PatternId.merge (L.outputs (w ++ [b])) ((L.fallback (w ++ [b])).elim [] L.heard) := by
  cases w with
  | nil => exact absurd rfl hw
  | cons c w => exact heard_eq_merge_fallback (by simp)

theorem heard_of_commits (h : L.Commits w) : L.heard w = L.outputs w := by
  cases w with
  | nil => rfl
  | cons b w => rw [heard, if_pos h.committed]

end Lexicon

namespace Arena

theorem linkAll_concat (kind : MatchKind) (a : Arena) (es : List Branch) (e : Branch) :
    a.linkAll kind (es ++ [e]) = (a.linkAll kind es).link kind e := by
  rw [linkAll, List.foldl_append]
  rfl

/-- Of the last branch it is noted what the arena tells when the others are linked. -/
theorem linkEvents_concat (kind : MatchKind) (a : Arena) (es : List Branch) (e : Branch) :
    a.linkEvents kind (es ++ [e]) = a.linkEvents kind es ++
      if (a.linkAll kind es).isCut kind e then [.cut e.child] else [] := by
  induction es generalizing a with
  | nil => exact List.append_nil _
  | cons e' es ih =>
      rw [List.cons_append, linkEvents, linkEvents, ih, List.append_assoc]
      rfl

/-- The arena of a prefix tree in which the links of the strings in `done` have
been written. -/
structure Linked (a : Arena) (foldCase : Bool) (L : Lexicon) (done : Bytes → Prop) : Prop where
  size : a.size = L.strings.list.length + 2
  next : ∀ w ∈ L.strings, w ≠ [] → ∀ b,
    a.next (L.strings.id w) b = L.strings.id? (w ++ [Byte.canonical foldCase b])
  next_start : ∀ b,
    a.next .start b = some ((L.strings.id? [Byte.canonical foldCase b]).getD .start)
  next_dead : ∀ b, a.next .dead b = some .dead
  depth : ∀ w ∈ L.strings, (a.state (L.strings.id w)).depth = w.length
  dead : (a.state .dead).depth = 0 ∧ (a.state .dead).outputs = []
  failure_dead : (a.state .dead).failure = .start
  failure : ∀ w ∈ L.strings, done w →
    (a.state (L.strings.id w)).failure = L.place (L.fallback w)
  outputs : ∀ w ∈ L.strings, done w → (a.state (L.strings.id w)).outputs = L.heard w
  pending : ∀ w ∈ L.strings, ¬ done w →
    (a.state (L.strings.id w)).failure = .start ∧
      (a.state (L.strings.id w)).outputs = L.outputs w

namespace Linked

variable {a : Arena} {foldCase : Bool} {L : Lexicon} {done : Bytes → Prop} {u w x : Bytes}
  {b : UInt8} {e : Branch} {fuel : Nat}

theorem congr {done' : Bytes → Prop} (h : a.Linked foldCase L done)
    (hiff : ∀ w ∈ L.strings, done w ↔ done' w) : a.Linked foldCase L done' where
  size := h.size
  next := h.next
  next_start := h.next_start
  next_dead := h.next_dead
  depth := h.depth
  dead := h.dead
  failure_dead := h.failure_dead
  failure w hw hd := h.failure w hw ((hiff w hw).2 hd)
  outputs w hw hd := h.outputs w hw ((hiff w hw).2 hd)
  pending w hw hd := h.pending w hw fun hd' => hd ((hiff w hw).1 hd')

theorem next_of_mem (h : a.Linked foldCase L done)
    (hw : w ++ [Byte.canonical foldCase b] ∈ L.strings) :
    a.next (L.strings.id w) b = some (L.strings.id (w ++ [Byte.canonical foldCase b])) := by
  by_cases hne : w = []
  · subst hne
    rw [List.nil_append] at hw ⊢
    rw [Strings.id_nil, h.next_start, Strings.id?_of_mem hw, Option.getD_some]
  · rw [h.next w (Strings.mem_of_append hw) hne, Strings.id?_of_mem hw]

/-- Walking along failure links to the first transition on a byte is settling
on the string with that byte. -/
theorem linkTarget?_eq (h : a.Linked foldCase L done) (hx : x ∈ L.strings)
    (hdone : ∀ v ∈ L.strings, v.length ≤ x.length → done v) (hfuel : x.length < fuel) :
    a.linkTarget? b fuel (L.strings.id x) =
      some (L.place (L.settle (x ++ [Byte.canonical foldCase b]))) := by
  induction fuel generalizing x with
  | zero => exact absurd hfuel (Nat.not_lt_zero _)
  | succ fuel ih =>
      rw [linkTarget?]
      by_cases hmem : x ++ [Byte.canonical foldCase b] ∈ L.strings
      · rw [h.next_of_mem hmem, Lexicon.settle_of_mem hmem, Lexicon.place]
      · by_cases hne : x = []
        · subst hne
          rw [List.nil_append] at hmem ⊢
          rw [Strings.id_nil, h.next_start, Strings.id?_of_not_mem hmem, Option.getD_none,
            Lexicon.settle_singleton_of_notMem hmem, Lexicon.place, Strings.id_nil]
        · rw [h.next x hx hne, Strings.id?_of_not_mem hmem,
            Lexicon.settle_concat_of_notMem hne hmem, h.failure x hx (hdone x hx (Nat.le_refl _))]
          have hpos : 0 < x.length := List.length_pos_iff.2 hne
          cases hfall : L.fallback x with
          | none =>
              obtain ⟨n, rfl⟩ : ∃ n, fuel = n + 1 := ⟨fuel - 1, by omega⟩
              simp only [Lexicon.place, Option.bind_none, linkTarget?, h.next_dead]
          | some u =>
              obtain ⟨hlt, hu⟩ := Lexicon.fallback_eq_some hne hfall
              simp only [Lexicon.place, Option.bind_some]
              exact ih hu (fun v hv hle => hdone v hv (by omega)) (by omega)

/-- The walk that the link of a child is found by settles on what the failure
state of its parent and the byte come to. -/
theorem linkTarget?_failure (h : a.Linked foldCase L done) (he : e.From foldCase L.strings u)
    (hne : u ≠ []) (hdone : ∀ v ∈ L.strings, v.length ≤ u.length → done v) :
    a.linkTarget? e.byte (u.length + 1) (a.state e.parent).failure =
      some (L.place ((L.fallback u).bind fun x => L.settle (x ++ [Byte.canonical foldCase e.byte]))) := by
  rw [he.parent, h.failure u he.parent_mem (hdone u he.parent_mem (Nat.le_refl _))]
  cases hfall : L.fallback u with
  | none => simp only [Lexicon.place, Option.bind_none, linkTarget?, h.next_dead]
  | some x =>
      obtain ⟨hlt, hx⟩ := Lexicon.fallback_eq_some hne hfall
      exact h.linkTarget?_eq hx (fun v hv hle => hdone v hv (by omega)) (by omega)

/-- The failure state of a child whose parent is not the start state. -/
theorem linkTarget_eq (h : a.Linked foldCase L done) (he : e.From foldCase L.strings u)
    (hne : u ≠ []) (hdone : ∀ v ∈ L.strings, v.length ≤ u.length → done v)
    (hcut : ¬ L.Commits (u ++ [Byte.canonical foldCase e.byte])) :
    a.linkTarget e = L.place (L.fallback (u ++ [Byte.canonical foldCase e.byte])) := by
  have hdepth : (a.state e.parent).depth = u.length := he.parent ▸ h.depth u he.parent_mem
  rw [linkTarget, hdepth, h.linkTarget?_failure he hne hdone, Option.getD_some,
    Lexicon.fallback_concat hne hcut]

/-- An arena in which the state of one more string has its link and its
reports, and all else is as it was. -/
theorem insert {a' : Arena} (h : a.Linked foldCase L done) (hw : w ∈ L.strings)
    (hsize : a'.size = a.size)
    (hself : a'.state (L.strings.id w) =
      { a.state (L.strings.id w) with
        failure := L.place (L.fallback w), outputs := L.heard w })
    (hother : ∀ s, s ≠ L.strings.id w → a'.state s = a.state s) :
    a'.Linked foldCase L fun v => done v ∨ v = w := by
  have hnext : ∀ s c, a'.next s c = a.next s c := by
    intro s c
    by_cases hs : s = L.strings.id w
    · rw [Arena.next, Arena.next, hs, hself]
    · rw [Arena.next, Arena.next, hother s hs]
  have hold : ∀ v, v ∈ L.strings → v ≠ w → a'.state (L.strings.id v) = a.state (L.strings.id v) :=
    fun v hv hne => hother _ fun heq => hne ((Strings.id_inj hv).1 heq)
  refine ⟨hsize.trans h.size, ?_, ?_, ?_, ?_, ?_, ?_, ?_, ?_, ?_⟩
  · exact fun v hv hne c => (hnext _ c).trans (h.next v hv hne c)
  · exact fun c => (hnext _ c).trans (h.next_start c)
  · exact fun c => (hnext _ c).trans (h.next_dead c)
  · intro v hv
    by_cases hvw : v = w
    · rw [hvw, hself]
      exact h.depth w hw
    · rw [hold v hv hvw]
      exact h.depth v hv
  · rw [hother _ (Strings.id_ne_dead L.strings w).symm]
    exact h.dead
  · rw [hother _ (Strings.id_ne_dead L.strings w).symm]
    exact h.failure_dead
  · intro v hv hd
    by_cases hvw : v = w
    · rw [hvw, hself]
    · rw [hold v hv hvw]
      exact h.failure v hv (hd.resolve_right hvw)
  · intro v hv hd
    by_cases hvw : v = w
    · rw [hvw, hself]
    · rw [hold v hv hvw]
      exact h.outputs v hv (hd.resolve_right hvw)
  · intro v hv hd
    rw [not_or] at hd
    rw [hold v hv hd.2]
    exact h.pending v hv hd.1

/-- What is reported where a search has come to. -/
theorem outputs_place (h : a.Linked foldCase L done) {o : Option Bytes}
    (ho : ∀ v, o = some v → v ∈ L.strings ∧ done v) :
    (a.state (L.place o)).outputs = o.elim [] L.heard := by
  cases o with
  | none => exact h.dead.2
  | some v => exact h.outputs v (ho v rfl).1 (ho v rfl).2

/-- Until its link is written, a child is to be cut off if its string is committed
to. -/
theorem isCut_iff (h : a.Linked foldCase L done) (he : e.From foldCase L.strings u)
    (hnew : ¬ done (u ++ [Byte.canonical foldCase e.byte])) :
    a.isCut L.kind e = true ↔ L.Commits (u ++ [Byte.canonical foldCase e.byte]) := by
  rw [isCut, Bool.and_eq_true, State.isMatch_iff, he.child, (h.pending _ he.child_mem hnew).2,
    Lexicon.Commits]
  simp

/-- What `link` writes into the state of the child of a branch. -/
theorem state_link_child (h : a.Linked foldCase L done) (he : e.From foldCase L.strings u)
    (hdone : ∀ v ∈ L.strings, v.length ≤ u.length → done v)
    (hnew : ¬ done (u ++ [Byte.canonical foldCase e.byte])) :
    (Arena.link L.kind a e).state e.child =
      { a.state e.child with
        failure := L.place (L.fallback (u ++ [Byte.canonical foldCase e.byte]))
        outputs := L.heard (u ++ [Byte.canonical foldCase e.byte]) } := by
  have hsize : e.child.index < a.size := by
    rw [he.child, h.size]
    exact Strings.id_index_lt he.child_mem
  obtain ⟨hfailure, houtputs⟩ := h.pending _ he.child_mem hnew
  rw [← he.child] at hfailure houtputs
  have hiff := h.isCut_iff he hnew
  rw [Arena.link]
  -- The three cases of `link`: the child is cut, its parent is the start state,
  -- or it takes over from what its parent fails to.
  by_cases hcut : a.isCut L.kind e = true
  · have hcom := hiff.1 hcut
    rw [if_pos hcut, Arena.state_modify _ _ _ _ hsize, if_pos rfl, State.failTo,
      Lexicon.fallback_of_commits hcom, Lexicon.heard_of_commits hcom, ← houtputs]
    rfl
  · have hcom : ¬ L.Commits (u ++ [Byte.canonical foldCase e.byte]) := fun hc => hcut (hiff.2 hc)
    rw [if_neg hcut]
    by_cases hne : u = []
    · subst hne
      rw [List.nil_append] at hcom houtputs ⊢
      have hmem : [Byte.canonical foldCase e.byte] ∈ L.strings := he.child_mem
      rw [he.parent, Strings.id_nil, if_pos rfl, Lexicon.fallback_singleton hcom, Lexicon.place,
        Strings.id_nil]
      by_cases hk : L.kind.isLeftmost = true
      · rw [if_pos hk, Lexicon.heard_singleton hk hmem hcom, ← houtputs, ← hfailure]
      · have hstart : (a.state .start).outputs = L.outputs [] :=
          h.outputs [] (Strings.nil_mem _) (hdone [] (Strings.nil_mem _) (Nat.le_refl _))
        rw [if_neg hk, Arena.state_modify _ _ _ _ hsize, if_pos rfl, State.acceptAll_eq, hstart,
          houtputs, ← hfailure, Lexicon.heard_singleton_of_standard (Bool.eq_false_iff.2 hk)]
    · have hparent : e.parent ≠ .start := fun heq => hne (he.parent_eq_start_iff.1 heq)
      have hfall : ∀ v, L.fallback (u ++ [Byte.canonical foldCase e.byte]) = some v →
          v ∈ L.strings ∧ done v := by
        intro v hv
        obtain ⟨hle, hmem⟩ := Lexicon.fallback_concat_eq_some hv
        exact ⟨hmem, hdone v hmem hle⟩
      rw [if_neg hparent, Arena.state_modify _ _ _ _ hsize, if_pos rfl,
        h.linkTarget_eq he hne hdone hcom, State.acceptAll_eq, h.outputs_place hfall, State.failTo,
        houtputs, ← Lexicon.heard_concat_eq_merge hne]

theorem state_link_of_ne (he : e.From foldCase L.strings u)
    (hsize : a.size = L.strings.list.length + 2) {s : StateId} (hs : s ≠ e.child) :
    (Arena.link L.kind a e).state s = a.state s := by
  have hlt : e.child.index < a.size := by
    rw [he.child, hsize]
    exact Strings.id_index_lt he.child_mem
  rw [Arena.link]
  split
  · rw [Arena.state_modify _ _ _ _ hlt, if_neg hs.symm]
  · split
    · split
      · rfl
      · rw [Arena.state_modify _ _ _ _ hlt, if_neg hs.symm]
    · rw [Arena.state_modify _ _ _ _ hlt, if_neg hs.symm]

theorem size_link (kind : MatchKind) (a : Arena) (e : Branch) :
    (Arena.link kind a e).size = a.size := by
  rw [Arena.link]
  split
  · exact Arena.size_modify ..
  · split
    · split
      · rfl
      · exact Arena.size_modify ..
    · exact Arena.size_modify ..

/-- Writing the link of one branch, when those of all strings up to the length
of its parent are written. -/
theorem link (h : a.Linked foldCase L done) (he : e.From foldCase L.strings u)
    (hdone : ∀ v ∈ L.strings, v.length ≤ u.length → done v)
    (hnew : ¬ done (u ++ [Byte.canonical foldCase e.byte])) :
    (Arena.link L.kind a e).Linked foldCase L
      fun v => done v ∨ v = u ++ [Byte.canonical foldCase e.byte] := by
  refine h.insert he.child_mem (size_link L.kind a e) ?_ fun s hs => ?_
  · rw [← he.child]
    exact h.state_link_child he hdone hnew
  · rw [← he.child] at hs
    exact state_link_of_ne he h.size hs

section

variable {es taken todo : List Branch} {height : Nat}
  (hes : IsBreadthFirst foldCase L.strings 0 height es)
  (hheight : ∀ w ∈ L.strings, w.length ≤ height)

include hes hheight

/-- Writing the link of the branch that is next in breadth-first order. -/
theorem link_next (hsplit : taken ++ e :: todo = es)
    (h : a.Linked foldCase L (Visited L.strings taken)) :
    (Arena.link L.kind a e).Linked foldCase L (Visited L.strings (taken ++ [e])) := by
  obtain ⟨u, he, -⟩ := hes.steps e (hsplit ▸ by simp)
  have hshort := fun v hv hle => hes.visited_of_length_le hheight hsplit he (w := v) hv hle
  refine (h.link he hshort (hes.not_visited_child hsplit he)).congr fun w hw => ?_
  rw [Visited, Visited, List.map_append, List.mem_append, List.map_singleton, List.mem_singleton,
    he.child, Strings.id_inj hw, or_assoc]

/-- Writing the links of branches in breadth-first order. -/
theorem linkAll (hsplit : taken ++ todo = es) (h : a.Linked foldCase L (Visited L.strings [])) :
    (Arena.linkAll L.kind a taken).Linked foldCase L (Visited L.strings taken) := by
  induction taken using List.reverseRecOn generalizing todo with
  | nil => exact h
  | append_singleton taken e ih =>
      rw [List.append_assoc] at hsplit
      rw [linkAll_concat]
      exact link_next hes hheight hsplit (ih hsplit)

/-- Whether a child is to be cut off can be told before any link is written. -/
theorem isCut_linkAll (hsplit : taken ++ e :: todo = es)
    (h : a.Linked foldCase L (Visited L.strings [])) :
    (Arena.linkAll L.kind a taken).isCut L.kind e = a.isCut L.kind e := by
  obtain ⟨u, he, -⟩ := hes.steps e (hsplit ▸ by simp)
  have htaken := (linkAll hes hheight hsplit h).isCut_iff he (hes.not_visited_child hsplit he)
  exact Bool.eq_iff_iff.2 (htaken.trans (h.isCut_iff he (by simp [Visited])).symm)

/-- What is noted for the rest of the branches when the links of some are
written. -/
theorem linkEvents_eq (hsplit : taken ++ todo = es)
    (h : a.Linked foldCase L (Visited L.strings [])) :
    (Arena.linkAll L.kind a taken).linkEvents L.kind todo =
      (todo.filter (a.isCut L.kind)).map fun e => .cut e.child := by
  induction todo generalizing taken with
  | nil => rfl
  | cons e todo ih =>
      rw [linkEvents, isCut_linkAll hes hheight hsplit h, ← linkAll_concat,
        ih (by simpa using hsplit), List.filter_cons]
      split
      · rfl
      · rfl

end

end Linked

/-- The finished arena. -/
structure Compiled (a : Arena) (foldCase : Bool) (L : Lexicon) : Prop where
  size : a.size = L.strings.list.length + 2
  next : ∀ w ∈ L.strings, w ≠ [] → ∀ b,
    a.next (L.strings.id w) b = L.strings.id? (w ++ [Byte.canonical foldCase b])
  next_start : ∀ b, a.next .start b =
    some ((L.strings.id? [Byte.canonical foldCase b]).getD (if L.Shut then .dead else .start))
  next_dead : ∀ b, a.next .dead b = some .dead
  depth : ∀ w ∈ L.strings, (a.state (L.strings.id w)).depth = w.length
  dead : (a.state .dead).depth = 0 ∧ (a.state .dead).outputs = []
  failure_dead : (a.state .dead).failure = .start
  failure : ∀ w ∈ L.strings, (a.state (L.strings.id w)).failure = L.place (L.fallback w)
  outputs : ∀ w ∈ L.strings, (a.state (L.strings.id w)).outputs = L.heard w

namespace Compiled

variable {a : Arena} {foldCase : Bool} {L : Lexicon} {w : Bytes} {b : UInt8} {s t : StateId}

/-- There are the states of strings, the dead state, and none under other
names. -/
theorem state_cases (h : a.Compiled foldCase L) (s : StateId) :
    (∃ w ∈ L.strings, L.strings.id w = s) ∨ s = .dead ∨
      (a.size ≤ s.index ∧ a.state s = State.fresh 0) := by
  rcases Nat.lt_or_ge s.index a.size with hlt | hge
  · by_cases hdead : s = .dead
    · exact Or.inr (Or.inl hdead)
    · exact Or.inl (L.strings.exists_id (h.size ▸ hlt) hdead)
  · refine Or.inr (Or.inr ⟨hge, ?_⟩)
    rw [state, state?_eq_none_iff.2 hge, Option.getD_none]

theorem next_of_mem (h : a.Compiled foldCase L)
    (hw : w ++ [Byte.canonical foldCase b] ∈ L.strings) :
    a.next (L.strings.id w) b = some (L.strings.id (w ++ [Byte.canonical foldCase b])) := by
  by_cases hne : w = []
  · subst hne
    rw [List.nil_append] at hw ⊢
    rw [Strings.id_nil, h.next_start, Strings.id?_of_mem hw, Option.getD_some]
  · rw [h.next w (Strings.mem_of_append hw) hne, Strings.id?_of_mem hw]

theorem next_of_notMem (h : a.Compiled foldCase L) (hw : w ∈ L.strings) (hne : w ≠ [])
    (hwb : w ++ [Byte.canonical foldCase b] ∉ L.strings) : a.next (L.strings.id w) b = none := by
  rw [h.next w hw hne, Strings.id?_of_not_mem hwb]

theorem next_start_of_notMem (h : a.Compiled foldCase L)
    (hb : [Byte.canonical foldCase b] ∉ L.strings) :
    a.next .start b = some (if L.Shut then .dead else .start) := by
  rw [h.next_start, Strings.id?_of_not_mem hb, Option.getD_none]

/-- A transition goes down the tree, or else it is the loop of the state. -/
theorem next_eq (h : a.Compiled foldCase L) (hw : w ∈ L.strings) (b : UInt8) :
    a.next (L.strings.id w) b =
      if w ++ [Byte.canonical foldCase b] ∈ L.strings then
        some (L.strings.id (w ++ [Byte.canonical foldCase b]))
      else L.loop w := by
  split
  · next hmem => exact h.next_of_mem hmem
  · next hmem =>
      by_cases hne : w = []
      · subst hne
        rw [Strings.id_nil, h.next_start_of_notMem hmem]
        rfl
      · rw [h.next_of_notMem hw hne hmem, Lexicon.loop, if_neg hne]

/-- A transition to another state than the start and the dead state goes down the tree. -/
theorem exists_of_next (h : a.Compiled foldCase L) (hnext : a.next s b = some t)
    (hstart : t ≠ .start) (hdead : t ≠ .dead) :
    ∃ w, L.strings.id w = s ∧ w ++ [Byte.canonical foldCase b] ∈ L.strings ∧
      L.strings.id (w ++ [Byte.canonical foldCase b]) = t := by
  rcases h.state_cases s with ⟨w, hw, rfl⟩ | rfl | ⟨-, hs⟩
  · rw [h.next_eq hw] at hnext
    split at hnext
    · next hmem => exact ⟨w, rfl, hmem, Option.some_inj.1 hnext⟩
    · rcases Lexicon.loop_eq_some hnext with ht | ht
      · exact absurd ht hstart
      · exact absurd ht hdead
  · rw [h.next_dead] at hnext
    exact absurd (Option.some_inj.1 hnext).symm hdead
  · rw [Arena.next, hs, State.fresh_next_get] at hnext
    cases hnext

end Compiled

section

variable {a : Arena} {foldCase : Bool} {L : Lexicon}

/-- Transitions aside, `a'` is the arena `a`. -/
structure Rewired (a a' : Arena) : Prop where
  size : a'.size = a.size
  depth : ∀ s, (a'.state s).depth = (a.state s).depth
  failure : ∀ s, (a'.state s).failure = (a.state s).failure
  outputs : ∀ s, (a'.state s).outputs = (a.state s).outputs

theorem Rewired.trans {a₁ a₂ a₃ : Arena} (h : a₁.Rewired a₂) (h' : a₂.Rewired a₃) :
    a₁.Rewired a₃ where
  size := h'.size.trans h.size
  depth s := (h'.depth s).trans (h.depth s)
  failure s := (h'.failure s).trans (h.failure s)
  outputs s := (h'.outputs s).trans (h.outputs s)

theorem rewired_modify {s : StateId} (hs : s.index < a.size)
    (f : ByteTable (Option StateId) → ByteTable (Option StateId)) :
    a.Rewired (a.modify s fun x => { x with next := f x.next }) := by
  have hstate : ∀ t, ∃ next, (a.modify s fun x => { x with next := f x.next }).state t =
      { a.state t with next } := by
    intro t
    rw [state_modify _ _ _ _ hs]
    split
    · exact ⟨_, rfl⟩
    · exact ⟨_, rfl⟩
  refine ⟨size_modify .., ?_, ?_, ?_⟩
  · intro t
    obtain ⟨next, hnext⟩ := hstate t
    rw [hnext]
  · intro t
    obtain ⟨next, hnext⟩ := hstate t
    rw [hnext]
  · intro t
    obtain ⟨next, hnext⟩ := hstate t
    rw [hnext]

/-- The loops are the only change to a bare tree before its links are
written. -/
theorem Spells.linked (h : a.Spells foldCase L.strings L.outputs) :
    a.closeStart.closeDead.Linked foldCase L (Visited L.strings []) := by
  have hnil : ∀ w ∈ L.strings, w = [] ↔ Visited L.strings [] w :=
    fun w _ => (or_iff_left List.not_mem_nil).symm
  refine Linked.congr ?_ hnil
  have hs₀ : StateId.start.index < a.size := by
    rw [h.size]
    exact Nat.succ_pos _
  have hs₁ : StateId.dead.index < a.closeStart.size := by
    rw [closeStart, size_modify, h.size]
    exact Nat.succ_lt_succ (Nat.succ_pos _)
  have hrewired : a.Rewired a.closeStart.closeDead :=
    (rewired_modify hs₀ _).trans (rewired_modify hs₁ fun _ => ByteTable.replicate (some .dead))
  have hstart : ∀ s, a.closeStart.state s =
      if .start = s then
        { a.state s with next := (a.state s).next.map fun t => some (t.getD .start) }
      else a.state s := fun s => state_modify _ _ _ _ hs₀
  have hdead : ∀ s, a.closeStart.closeDead.state s =
      if .dead = s then
        { a.closeStart.state s with next := ByteTable.replicate (some StateId.dead) }
      else a.closeStart.state s := fun s => state_modify _ _ _ _ hs₁
  refine ⟨hrewired.size.trans h.size, ?_, ?_, ?_, ?_, ?_, ?_, ?_, ?_, ?_⟩
  · intro w hw hne b
    have hstart' : .start ≠ L.strings.id w := fun heq => hne (Strings.id_eq_start_iff.1 heq.symm)
    rw [Arena.next, hdead, if_neg (Strings.id_ne_dead L.strings w).symm, hstart, if_neg hstart']
    exact h.next w hw b
  · intro b
    rw [Arena.next, hdead, if_neg (by decide), hstart, if_pos rfl]
    simp only [ByteTable.get_map]
    exact congrArg (fun t => some (t.getD StateId.start)) (h.next [] (Strings.nil_mem _) b)
  · intro b
    rw [Arena.next, hdead, if_pos rfl]
    exact ByteTable.get_replicate _ b
  · intro w hw
    rw [hrewired.depth]
    exact h.depth w hw
  · rw [hrewired.depth, hrewired.outputs, h.dead]
    exact ⟨rfl, rfl⟩
  · rw [hrewired.failure, h.dead]
    rfl
  · intro w hw hnil
    subst hnil
    rw [hrewired.failure]
    exact h.failure [] hw
  · intro w hw hnil
    subst hnil
    rw [hrewired.outputs]
    exact h.outputs [] hw
  · intro w hw _
    rw [hrewired.failure, hrewired.outputs]
    exact ⟨h.failure w hw, h.outputs w hw⟩

/-- Shutting the start state is the last change. -/
theorem Linked.compiled (h : a.Linked foldCase L fun _ => True) :
    (a.shutStart L.kind).Compiled foldCase L := by
  have hs₀ : StateId.start.index < a.size := by
    rw [h.size]
    exact Nat.succ_pos _
  have hstart : (a.state .start).outputs = L.outputs [] := h.outputs [] (Strings.nil_mem _) trivial
  have hshut : (L.kind.isLeftmost && (a.state .start).isMatch) = true ↔ L.Shut := by
    rw [Bool.and_eq_true, State.isMatch_iff, hstart, Lexicon.Shut]
  by_cases hs : L.Shut
  · rw [shutStart, if_pos (hshut.2 hs)]
    have hstate := fun s => state_modify a .start s (fun x =>
      { x with next := x.next.map fun t => if t = some .start then some .dead else t }) hs₀
    have hrewired := rewired_modify hs₀ fun next =>
      next.map fun t => if t = some .start then some .dead else t
    refine ⟨hrewired.size.trans h.size, ?_, ?_, ?_, ?_, ?_, ?_, ?_, ?_⟩
    · intro w hw hne b
      have hstart' : .start ≠ L.strings.id w := fun heq => hne (Strings.id_eq_start_iff.1 heq.symm)
      rw [Arena.next, hstate, if_neg hstart']
      exact h.next w hw hne b
    · intro b
      have hnext : (a.state .start).next.get b = _ := h.next_start b
      rw [Arena.next, hstate, if_pos rfl]
      simp only [ByteTable.get_map, hnext, if_pos hs]
      by_cases hb : [Byte.canonical foldCase b] ∈ L.strings
      · rw [Strings.id?_of_mem hb, Option.getD_some, Option.getD_some, if_neg]
        rw [Option.some_inj, Strings.id_eq_start_iff]
        exact List.cons_ne_nil _ _
      · rw [Strings.id?_of_not_mem hb, Option.getD_none, Option.getD_none, if_pos rfl]
    · intro b
      rw [Arena.next, hstate, if_neg (by decide)]
      exact h.next_dead b
    · intro w hw
      rw [hrewired.depth]
      exact h.depth w hw
    · rw [hrewired.depth, hrewired.outputs]
      exact h.dead
    · rw [hrewired.failure]
      exact h.failure_dead
    · intro w hw
      rw [hrewired.failure]
      exact h.failure w hw trivial
    · intro w hw
      rw [hrewired.outputs]
      exact h.outputs w hw trivial
  · rw [shutStart, if_neg fun heq => hs (hshut.1 heq)]
    refine ⟨h.size, h.next, ?_, h.next_dead, h.depth, h.dead, h.failure_dead, ?_, ?_⟩
    · simpa only [if_neg hs] using h.next_start
    · exact fun w hw => h.failure w hw trivial
    · exact fun w hw => h.outputs w hw trivial

end

end Arena

/-- The prefix tree of patterns is that of their lexicon. -/
theorem Trie.tree_ofWords (st : Settings) (patterns : List Bytes) :
    (ofPatterns st patterns).arena.Tree st.foldCase
      (Lexicon.ofWords st.kind (patterns.map st.canon)).strings
      (Lexicon.ofWords st.kind (patterns.map st.canon)).outputs
      (ofPatterns st patterns).maxLength :=
  tree_ofPatterns st patterns

/-- The arena that patterns are compiled to. -/
theorem Trie.compiled_ofPatterns (st : Settings) (patterns : List Bytes) :
    ((ofPatterns st patterns).linked st.kind).Compiled st.foldCase
      (.ofWords st.kind (patterns.map st.canon)) := by
  have ht := tree_ofWords st patterns
  have hes := ht.isBreadthFirst
  have hlinked := Arena.Linked.linkAll hes ht.length_le (List.append_nil _) ht.spells.linked
  exact (hlinked.congr fun w hw => iff_of_true (hes.visited ht.length_le hw) trivial).compiled

end MultiPattern
