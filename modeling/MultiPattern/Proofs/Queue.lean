import MultiPattern.Proofs.Linking
import MultiPattern.Proofs.QueueOrder

/-!
# Writing the links along a queue

The arena is linked along a list of branches that is read off the bare tree.
A search of its own does without that list: it takes a state out of a queue,
follows its transitions and puts every child that it has not met into the queue,
when the failure state of the child is written too, and it is noted if the child is
cut off. `Visit.step?` is one step of that search, on an arena that is linked half
way and closed already, so that transitions lead back to the start state and, under
folding, to one child twice. The loop that looks for a failure state, `Arena.Finds`,
has no bound of its own.

Both come to the same. What is left to visit is, after every step, the rest of the
list (`Visit.Follows`), what has been noted is what the list notes up to here, and
the arena is the one linked so far, but for the reports of the start state: a state
gets those when its own children have been met, a child of the start state included,
while the list brings them with the link. A child is linked to a state that has them
or gets them later, so no report is lost.
-/

namespace MultiPattern

theorem State.acceptAll_acceptAll {s : State} {ps qs rs : List PatternId}
    (hs : s.outputs.Pairwise (·.index < ·.index)) (h : ∀ p, p ∈ rs ↔ p ∈ ps ∨ p ∈ qs) :
    (s.acceptAll ps).acceptAll qs = s.acceptAll rs := by
  simp only [State.acceptAll_eq, State.mk.injEq, true_and, and_true]
  refine PatternId.eq_of_mem_iff ?_ ?_ fun p => ?_
  · exact PatternId.pairwise_merge (PatternId.pairwise_merge hs)
  · exact PatternId.pairwise_merge hs
  · rw [PatternId.mem_merge, PatternId.mem_merge, PatternId.mem_merge, h, or_assoc]

namespace Arena

/-- The loop that looks for a failure state: along failure links from `s` to the
first state with a transition on `b`, which is the `n`th, and over it to `t`. -/
inductive Finds (a : Arena) (b : UInt8) : StateId → Nat → StateId → Prop
  | here {s t : StateId} (h : a.next s b = some t) : Finds a b s 1 t
  | fall {s t : StateId} {n : Nat} (h : a.next s b = none)
      (hrest : Finds a b (a.state s).failure n t) : Finds a b s (n + 1) t

theorem exists_finds {a : Arena} {b : UInt8} {fuel : Nat} {s t : StateId}
    (h : a.linkTarget? b fuel s = some t) : ∃ n ≤ fuel, a.Finds b s n t := by
  induction fuel generalizing s with
  | zero => cases h
  | succ fuel ih =>
      rw [linkTarget?] at h
      cases hnext : a.next s b with
      | some t' =>
          rw [hnext] at h
          cases h
          exact ⟨1, Nat.succ_le_succ (Nat.zero_le _), .here hnext⟩
      | none =>
          rw [hnext] at h
          obtain ⟨n, hn, hfinds⟩ := ih h
          exact ⟨n + 1, Nat.succ_le_succ hn, .fall hnext hfinds⟩

/-- Reports aside, `a'` is the arena `a`. -/
structure SameLinks (a a' : Arena) : Prop where
  next : ∀ s b, a.next s b = a'.next s b
  depth : ∀ s, (a.state s).depth = (a'.state s).depth
  failure : ∀ s, (a.state s).failure = (a'.state s).failure

theorem SameLinks.linkTarget? {a a' : Arena} (h : a.SameLinks a') (b : UInt8) (fuel : Nat)
    (s : StateId) : a.linkTarget? b fuel s = a'.linkTarget? b fuel s := by
  induction fuel generalizing s with
  | zero => rfl
  | succ fuel ih => rw [Arena.linkTarget?, Arena.linkTarget?, h.next, h.failure, ih]

theorem SameLinks.linkTarget {a a' : Arena} (h : a.SameLinks a') (e : Branch) :
    a.linkTarget e = a'.linkTarget e := by
  rw [Arena.linkTarget, Arena.linkTarget, h.depth, h.failure, h.linkTarget?]

/-- The loop of the start state is all that closing adds to its transitions. -/
theorem Tree.filter_transitions_start {a : Arena} {foldCase : Bool} {L : Lexicon} {height : Nat}
    (ht : a.Tree foldCase L.strings L.outputs height) :
    (a.closeStart.closeDead.transitions .start).filter (fun e => e.child ≠ .start) =
      a.transitions .start := by
  rw [transitions_eq, transitions_eq, List.filter_filterMap]
  refine List.filterMap_congr fun b _ => ?_
  have hbare := ht.spells.next [] (Strings.nil_mem _) b
  rw [Strings.id_nil, List.nil_append] at hbare
  rw [ht.spells.linked.next_start, hbare]
  cases hid : L.strings.id? [Byte.canonical foldCase b] with
  | none => simp
  | some t =>
      obtain ⟨-, rfl⟩ := Strings.id?_eq_some_iff.1 hid
      have hne : L.strings.id [Byte.canonical foldCase b] ≠ .start :=
        fun heq => absurd (Strings.id_eq_start_iff.1 heq) (List.cons_ne_nil _ _)
      simp [hne]

/-- What is written when a child is met. It is `link`, but a child of the start
state that is not cut off is left as it is. -/
def linkEarly (kind : MatchKind) (a : Arena) (e : Branch) : Arena :=
  if e.parent = .start ∧ a.isCut kind e = false then a else a.link kind e

section

variable {a : Arena} {foldCase : Bool} {L : Lexicon} {u : Bytes} {e : Branch}

theorem linkEarly_of_leftmost (hk : L.kind.isLeftmost = true) :
    a.linkEarly L.kind e = a.link L.kind e := by
  rw [linkEarly]
  split
  · next h => rw [link, if_neg (by simp [h.2]), if_pos h.1, if_pos hk]
  · rfl

theorem size_linkEarly (kind : MatchKind) (a : Arena) (e : Branch) :
    (a.linkEarly kind e).size = a.size := by
  rw [linkEarly]
  split
  · rfl
  · exact Linked.size_link ..

theorem state_linkEarly_of_ne (he : e.From foldCase L.strings u)
    (hsize : a.size = L.strings.list.length + 2) {s : StateId} (hs : s ≠ e.child) :
    (a.linkEarly L.kind e).state s = a.state s := by
  rw [linkEarly]
  split
  · rfl
  · exact Linked.state_link_of_ne he hsize hs

end

end Arena

/-- How far a search has come that links the states it visits. -/
structure Visit where
  arena : Arena
  /-- The states that have been met. -/
  visited : List StateId
  queue : List StateId
  /-- The states that were taken out of the queue. -/
  dequeued : List StateId
  /-- The last of them, while its children are met. -/
  parent : Option StateId
  /-- The transitions that are still to be followed. -/
  pending : List Branch
  /-- What has been noted. -/
  events : List Event

namespace Visit

/-- The search begins with the transitions of the start state, which counts as met.
Something may have been noted before. -/
def initial (a : Arena) (noted : List Event) : Visit :=
  { arena := a
    visited := [.start]
    queue := []
    dequeued := []
    parent := none
    pending := a.transitions .start
    events := noted }

/-- The states that were put into the queue, whether they are still in it or not. -/
def queued (v : Visit) : List StateId :=
  v.dequeued ++ v.queue

/-- Meet a child. If it is cut off, that is noted. -/
def meet (kind : MatchKind) (v : Visit) (e : Branch) : Visit :=
  { v with
    arena := v.arena.linkEarly kind e
    visited := v.visited ++ [e.child]
    queue := v.queue ++ [e.child]
    events := v.events ++ if v.arena.isCut kind e then [.cut e.child] else [] }

/-- Leave a state whose children have been met. Unless a leftmost rule is
followed, it takes over what the start state reports. -/
def leave (kind : MatchKind) (v : Visit) (s : StateId) : Visit :=
  { v with
    arena :=
      if kind.isLeftmost then v.arena
      else v.arena.modify s (·.acceptAll (v.arena.state .start).outputs)
    parent := none }

/-- Take the first state `s` out of the queue. -/
def enter (v : Visit) (s : StateId) (queue : List StateId) : Visit :=
  { v with
    queue
    dequeued := v.dequeued ++ [s]
    parent := some s
    pending := v.arena.transitions s }

/-- One step of the search. There is none when all is done. -/
def step? (kind : MatchKind) (v : Visit) : Option Visit :=
  match v.pending, v.parent, v.queue with
  | e :: rest, _, _ =>
      if e.child ∈ v.visited then some { v with pending := rest }
      else some ({ v with pending := rest }.meet kind e)
  | [], some s, _ => some (v.leave kind s)
  | [], none, s :: queue => some (v.enter s queue)
  | [], none, [] => none

/-- The search after `n` steps. -/
def after (kind : MatchKind) : Nat → Visit → Option Visit
  | 0, v => some v
  | n + 1, v => (v.step? kind).bind (after kind n)

/-- The next step looks for the failure state of the child of `e`. -/
def Calls (kind : MatchKind) (v : Visit) (e : Branch) : Prop :=
  v.pending.head? = some e ∧ e.child ∉ v.visited ∧ v.arena.isCut kind e = false ∧ e.parent ≠ .start

instance (kind : MatchKind) (v : Visit) (e : Branch) : Decidable (v.Calls kind e) :=
  inferInstanceAs (Decidable (_ ∧ _))

/-- The loop that looks for the failure state of the child of `e` has come to
`target`, having looked at `looked` states. -/
structure Found (v : Visit) (e : Branch) (looked : Nat) (target : StateId) : Prop where
  finds : v.arena.Finds e.byte (v.arena.state e.parent).failure looked target
  looked_le : looked ≤ (v.arena.state e.parent).depth + 1
  linkTarget_eq : v.arena.linkTarget e = target
  met : target ∈ v.visited ∨ target = .start ∨ target = .dead
  shallower : (v.arena.state target).depth < (v.arena.state e.child).depth

/-- The states that will yet take over what the start state reports. -/
def due (v : Visit) : List StateId :=
  v.parent.toList ++ v.queue

/-- A state with all that it will take over. -/
def completed (kind : MatchKind) (v : Visit) (s : StateId) : State :=
  if kind.isLeftmost = false ∧ s ∈ v.due then
    (v.arena.state s).acceptAll (v.arena.state .start).outputs
  else v.arena.state s

/-- The branches that will be taken before another state leaves the queue. -/
def fresh (v : Visit) : List Branch :=
  Branch.firstToEach (v.pending.filter fun e => e.child ∉ v.visited)

/-- What bounds the steps to come when the branches `todo` are left. A state that
leaves the queue brings at most 256 transitions and is left once. -/
def remaining (v : Visit) (todo : List Branch) : Nat :=
  258 * (v.queue.length + todo.length) + v.parent.toList.length + v.pending.length

/-- The search has taken the branches `taken` of a bare tree, which it will go on
to visit in the order `todo`. What it has noted is what the list notes. -/
structure Follows (v : Visit) (kind : MatchKind) (a : Arena) (height : Nat) (noted : List Event)
    (taken todo : List Branch) : Prop where
  split : taken ++ todo = a.breadthFirst height
  visited : v.visited = .start :: v.queued
  queued : v.queued = taken.map (·.child)
  due : v.due <:+ v.queued
  size : v.arena.size = a.size
  state : ∀ s, (a.closeStart.closeDead.linkAll kind taken).state s = v.completed kind s
  todo : todo = v.fresh ++
    a.unqueue (v.queue.length + todo.length) (v.queue ++ v.fresh.map (·.child))
  events : v.events = noted ++ a.closeStart.closeDead.linkEvents kind taken

variable {v v' : Visit} {kind : MatchKind} {a : Arena} {foldCase : Bool} {L : Lexicon}
  {height : Nat} {noted : List Event} {taken todo rest : List Branch} {e : Branch}
  {s : StateId} {queue : List StateId}

theorem completed_of_leftmost (hk : kind.isLeftmost = true) (s : StateId) :
    v.completed kind s = v.arena.state s := by
  rw [completed, hk, if_neg (by simp)]

theorem completed_of_mem_due (hk : kind.isLeftmost = false) (hs : s ∈ v.due) :
    v.completed kind s = (v.arena.state s).acceptAll (v.arena.state .start).outputs :=
  if_pos ⟨hk, hs⟩

theorem completed_of_notMem_due (kind : MatchKind) (hs : s ∉ v.due) :
    v.completed kind s = v.arena.state s :=
  if_neg fun h => hs h.2

theorem completed_eq (kind : MatchKind) (v : Visit) (s : StateId) :
    v.completed kind s = { v.arena.state s with outputs := (v.completed kind s).outputs } := by
  rw [completed]
  split
  · rw [State.acceptAll_eq]
  · rfl

theorem fresh_of_seen (hpending : v.pending = e :: rest) (hseen : e.child ∈ v.visited) :
    { v with pending := rest }.fresh = v.fresh := by
  rw [fresh, fresh, hpending, List.filter_cons, if_neg (by simpa using hseen)]

theorem fresh_of_not_seen (kind : MatchKind) (hpending : v.pending = e :: rest)
    (hnew : e.child ∉ v.visited) :
    v.fresh = e :: ({ v with pending := rest }.meet kind e).fresh := by
  have hseen : ∀ s, s ∉ ({ v with pending := rest }.meet kind e).visited ↔
      s ≠ e.child ∧ s ∉ v.visited := by
    intro s
    simp only [meet, List.mem_append, List.mem_singleton]
    tauto
  rw [fresh, fresh, hpending, List.filter_cons, if_pos (by simpa using hnew), Branch.firstToEach,
    ← Branch.firstToEach_filter fun s => decide (s ≠ e.child), List.filter_filter]
  simp only [hseen, Bool.decide_and]
  rfl

theorem fresh_initial (ht : a.Tree foldCase L.strings L.outputs height) :
    (initial a.closeStart.closeDead noted).fresh = a.branches .start := by
  have hseen : ∀ s, s ∉ (initial a.closeStart.closeDead noted).visited ↔ s ≠ .start := by
    simp [initial]
  rw [fresh, Arena.branches_eq, ← ht.filter_transitions_start]
  exact congrArg Branch.firstToEach (List.filter_congr fun e _ => decide_eq_decide.2 (hseen _))

namespace Follows

theorem mem_visited (h : v.Follows kind a height noted taken todo) :
    s ∈ v.visited ↔ s = .start ∨ s ∈ v.queued := by
  rw [h.visited, List.mem_cons]

theorem notMem_due (h : v.Follows kind a height noted taken todo) (hs : s ∉ v.visited) :
    s ∉ v.due :=
  fun hdue => hs (h.mem_visited.2 (Or.inr (h.due.subset hdue)))

section

variable (ht : a.Tree foldCase L.strings L.outputs height)
  (h : v.Follows L.kind a height noted taken todo)

include ht h

theorem exists_from (he : e ∈ taken ++ todo) : ∃ u, e.From foldCase L.strings u := by
  obtain ⟨u, hu, -⟩ := ht.isBreadthFirst.steps e (h.split ▸ he)
  exact ⟨u, hu⟩

theorem nodup_children : ((taken ++ todo).map (·.child)).Nodup :=
  h.split ▸ ht.isBreadthFirst.nodup

theorem linked : (a.closeStart.closeDead.linkAll L.kind taken).Linked foldCase L
    (Arena.Visited L.strings taken) :=
  Arena.Linked.linkAll ht.isBreadthFirst ht.length_le h.split ht.spells.linked

omit ht in
theorem sameLinks : (a.closeStart.closeDead.linkAll L.kind taken).SameLinks v.arena where
  next s b := by rw [Arena.next, Arena.next, h.state, completed_eq]
  depth s := by rw [h.state, completed_eq]
  failure s := by rw [h.state, completed_eq]

theorem arena_eq (hcompleted : ∀ s, v.completed L.kind s = v.arena.state s) :
    v.arena = a.closeStart.closeDead.linkAll L.kind taken :=
  Arena.ext_state (h.size.trans (ht.spells.size.trans (h.linked ht).size.symm)) fun s _ => by
    rw [h.state, hcompleted]

theorem exists_of_mem_queued (hs : s ∈ v.queued) :
    ∃ w ∈ L.strings, w ≠ [] ∧ L.strings.id w = s := by
  rw [h.queued] at hs
  obtain ⟨e, he, rfl⟩ := List.mem_map.1 hs
  obtain ⟨u, hu⟩ := h.exists_from ht (List.mem_append_left _ he)
  exact ⟨_, hu.child_mem, by simp, hu.child.symm⟩

theorem start_notMem_queued : StateId.start ∉ v.queued := by
  intro hs
  obtain ⟨w, -, hne, hid⟩ := h.exists_of_mem_queued ht hs
  exact hne (Strings.id_eq_start_iff.1 hid)

theorem notMem_visited_of_mem_todo (he : e ∈ todo) : e.child ∉ v.visited := by
  intro hseen
  rcases h.mem_visited.1 hseen with heq | hmem
  · obtain ⟨u, hu⟩ := h.exists_from ht (List.mem_append_right _ he)
    exact hu.child_ne_start heq
  · have hnodup := h.nodup_children ht
    rw [List.map_append, List.nodup_append, ← h.queued] at hnodup
    exact hnodup.2.2 _ hmem _ (List.mem_map_of_mem he) rfl

/-- Below the start state the search sees the transitions of the bare tree. -/
theorem transitions_eq (hs : s ∈ v.queued) : v.arena.transitions s = a.transitions s := by
  obtain ⟨w, hw, hne, rfl⟩ := h.exists_of_mem_queued ht hs
  refine Arena.transitions_congr fun b => ?_
  rw [← h.sameLinks.next, (h.linked ht).next w hw hne, ht.spells.next w hw]

theorem start_notMem_due : StateId.start ∉ v.due :=
  fun hs => h.start_notMem_queued ht (h.due.subset hs)

end

/-- The search follows the list from the beginning. -/
theorem initial (ht : a.Tree foldCase L.strings L.outputs height) (noted : List Event) :
    (initial a.closeStart.closeDead noted).Follows L.kind a height noted []
      (a.breadthFirst height) where
  split := List.nil_append _
  visited := rfl
  queued := rfl
  due := List.suffix_rfl
  size := ht.spells.linked.size.trans ht.spells.size.symm
  state s := by
    rw [completed_of_notMem_due _ List.not_mem_nil]
    rfl
  todo := by
    have hlevels := Arena.unqueue_levels ht.spells ht.canonical height
      (Arena.isLevel_start L.strings) fun w hw => (Nat.zero_add height).symm ▸ ht.length_le w hw
    rw [List.length_singleton, Nat.add_comm, Arena.unqueue, List.nil_append] at hlevels
    have hqueue : (Visit.initial a.closeStart.closeDead noted).queue = [] := rfl
    rw [fresh_initial ht, hqueue, List.length_nil, Nat.zero_add, List.nil_append]
    exact hlevels.symm
  events := (List.append_nil noted).symm

theorem skip (h : v.Follows kind a height noted taken todo) (hpending : v.pending = e :: rest)
    (hseen : e.child ∈ v.visited) :
    { v with pending := rest }.Follows kind a height noted taken todo where
  split := h.split
  visited := h.visited
  queued := h.queued
  due := h.due
  size := h.size
  state := h.state
  todo := by
    rw [fresh_of_seen hpending hseen]
    exact h.todo
  events := h.events

section

variable (ht : a.Tree foldCase L.strings L.outputs height)
  (h : v.Follows L.kind a height noted taken todo)

include ht h

theorem queued_nodup : v.queued.Nodup := by
  rw [h.queued]
  exact (h.nodup_children ht).sublist ((List.sublist_append_left _ _).map _)

theorem due_nodup : v.due.Nodup :=
  h.due.sublist.nodup (h.queued_nodup ht)

/-- What a state takes over when it is left was due to it. -/
theorem completed_leave (hdue : v.due = s :: v.queue) (t : StateId) :
    v.completed L.kind t = (v.leave L.kind s).completed L.kind t := by
  by_cases hk : L.kind.isLeftmost = true
  · rw [completed_of_leftmost hk, completed_of_leftmost hk, Visit.leave, if_pos hk]
  · have hs : s ∈ v.due := hdue ▸ List.mem_cons_self
    have hindex : s.index < v.arena.size := by
      obtain ⟨w, hw, -, rfl⟩ := h.exists_of_mem_queued ht (h.due.subset hs)
      rw [h.size, ht.spells.size]
      exact Strings.id_index_lt hw
    have hne : s ≠ .start := fun heq => h.start_notMem_due ht (heq ▸ hs)
    have hdue' : (v.leave L.kind s).due = v.queue := rfl
    have harena : (v.leave L.kind s).arena =
        v.arena.modify s (·.acceptAll (v.arena.state .start).outputs) := if_neg hk
    have hstate := fun t => Arena.state_modify v.arena s t
      (·.acceptAll (v.arena.state .start).outputs) hindex
    have hnodup := h.due_nodup ht
    rw [hdue, List.nodup_cons] at hnodup
    by_cases hst : s = t
    · subst hst
      rw [completed_of_mem_due (Bool.eq_false_iff.2 hk) hs,
        completed_of_notMem_due _ (hdue' ▸ hnodup.1), harena, hstate, if_pos rfl]
    · have hmem : t ∈ (v.leave L.kind s).due ↔ t ∈ v.due := by
        rw [hdue, hdue', List.mem_cons, or_iff_right (Ne.symm hst)]
      simp only [completed, hmem, harena, hstate, if_neg hst, if_neg hne]

theorem leave (hparent : v.parent = some s) :
    (v.leave L.kind s).Follows L.kind a height noted taken todo := by
  have hdue : v.due = s :: v.queue := by
    rw [Visit.due, hparent]
    rfl
  refine ⟨h.split, h.visited, h.queued, ?_, ?_, fun t => ?_, h.todo, h.events⟩
  · exact (hdue ▸ List.suffix_cons s v.queue).trans h.due
  · rw [← h.size, Visit.leave]
    split
    · rfl
    · exact Arena.size_modify ..
  · rw [h.state]
    exact h.completed_leave ht hdue t

theorem enter (hpending : v.pending = []) (hparent : v.parent = none)
    (hqueue : v.queue = s :: queue) :
    (v.enter s queue).Follows L.kind a height noted taken todo := by
  have hdue : v.due = (v.enter s queue).due := by
    rw [Visit.due, hparent, hqueue]
    rfl
  have hqueued : (v.enter s queue).queued = v.queued := by
    rw [Visit.queued, Visit.queued, hqueue]
    exact (List.append_cons ..).symm
  have hs : s ∈ v.queued := h.due.subset (by simp [Visit.due, hqueue])
  have htodo : todo = a.branches s ++
      a.unqueue (queue.length + todo.length) (queue ++ (a.branches s).map (·.child)) := by
    have htodo := h.todo
    rw [fresh, hpending, List.filter_nil, Branch.firstToEach, List.nil_append, List.map_nil,
      List.append_nil, hqueue, List.length_cons, Nat.add_right_comm, Arena.unqueue] at htodo
    exact htodo
  -- No child of `s` has been met, since the list has no child twice.
  have hfresh : (v.enter s queue).fresh = a.branches s := by
    have hall := Branch.firstToEach_filter (fun s => decide (s ∉ v.visited)) (v.arena.transitions s)
    rw [h.transitions_eq ht hs, ← Arena.branches_eq] at hall
    rw [fresh, Visit.enter, h.transitions_eq ht hs]
    refine hall.trans ?_
    refine List.filter_eq_self.2 fun e he => decide_eq_true (h.notMem_visited_of_mem_todo ht ?_)
    rw [htodo]
    exact List.mem_append_left _ he
  refine ⟨h.split, hqueued ▸ h.visited, hqueued ▸ h.queued, hqueued ▸ hdue ▸ h.due, h.size,
    fun t => ?_, ?_, h.events⟩
  · rw [h.state, completed, completed, hdue]
    rfl
  · rw [hfresh]
    exact htodo

/-- When a child is met its failure state has all that the start state reports, or
will have it. -/
theorem mem_completed_linkTarget {u : Bytes} {p : PatternId} (hk : L.kind.isLeftmost = false)
    (he : e.From foldCase L.strings u) (hne : u ≠ [])
    (hshort : ∀ w ∈ L.strings, w.length ≤ u.length → Arena.Visited L.strings taken w) :
    p ∈ (v.completed L.kind (v.arena.linkTarget e)).outputs ↔
      p ∈ (v.arena.state (v.arena.linkTarget e)).outputs ∨ p ∈ (v.arena.state .start).outputs := by
  by_cases hdue : v.arena.linkTarget e ∈ v.due
  · rw [completed_of_mem_due hk hdue, State.mem_outputs_acceptAll]
  · have hlinked := h.linked ht
    have hcut : ¬ L.Commits (u ++ [Byte.canonical foldCase e.byte]) := by simp [Lexicon.Commits, hk]
    have htarget : (v.arena.state (v.arena.linkTarget e)).outputs =
        (L.fallback (u ++ [Byte.canonical foldCase e.byte])).elim [] L.heard := by
      rw [← completed_of_notMem_due L.kind hdue, ← h.state, ← h.sameLinks.linkTarget,
        hlinked.linkTarget_eq he hne hshort hcut]
      refine hlinked.outputs_place fun w hw => ?_
      obtain ⟨hle, hmem⟩ := Lexicon.fallback_concat_eq_some hw
      exact ⟨hmem, hshort w hmem hle⟩
    have hstart : (v.arena.state .start).outputs = L.outputs [] := by
      rw [← completed_of_notMem_due L.kind (h.start_notMem_due ht), ← h.state]
      exact hlinked.outputs [] (Strings.nil_mem _) (Or.inl rfl)
    rw [completed_of_notMem_due _ hdue, or_iff_left_of_imp]
    intro hp
    rw [htarget]
    exact Lexicon.mem_heard_fallback hk (hstart ▸ hp)

/-- What a child has when it is met, with the reports of the start state to come,
is what the list gives it. -/
theorem state_link_child {u : Bytes} (hk : L.kind.isLeftmost = false)
    (he : e.From foldCase L.strings u)
    (hshort : ∀ w ∈ L.strings, w.length ≤ u.length → Arena.Visited L.strings taken w)
    (hnew : e.child ∉ v.visited) :
    ((a.closeStart.closeDead.linkAll L.kind taken).link L.kind e).state e.child =
      ((v.arena.linkEarly L.kind e).state e.child).acceptAll (v.arena.state .start).outputs := by
  have hlinked := h.linked ht
  have hold : ∀ s, s ∉ v.due →
      (a.closeStart.closeDead.linkAll L.kind taken).state s = v.arena.state s :=
    fun s hs => (h.state s).trans (completed_of_notMem_due _ hs)
  have hdue : e.child ∉ v.due := h.notMem_due hnew
  have hlt : e.child.index < L.strings.list.length + 2 :=
    he.child ▸ Strings.id_index_lt he.child_mem
  have hcut : ∀ a' : Arena, a'.isCut L.kind e = false := by simp [Arena.isCut, hk]
  rw [Arena.link, if_neg (by simp [hcut]), Arena.linkEarly, hcut]
  -- A child of the start state is left as it is. Any other takes over from its
  -- failure state, which may have reports to come itself.
  by_cases hparent : e.parent = .start
  · rw [if_pos hparent, if_neg (by simp [hk]), if_pos ⟨hparent, rfl⟩,
      Arena.state_modify _ _ _ _ (hlinked.size ▸ hlt), if_pos rfl, hold _ hdue,
      hold _ (h.start_notMem_due ht)]
  · have hne : u ≠ [] := fun heq => hparent (he.parent_eq_start_iff.2 heq)
    have hsize : v.arena.size = L.strings.list.length + 2 := h.size.trans ht.spells.size
    have hascending : (v.arena.state e.child).outputs.Pairwise (·.index < ·.index) := by
      have hpending := hlinked.pending _ he.child_mem fun hvisited =>
        hnew (h.mem_visited.2 (Or.inr
          (by rw [h.queued, he.child]; exact hvisited.resolve_left (by simp))))
      rw [← hold _ hdue, he.child, hpending.2]
      exact L.ascending _
    rw [if_neg hparent, if_neg fun hp => hparent hp.1, Arena.link, if_neg (by simp [hcut]),
      if_neg hparent, Arena.state_modify _ _ _ _ (hlinked.size ▸ hlt), if_pos rfl,
      Arena.state_modify _ _ _ _ (hsize ▸ hlt), if_pos rfl, hold _ hdue, h.sameLinks.linkTarget,
      h.state]
    refine (State.acceptAll_acceptAll (s := (v.arena.state e.child).failTo (v.arena.linkTarget e))
      hascending fun p => ?_).symm
    exact h.mem_completed_linkTarget ht hk he hne hshort

theorem state_meet {u : Bytes} (he : e.From foldCase L.strings u)
    (hshort : ∀ w ∈ L.strings, w.length ≤ u.length → Arena.Visited L.strings taken w)
    (hnew : e.child ∉ v.visited) (s : StateId) :
    ((a.closeStart.closeDead.linkAll L.kind taken).link L.kind e).state s =
      (v.meet L.kind e).completed L.kind s := by
  by_cases hk : L.kind.isLeftmost = true
  · rw [completed_of_leftmost hk, Visit.meet, Arena.linkEarly_of_leftmost hk,
      h.arena_eq ht fun t => completed_of_leftmost hk t]
  · have hk' : L.kind.isLeftmost = false := Bool.eq_false_iff.2 hk
    have hne : .start ≠ e.child := fun heq => hnew (h.mem_visited.2 (Or.inl heq.symm))
    have hdue : (v.meet L.kind e).due = v.due ++ [e.child] := by
      rw [Visit.due, Visit.due, List.append_assoc]
      rfl
    have hself : ∀ t, t ≠ e.child → (v.meet L.kind e).arena.state t = v.arena.state t :=
      fun t ht' => Arena.state_linkEarly_of_ne he (h.size.trans ht.spells.size) ht'
    by_cases hs : s = e.child
    · subst hs
      have hlast : e.child ∈ (v.meet L.kind e).due := by simp [hdue]
      rw [h.state_link_child ht hk' he hshort hnew, completed_of_mem_due hk' hlast, hself _ hne]
      rfl
    · have hmem : s ∈ (v.meet L.kind e).due ↔ s ∈ v.due := by
        rw [hdue, List.mem_append, List.mem_singleton, or_iff_left hs]
      rw [Arena.Linked.state_link_of_ne he (h.linked ht).size hs, h.state, completed, completed,
        hself _ hne, hself _ hs]
      simp only [hmem]

omit h in
/-- Before the next child all strings no longer than that of its parent have been
visited. -/
theorem visited_of_length_le {u : Bytes} (h : v.Follows L.kind a height noted taken (e :: todo))
    (he : e.From foldCase L.strings u) :
    ∀ w ∈ L.strings, w.length ≤ u.length → Arena.Visited L.strings taken w :=
  fun _ hw hle => ht.isBreadthFirst.visited_of_length_le ht.length_le h.split he hw hle

omit ht in
/-- A child that has not been met is cut off here if it is when the list comes to it. -/
theorem isCut_eq (hnew : e.child ∉ v.visited) :
    (a.closeStart.closeDead.linkAll L.kind taken).isCut L.kind e = v.arena.isCut L.kind e := by
  rw [Arena.isCut, Arena.isCut, h.state, completed_of_notMem_due _ (h.notMem_due hnew)]

/-- A child that has not been met is the next in the list. -/
theorem meet (hpending : v.pending = e :: rest) (hnew : e.child ∉ v.visited) :
    ∃ todo', todo = e :: todo' ∧
      ({ v with pending := rest }.meet L.kind e).Follows L.kind a height noted
        (taken ++ [e]) todo' := by
  have htodo := h.todo
  have hfresh := fresh_of_not_seen L.kind hpending hnew
  cases todo with
  | nil => simp [hfresh] at htodo
  | cons e' todo' =>
      rw [hfresh, List.cons_append] at htodo
      obtain ⟨rfl, hrest⟩ := List.cons.inj htodo
      obtain ⟨u, he⟩ := h.exists_from ht (e := e') (by simp)
      have hshort := h.visited_of_length_le ht he
      have hqueued : ({ v with pending := rest }.meet L.kind e').queued = v.queued ++ [e'.child] :=
        (List.append_assoc ..).symm
      refine ⟨todo', rfl, ?_, ?_, ?_, ?_, ?_, fun s => ?_, ?_, ?_⟩
      · rw [List.append_assoc]
        exact h.split
      · rw [hqueued, ← List.cons_append, ← h.visited]
        rfl
      · rw [hqueued, List.map_append, ← h.queued]
        rfl
      · obtain ⟨finished, hfinished⟩ := h.due
        refine ⟨finished, ?_⟩
        rw [Visit.due] at hfinished ⊢
        rw [hqueued, Visit.meet, ← hfinished, List.append_assoc, List.append_assoc]
      · exact (Arena.size_linkEarly ..).trans h.size
      · rw [Arena.linkAll_concat]
        exact h.state_meet ht he hshort hnew s
      · have hqueue :
            ({ v with pending := rest }.meet L.kind e').queue = v.queue ++ [e'.child] := rfl
        rw [List.length_cons, List.map_cons] at hrest
        rw [hqueue, List.length_append, List.length_singleton, List.append_assoc,
          List.singleton_append, Nat.add_right_comm]
        exact hrest
      · rw [Arena.linkEvents_concat, h.isCut_eq hnew, ← List.append_assoc, ← h.events]
        rfl

/-- A step keeps to the list and brings the end nearer. -/
theorem step (hstep : v.step? L.kind = some v') :
    ∃ taken' todo', v'.Follows L.kind a height noted taken' todo' ∧
      v'.remaining todo' < v.remaining todo := by
  cases hpending : v.pending with
  | cons e rest =>
      simp only [step?, hpending] at hstep
      by_cases hseen : e.child ∈ v.visited
      · rw [if_pos hseen] at hstep
        cases hstep
        refine ⟨taken, todo, h.skip hpending hseen, ?_⟩
        rw [remaining, remaining, hpending, List.length_cons]
        exact Nat.lt_succ_self _
      · rw [if_neg hseen] at hstep
        cases hstep
        obtain ⟨todo', rfl, hmeet⟩ := h.meet ht hpending hseen
        refine ⟨taken ++ [e], todo', hmeet, ?_⟩
        rw [remaining, remaining, hpending]
        simp only [Visit.meet, List.length_append, List.length_cons, List.length_nil]
        omega
  | nil =>
      cases hparent : v.parent with
      | some s =>
          simp only [step?, hpending, hparent] at hstep
          cases hstep
          refine ⟨taken, todo, h.leave ht hparent, ?_⟩
          rw [remaining, remaining, hparent]
          simp only [Visit.leave, Option.toList_none, Option.toList_some, List.length_nil,
            List.length_singleton]
          omega
      | none =>
          cases hqueue : v.queue with
          | nil =>
              simp only [step?, hpending, hparent, hqueue] at hstep
              cases hstep
          | cons s queue =>
              simp only [step?, hpending, hparent, hqueue] at hstep
              cases hstep
              refine ⟨taken, todo, h.enter ht hpending hparent hqueue, ?_⟩
              have hle := v.arena.length_transitions_le s
              rw [remaining, remaining, hparent, hpending, hqueue]
              simp only [Visit.enter, Option.toList_none, Option.toList_some, List.length_nil,
                List.length_cons]
              omega

omit ht in
theorem eq_of_step?_eq_none (hstop : v.step? L.kind = none) :
    todo = [] ∧ v.due = [] ∧ v.queue = [] := by
  rw [step?] at hstop
  split at hstop
  · split at hstop
    · cases hstop
    · cases hstop
  · cases hstop
  · cases hstop
  · next hpending hparent hqueue =>
      refine ⟨?_, ?_, hqueue⟩
      · have htodo := h.todo
        rw [fresh, hpending, hqueue, List.filter_nil, Branch.firstToEach, List.map_nil,
          List.append_nil, Arena.unqueue_nil] at htodo
        exact htodo
      · rw [Visit.due, hparent, hqueue]
        rfl

/-- The search comes to an end, and then it has linked what the list links. -/
theorem exists_ended :
    ∃ n ≤ v.remaining todo, ∃ ended, v.after L.kind n = some ended ∧
      ended.step? L.kind = none ∧ ended.queue = [] ∧
        ended.Follows L.kind a height noted (a.breadthFirst height) [] ∧
          ended.arena = a.closeStart.closeDead.linkAll L.kind (a.breadthFirst height) := by
  induction hn : v.remaining todo using Nat.strong_induction_on generalizing v taken todo with
  | _ n ih =>
      cases hstep : v.step? L.kind with
      | none =>
          obtain ⟨rfl, hdue, hqueue⟩ := h.eq_of_step?_eq_none hstep
          have hsplit := h.split
          rw [List.append_nil] at hsplit
          refine ⟨0, Nat.zero_le _, v, rfl, hstep, hqueue, hsplit ▸ h, ?_⟩
          rw [← hsplit]
          exact h.arena_eq ht fun s => completed_of_notMem_due _ (hdue ▸ List.not_mem_nil)
      | some v' =>
          obtain ⟨taken', todo', h', hlt⟩ := h.step ht hstep
          obtain ⟨m, hm, ended, hafter, hended⟩ := ih _ (hn ▸ hlt) h' rfl
          refine ⟨m + 1, by omega, ended, ?_, hended⟩
          rw [Visit.after, hstep]
          exact hafter

theorem after {n : Nat} (hafter : v.after L.kind n = some v') :
    ∃ taken' todo', v'.Follows L.kind a height noted taken' todo' := by
  induction n generalizing v taken todo with
  | zero =>
      cases hafter
      exact ⟨taken, todo, h⟩
  | succ n ih =>
      rw [Visit.after] at hafter
      obtain ⟨v₁, hstep, hrest⟩ := Option.bind_eq_some_iff.1 hafter
      obtain ⟨taken', todo', h', -⟩ := h.step ht hstep
      exact ih h' hrest

/-- What the walk for a failure state comes to was met before, or it is the start or
the dead state, and it is not deeper than the parent. -/
theorem met_of_fallback {u : Bytes} {b : UInt8} {o : Option Bytes} (hne : u ≠ [])
    (hshort : ∀ w ∈ L.strings, w.length ≤ u.length → Arena.Visited L.strings taken w)
    (ho : ((L.fallback u).bind fun x => L.settle (x ++ [b])) = o) :
    (L.place o ∈ v.visited ∨ L.place o = .start ∨ L.place o = .dead) ∧
      (v.arena.state (L.place o)).depth ≤ u.length := by
  have hlinked := h.linked ht
  rw [← h.sameLinks.depth]
  cases o with
  | none =>
      refine ⟨Or.inr (Or.inr rfl), ?_⟩
      rw [Lexicon.place, hlinked.dead.1]
      exact Nat.zero_le _
  | some w =>
      obtain ⟨hle, hw⟩ := Lexicon.bind_settle_eq_some hne ho
      refine ⟨?_, ?_⟩
      · rcases hshort w hw hle with rfl | hmem
        · exact Or.inr (Or.inl (Strings.id_nil _))
        · refine Or.inl (h.mem_visited.2 (Or.inr ?_))
          rw [h.queued]
          exact hmem
      · rw [Lexicon.place, hlinked.depth w hw]
        exact hle

/-- The loop that looks for the failure state of a child ends, although it is
not bounded and the links are written in part only. -/
theorem call (hcall : v.Calls L.kind e) : ∃ looked target, v.Found e looked target := by
  obtain ⟨hhead, hnew, -, hparent⟩ := hcall
  obtain ⟨rest, hpending⟩ := List.head?_eq_some_iff.1 hhead
  obtain ⟨todo', rfl, -⟩ := h.meet ht hpending hnew
  obtain ⟨u, he⟩ := h.exists_from ht (e := e) (by simp)
  have hne : u ≠ [] := fun heq => hparent (he.parent_eq_start_iff.2 heq)
  have hlinked := h.linked ht
  have hshort := h.visited_of_length_le ht he
  have hdepth : (v.arena.state e.parent).depth = u.length := by
    rw [← h.sameLinks.depth, he.parent, hlinked.depth u he.parent_mem]
  have hchild : (v.arena.state e.child).depth = u.length + 1 := by
    rw [← h.sameLinks.depth, he.child, hlinked.depth _ he.child_mem, List.length_append,
      List.length_singleton]
  -- The walk of the list sees the same links, and its bound is enough.
  have hfound := hlinked.linkTarget?_failure he hne hshort
  rw [h.sameLinks.linkTarget?, h.sameLinks.failure, ← hdepth] at hfound
  obtain ⟨looked, hlooked, hfinds⟩ := Arena.exists_finds hfound
  obtain ⟨hmet, hshallow⟩ := h.met_of_fallback ht hne hshort rfl
  refine ⟨looked, _, hfinds, hlooked, ?_, hmet, ?_⟩
  · rw [Arena.linkTarget, hfound, Option.getD_some]
  · rw [hchild]
    exact Nat.lt_succ_of_le hshallow

end

end Follows

end Visit

namespace Automaton

/-- The links of an automaton can be written along a queue. The search comes to an
end; it puts every state but the start and the dead state into the queue once, in
the order of the branches, and leaves the arena of the automaton. At every moment the
states that have been met are the start state and those that were put into the queue,
none of them twice. Whenever the search looks for the failure state of a child, along
the links that are written so far, it looks at no more states than the depth of the
parent and one more, and it comes to a state that was met before, or to the start or
the dead state, and not as deep as the child. -/
theorem queue_visits_once (st : Settings) (patterns : List Bytes) :
    let t := Trie.ofPatterns st patterns
    let begun := Visit.initial t.looped t.events
    (∃ n ≤ 258 * (t.branches.length + 1), ∃ ended,
        begun.after st.kind n = some ended ∧ ended.step? st.kind = none ∧ ended.queue = [] ∧
        ended.queued.Nodup ∧
        (∀ s, s ∈ ended.queued ↔ s ≠ .start ∧ s ≠ .dead ∧ s.index < t.arena.size) ∧
        ended.queued = t.branches.map (·.child) ∧
        ended.arena.shutStart st.kind = (compile st patterns).arena) ∧
      (∀ n v, begun.after st.kind n = some v →
        v.queued.Nodup ∧ v.visited = .start :: v.queued) ∧
      ∀ n v e, begun.after st.kind n = some v → v.Calls st.kind e →
        ∃ looked target, v.Found e looked target := by
  intro t begun
  have ht := Trie.tree_ofWords st patterns
  have hbegun := Visit.Follows.initial ht t.events
  refine ⟨?_, fun n v hafter => ?_, fun n v e hafter hcall => ?_⟩
  · obtain ⟨n, hn, ended, hafter, hstop, hqueue, hended, harena⟩ := hbegun.exists_ended ht
    have hseeds : (t.looped.transitions .start).length ≤ 256 :=
      t.looped.length_transitions_le .start
    have hremaining : begun.remaining t.branches =
        258 * (0 + t.branches.length) + 0 + (t.looped.transitions .start).length := rfl
    have hbound : begun.remaining t.branches ≤ 258 * (t.branches.length + 1) := by omega
    refine ⟨n, hn.trans hbound, ended, hafter, hstop, hqueue, hended.queued_nodup ht, fun s => ?_,
      hended.queued, ?_⟩
    · rw [hended.queued]
      exact ht.mem_children
    · rw [harena]
      rfl
  · obtain ⟨taken, todo, h⟩ := hbegun.after ht hafter
    exact ⟨h.queued_nodup ht, h.visited⟩
  · obtain ⟨taken, todo, h⟩ := hbegun.after ht hafter
    exact h.call ht hcall

/-- The state of ab is linked to that of b, after all transitions of the start state
have been followed and the state of a has been taken out of the queue. -/
theorem queue_visits_once_ab :
    let t := Trie.ofPatterns ⟨.standard, false⟩ [[0x61, 0x62], [0x62]]
    let begun := Visit.initial t.looped t.events
    let e : Branch := ⟨⟨2⟩, 0x62, ⟨3⟩⟩
    ∃ v, begun.after .standard 257 = some v ∧ v.Calls .standard e ∧
      ∃ looked target, v.Found e looked target := by
  intro t begun e
  have hsome : ((begun.after .standard 257).filter fun v => v.Calls .standard e).isSome := by
    decide +kernel
  obtain ⟨v, hv⟩ := Option.isSome_iff_exists.1 hsome
  obtain ⟨hafter, hcall⟩ := Option.filter_eq_some_iff.1 hv
  have hcall := of_decide_eq_true hcall
  exact ⟨v, hafter, hcall,
    (queue_visits_once ⟨.standard, false⟩ [[0x61, 0x62], [0x62]]).2.2 257 v e hafter hcall⟩

end Automaton

end MultiPattern
