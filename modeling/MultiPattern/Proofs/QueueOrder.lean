import MultiPattern.Proofs.Levels

/-!
# Breadth-first order from a queue

A queue gives the same order as levels do: the states of a level are taken out
one after the other, while those of the next are lined up behind them. `unqueue`
is the order that the queue gives, with nothing else said about the states.

Of several branches to one child a visit follows the first, and none to a child
that was met before. Which is the first does not depend on what is left out
(`firstToEach_filter`), so it does not matter when a child that was met is passed
over.
-/

namespace MultiPattern

namespace Branch

theorem firstToEach_filter (p : StateId → Bool) (es : List Branch) :
    firstToEach (es.filter fun e => p e.child) = (firstToEach es).filter fun e => p e.child := by
  induction es with
  | nil => rfl
  | cons e es ih =>
      by_cases hp : p e.child = true
      · rw [List.filter_cons, if_pos hp, firstToEach, firstToEach, List.filter_cons, if_pos hp, ih,
          List.filter_filter, List.filter_filter]
        simp only [Bool.and_comm]
      · rw [List.filter_cons, if_neg hp, firstToEach, List.filter_cons, if_neg hp, ih,
          List.filter_filter]
        refine List.filter_congr fun x _ => ?_
        by_cases hx : x.child = e.child
        · simp [hx, hp]
        · simp [hx]

end Branch

namespace Arena

variable {a a' : Arena} {foldCase : Bool} {ss : Strings} {outs : Bytes → List PatternId}
  {s : StateId} {k : Nat} {level : List StateId}

/-- The transitions of a state, in byte order. -/
def transitions (a : Arena) (s : StateId) : List Branch :=
  (a.state s).edges.map fun x => ⟨s, x.1, x.2⟩

theorem branches_eq (a : Arena) (s : StateId) :
    a.branches s = Branch.firstToEach (a.transitions s) :=
  rfl

theorem transitions_eq (a : Arena) (s : StateId) :
    a.transitions s = Byte.all.filterMap fun b => (a.next s b).map fun t => ⟨s, b, t⟩ := by
  rw [transitions, State.edges, ByteTable.entries_eq_map, List.filterMap_map, List.map_filterMap]
  simp only [Function.comp_def, Option.map_map]
  rfl

theorem transitions_congr (h : ∀ b, a.next s b = a'.next s b) :
    a.transitions s = a'.transitions s := by
  simp only [transitions_eq, h]

theorem length_transitions_le (a : Arena) (s : StateId) : (a.transitions s).length ≤ 256 := by
  rw [transitions_eq]
  refine (List.length_filterMap_le _ _).trans ?_
  rw [Byte.all, List.length_map, List.length_range]

/-- The branches that are met when `n` states are taken from a queue and their
children are put into it. -/
def unqueue (a : Arena) : Nat → List StateId → List Branch
  | 0, _ => []
  | _ + 1, [] => []
  | n + 1, s :: queue => a.branches s ++ a.unqueue n (queue ++ (a.branches s).map (·.child))

theorem unqueue_nil (a : Arena) (n : Nat) : a.unqueue n [] = [] := by
  cases n with
  | zero => rfl
  | succ n => rfl

theorem unqueue_append (a : Arena) (level : List StateId) (n : Nat) (queue : List StateId) :
    a.unqueue (level.length + n) (level ++ queue) =
      level.flatMap a.branches ++
        a.unqueue n (queue ++ (level.flatMap a.branches).map (·.child)) := by
  induction level generalizing queue with
  | nil => simp
  | cons s level ih =>
      have hlen : (s :: level).length + n = level.length + n + 1 := by
        rw [List.length_cons, Nat.add_right_comm]
      rw [hlen, List.cons_append, unqueue, List.append_assoc, ih]
      simp

/-- If there are as many levels as the tree is high, they are what the queue
comes to. -/
theorem unqueue_levels (h : a.Spells foldCase ss outs) (hcanon : Canonical foldCase ss)
    (height : Nat) (hl : IsLevel ss k level) (hheight : ∀ w ∈ ss, w.length ≤ k + height) :
    a.unqueue (level.length + (a.levels height level).length) level = a.levels height level := by
  induction height generalizing k level with
  | zero =>
      have hnone : level.flatMap a.branches = [] := by
        refine List.flatMap_eq_nil_iff.2 fun s hs => List.eq_nil_iff_forall_not_mem.2 fun e he => ?_
        obtain ⟨u, hu, hlen, rfl⟩ := (hl.mem_iff s).1 hs
        have hle := hheight _ (from_of_mem_branches h hu he).child_mem
        rw [List.length_append, List.length_singleton] at hle
        omega
      have hqueue := unqueue_append a level 0 []
      rw [List.append_nil, hnone] at hqueue
      exact hqueue
  | succ height ih =>
      have hlevel := isLevel_below h hcanon hl
      have hrest := ih hlevel fun w hw => by
        have := hheight w hw
        omega
      have hqueue := unqueue_append a level (a.levels (height + 1) level).length []
      rw [List.append_nil, List.nil_append] at hqueue
      rw [hqueue, levels, List.length_append]
      rw [List.length_map] at hrest
      rw [hrest]

end Arena

end MultiPattern
