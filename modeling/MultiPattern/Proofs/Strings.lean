import MultiPattern.Proofs.Words
import MultiPattern.StateId

/-!
# The strings of a prefix tree

Every state of a prefix tree stands for a string, and no two for the same one.
`Strings` is the tree as nothing but these strings, in the order in which the
states were added: the empty one, which stands for the start state and is not
listed, and with every other the string without its last byte. The two places
that the start and the dead state take shift the names by two.

`add` is what adding one state does to the strings and `extend` what inserting
one pattern does. Both leave a string that is there already where it is, so the
names given out stay good, and membership comes down to prefixes.
-/

namespace MultiPattern

/-- The strings of the states of a prefix tree, in the order of their names. -/
structure Strings where
  list : List Bytes
  nodup : list.Nodup
  nil_notMem : [] ∉ list
  closed : ∀ w b, w ++ [b] ∈ list → w = [] ∨ w ∈ list

namespace Strings

instance : Membership Bytes Strings :=
  ⟨fun ss w => w = [] ∨ w ∈ ss.list⟩

instance (w : Bytes) (ss : Strings) : Decidable (w ∈ ss) :=
  inferInstanceAs (Decidable (w = [] ∨ w ∈ ss.list))

/-- The name of the state of a string. -/
def id (ss : Strings) (w : Bytes) : StateId :=
  if w = [] then .start else ⟨ss.list.idxOf w + 2⟩

/-- The name of the state of a string, if there is one. -/
def id? (ss : Strings) (w : Bytes) : Option StateId :=
  if w ∈ ss then some (ss.id w) else none

/-- The tree of the start state alone. -/
def empty : Strings :=
  ⟨[], List.nodup_nil, List.not_mem_nil, fun _ _ h => by cases h⟩

variable {ss : Strings} {u v w : Bytes} {b : UInt8}

theorem mem_def : w ∈ ss ↔ w = [] ∨ w ∈ ss.list :=
  Iff.rfl

@[simp] theorem nil_mem (ss : Strings) : [] ∈ ss :=
  Or.inl rfl

theorem mem_list_of_ne_nil (h : w ∈ ss) (hne : w ≠ []) : w ∈ ss.list :=
  h.resolve_left hne

@[simp] theorem id_nil (ss : Strings) : ss.id [] = .start :=
  rfl

theorem id_of_ne_nil (hne : w ≠ []) : ss.id w = ⟨ss.list.idxOf w + 2⟩ :=
  if_neg hne

theorem id?_of_mem (h : w ∈ ss) : ss.id? w = some (ss.id w) :=
  if_pos h

theorem id?_of_not_mem (h : w ∉ ss) : ss.id? w = none :=
  if_neg h

theorem id?_eq_some_iff {s : StateId} : ss.id? w = some s ↔ w ∈ ss ∧ ss.id w = s := by
  rw [id?]
  split
  · next h => simp [h]
  · next h => simp [h]

theorem id_inj (hu : u ∈ ss) : ss.id u = ss.id v ↔ u = v := by
  refine ⟨fun h => ?_, fun h => h ▸ rfl⟩
  by_cases hun : u = [] <;> by_cases hvn : v = []
  · rw [hun, hvn]
  · rw [hun, id_of_ne_nil hvn] at h
    exact absurd (congrArg StateId.index h) (by simp [StateId.start])
  · rw [hvn, id_of_ne_nil hun] at h
    exact absurd (congrArg StateId.index h) (by simp [StateId.start])
  · rw [id_of_ne_nil hun, id_of_ne_nil hvn, StateId.mk.injEq, Nat.add_right_cancel_iff] at h
    exact (List.idxOf_inj (mem_list_of_ne_nil hu hun)).1 h

theorem id_eq_start_iff : ss.id w = .start ↔ w = [] := by
  refine ⟨fun h => Classical.byContradiction fun hne => ?_, fun h => h ▸ rfl⟩
  rw [id_of_ne_nil hne] at h
  exact absurd (congrArg StateId.index h) (by simp [StateId.start])

theorem id_ne_dead (ss : Strings) (w : Bytes) : ss.id w ≠ .dead := by
  rw [id]
  split
  · decide
  · intro h
    exact absurd (congrArg StateId.index h) (by simp [StateId.dead])

theorem id_index_lt (h : w ∈ ss) : (ss.id w).index < ss.list.length + 2 := by
  by_cases hne : w = []
  · rw [hne, id_nil, StateId.start]
    exact Nat.succ_pos _
  · rw [id_of_ne_nil hne]
    exact Nat.add_lt_add_right (List.idxOf_lt_length_of_mem (mem_list_of_ne_nil h hne)) 2

/-- Every name is that of a string, or else that of the dead state. -/
theorem exists_id (ss : Strings) {s : StateId} (hs : s.index < ss.list.length + 2)
    (hne : s ≠ .dead) : ∃ w ∈ ss, ss.id w = s := by
  obtain ⟨i⟩ := s
  match i with
  | 0 => exact ⟨[], nil_mem ss, rfl⟩
  | 1 => exact absurd rfl hne
  | i + 2 =>
      have hi : i < ss.list.length := Nat.lt_of_add_lt_add_right hs
      have hmem : ss.list[i] ∈ ss.list := List.getElem_mem hi
      refine ⟨ss.list[i], Or.inr hmem, ?_⟩
      rw [id_of_ne_nil fun hnil => ss.nil_notMem (hnil ▸ hmem), ss.nodup.idxOf_getElem i hi]

/-- A tree holds the beginnings of its strings. -/
theorem mem_of_append (h : u ++ v ∈ ss) : u ∈ ss := by
  induction v using List.reverseRecOn with
  | nil => rwa [List.append_nil] at h
  | append_singleton v b ih =>
      refine ih ?_
      rw [← List.append_assoc] at h
      exact ss.closed _ b (mem_list_of_ne_nil h (by simp))

theorem mem_of_prefix (hp : u <+: w) (h : w ∈ ss) : u ∈ ss := by
  obtain ⟨v, rfl⟩ := hp
  exact mem_of_append h

/-! ## Adding a state -/

/-- The strings with that of a state below `w`, if `w` has one. -/
def add (ss : Strings) (w : Bytes) (b : UInt8) : Strings :=
  if h : w ∈ ss ∧ w ++ [b] ∉ ss then
    { list := ss.list ++ [w ++ [b]]
      nodup := by
        rw [List.nodup_append]
        refine ⟨ss.nodup, List.nodup_singleton _, fun u hu v hv heq => ?_⟩
        rw [List.mem_singleton] at hv
        subst heq hv
        exact h.2 (Or.inr hu)
      nil_notMem := by
        rw [List.mem_append, List.mem_singleton]
        intro hor
        rcases hor with hnil | hnil
        · exact ss.nil_notMem hnil
        · simp at hnil
      closed := by
        intro u c hu
        rw [List.mem_append, List.mem_singleton] at hu
        rcases hu with hu | hu
        · exact (ss.closed u c hu).imp_right (List.mem_append_left _)
        · rw [(List.append_inj' hu rfl).1]
          exact h.1.imp_right (List.mem_append_left _) }
  else ss

theorem add_of_mem (h : w ++ [b] ∈ ss) : ss.add w b = ss :=
  dif_neg fun h' => h'.2 h

theorem list_add (hw : w ∈ ss) (h : w ++ [b] ∉ ss) : (ss.add w b).list = ss.list ++ [w ++ [b]] := by
  rw [add, dif_pos ⟨hw, h⟩]

theorem mem_add (hw : w ∈ ss) : v ∈ ss.add w b ↔ v ∈ ss ∨ v = w ++ [b] := by
  by_cases h : w ++ [b] ∈ ss
  · rw [add_of_mem h]
    exact ⟨Or.inl, fun h' => h'.elim (fun h' => h') fun h' => h' ▸ h⟩
  · rw [mem_def, list_add hw h, List.mem_append, List.mem_singleton, ← or_assoc, mem_def]

/-- Adding a state renames none. -/
theorem id_add_of_mem (hv : v ∈ ss) : (ss.add w b).id v = ss.id v := by
  by_cases h : w ∈ ss ∧ w ++ [b] ∉ ss
  · by_cases hne : v = []
    · rw [hne, id_nil, id_nil]
    · rw [id_of_ne_nil hne, id_of_ne_nil hne, list_add h.1 h.2,
        List.idxOf_append_of_mem (mem_list_of_ne_nil hv hne)]
  · rw [add, dif_neg h]

/-- The state that was added has the next free name. -/
theorem id_add_self (hw : w ∈ ss) (h : w ++ [b] ∉ ss) :
    (ss.add w b).id (w ++ [b]) = ⟨ss.list.length + 2⟩ := by
  have hnot : w ++ [b] ∉ ss.list := fun hmem => h (Or.inr hmem)
  rw [id_of_ne_nil (by simp), list_add hw h, List.idxOf_append_of_notMem hnot, List.idxOf_cons_self]

theorem id?_add (hw : w ∈ ss) (h : w ++ [b] ∉ ss) :
    (ss.add w b).id? u = if u = w ++ [b] then some ⟨ss.list.length + 2⟩ else ss.id? u := by
  split
  · next hu =>
      subst hu
      rw [id?_of_mem ((mem_add hw).2 (Or.inr rfl)), id_add_self hw h]
  · next hne =>
      by_cases hu : u ∈ ss
      · rw [id?_of_mem ((mem_add hw).2 (Or.inl hu)), id?_of_mem hu, id_add_of_mem hu]
      · have hnot : u ∉ ss.add w b := fun hmem => ((mem_add hw).1 hmem).elim hu hne
        rw [id?_of_not_mem hnot, id?_of_not_mem hu]

/-! ## Inserting a pattern -/

/-- The strings with those of the states below `w` along the bytes of a
pattern. -/
def extend (ss : Strings) (w : Bytes) : Bytes → Strings
  | [] => ss
  | b :: rest => (ss.add w b).extend (w ++ [b]) rest

theorem mem_extend {rest : Bytes} (hw : w ∈ ss) :
    v ∈ ss.extend w rest ↔ v ∈ ss ∨ (w <+: v ∧ v <+: w ++ rest) := by
  induction rest generalizing ss w with
  | nil =>
      rw [extend, List.append_nil]
      refine ⟨Or.inl, fun h => h.elim (fun h => h) fun h => ?_⟩
      exact mem_of_prefix h.2 hw
  | cons b rest ih =>
      have hadd : w ++ [b] ∈ ss.add w b := (mem_add hw).2 (Or.inr rfl)
      have happ : w ++ b :: rest = w ++ [b] ++ rest := by simp
      rw [extend, ih hadd, mem_add hw, happ, or_assoc]
      refine ⟨?_, ?_⟩
      · intro h
        rcases h with hv | rfl | ⟨hv, hrest⟩
        · exact Or.inl hv
        · exact Or.inr ⟨List.prefix_append _ _, List.prefix_append _ _⟩
        · exact Or.inr ⟨(List.prefix_append _ _).trans hv, hrest⟩
      · intro h
        rcases h with hv | ⟨⟨t, rfl⟩, hrest⟩
        · exact Or.inl hv
        · cases t with
          | nil => exact Or.inl (by rwa [List.append_nil])
          | cons c t =>
              have hc := hrest
              rw [← happ, List.prefix_append_right_inj, List.cons_prefix_cons] at hc
              rw [hc.1] at hrest ⊢
              exact Or.inr (Or.inr ⟨⟨t, by simp⟩, hrest⟩)

theorem mem_extend_nil : v ∈ ss.extend [] w ↔ v ∈ ss ∨ v <+: w := by
  rw [mem_extend (nil_mem ss), List.nil_append, and_iff_right List.nil_prefix]

/-- The strings of the tree of a list of patterns. -/
def ofWords (kind : MatchKind) (words : List Bytes) : Strings :=
  (kept kind words).foldl (fun ss w => ss.extend [] w) empty

theorem ofWords_concat {kind : MatchKind} {words : List Bytes} :
    ofWords kind (words ++ [v]) =
      if GivenUp kind words v then ofWords kind words
      else (ofWords kind words).extend [] v := by
  rw [ofWords, kept_concat, List.foldl_append]
  split <;> rfl

theorem mem_foldl_extend {ws : List Bytes} :
    v ∈ ws.foldl (fun ss w => ss.extend [] w) ss ↔ v ∈ ss ∨ ∃ w ∈ ws, v <+: w := by
  induction ws generalizing ss with
  | nil => simp
  | cons w ws ih =>
      rw [List.foldl_cons, ih, mem_extend_nil, or_assoc]
      simp only [List.mem_cons, exists_eq_or_imp]

/-- The tree has the strings that registered patterns begin with. -/
theorem mem_ofWords {kind : MatchKind} {words : List Bytes} :
    w ∈ ofWords kind words ↔ InTree kind words w := by
  have hempty : w ∈ empty ↔ w = [] := or_iff_left List.not_mem_nil
  rw [ofWords, mem_foldl_extend, hempty, InTree]
  refine or_congr_right ⟨?_, ?_⟩
  · intro h
    obtain ⟨u, hu, hw⟩ := h
    obtain ⟨p, hp⟩ := mem_kept.1 hu
    exact ⟨p, u, hp, hw⟩
  · intro h
    obtain ⟨p, u, hp, hw⟩ := h
    exact ⟨u, mem_kept.2 ⟨p, hp⟩, hw⟩

end Strings

end MultiPattern
