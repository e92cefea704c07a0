import MultiPattern.Proofs.Legible
import MultiPattern.Proofs.Paths

/-!
# A drawing tells all about an automaton

A drawing leaves out the loops of the start and the dead state and the failure
links to the start state, joins the transitions with one target into one arrow
and only counts its bytes if there are many. Of the automaton for a list of
patterns nothing is lost by that.

Down the tree an arrow has at most two bytes, the cases of one letter, and so
lists them. Every other transition is the loop of a state: the dead state has
one, other states below the start have none, and where the start state's own
loop leads is told by whether an arrow goes from it to the dead state. A failure
link that is not drawn leads to the start state. The depth of a state is the
length of its paths, which are read off the transitions.

The text is up to a printer. No label of an automaton goes over the end of a line, and
all printers write the other characters alike, so it is enough to read one of them.
-/

namespace MultiPattern

theorem State.nodup_edges (s : State) : (s.edges.map Prod.fst).Nodup := by
  have hall : Byte.all.Nodup := Byte.pairwise_all.imp fun hlt heq => by simp [heq] at hlt
  rw [edges, List.map_filterMap, ByteTable.entries_eq_map, List.filterMap_map]
  refine hall.filterMap fun b c d hb hc => ?_
  simp only [Function.comp_apply, Option.map_map, Option.mem_def, Option.map_eq_some_iff] at hb hc
  grind

namespace Arena

theorem mem_ids {a : Arena} {s : StateId} : s ∈ a.ids ↔ s.index < a.size := by
  simp [ids, StateId.ext_iff]

theorem Path.congr {a a' : Arena} {w : Bytes} {s : StateId} (h : a.Path w s)
    (hnext : ∀ s b, a.next s b = a'.next s b) : a'.Path w s := by
  induction h with
  | nil => exact .nil
  | snoc _ hstep hstart hdead ih => exact .snoc ih (hnext _ _ ▸ hstep) hstart hdead

namespace Compiled

variable {a : Arena} {foldCase : Bool} {L : Lexicon} {w : Bytes} {b c : UInt8} {s t : StateId}

/-- Down the tree only the cases of one letter lead to the same state. -/
theorem canonical_eq_of_next (h : a.Compiled foldCase L) (hb : a.next s b = some t)
    (hc : a.next s c = some t) (hstart : t ≠ .start) (hdead : t ≠ .dead) :
    Byte.canonical foldCase b = Byte.canonical foldCase c := by
  obtain ⟨w, -, hmem, hw⟩ := h.exists_of_next hb hstart hdead
  obtain ⟨u, -, -, hu⟩ := h.exists_of_next hc hstart hdead
  have heq := (Strings.id_inj hmem).1 (hw.trans hu.symm)
  simpa using (List.append_inj' heq rfl).2

/-- A transition that does not go down the tree is a loop. -/
theorem next_eq_loop (h : a.Compiled foldCase L)
    (hout : ∀ t, a.next s b = some t → t = .start ∨ t = .dead) :
    a.next s b = if s = .dead then some .dead
      else if s = .start then some (if L.Shut then .dead else .start) else none := by
  rcases h.state_cases s with ⟨w, hw, rfl⟩ | rfl | ⟨hs, hfresh⟩
  · have hmem : w ++ [Byte.canonical foldCase b] ∉ L.strings := by
      intro hmem
      rcases hout _ (h.next_of_mem hmem) with ht | ht
      · simp [Strings.id_eq_start_iff] at ht
      · exact Strings.id_ne_dead _ _ ht
    rw [h.next_eq hw, if_neg hmem, if_neg (Strings.id_ne_dead _ _), Lexicon.loop]
    simp only [Strings.id_eq_start_iff]
  · rw [h.next_dead, if_pos rfl]
  · have hsize := h.size
    have hdead : s ≠ .dead := by
      rintro rfl
      simp [StateId.dead] at hs
      omega
    have hstart : s ≠ .start := by
      rintro rfl
      simp [StateId.start] at hs
      omega
    rw [if_neg hdead, if_neg hstart, Arena.next, hfresh, State.fresh_next_get]

theorem depth_of_path {st : Settings} (h : a.Compiled st.foldCase L) (hp : a.Path w s) :
    (a.state s).depth = w.length := by
  obtain ⟨hw, rfl⟩ := h.path_iff.1 hp
  rw [h.depth _ hw, Settings.length_canon]

end Compiled

end Arena

namespace Automaton

variable {a a' : Automaton} {s t : StateId} {b : UInt8}

/-! ## What a drawing shows -/

theorem mem_bytesTo_shownEdges :
    b ∈ bytesTo (a.shownEdges s) t ↔ a.arena.next s b = some t ∧ (loops s → t ≠ s) := by
  simp only [bytesTo, shownEdges, List.mem_map, List.mem_filter, Prod.exists, State.mem_edges,
    Arena.next]
  grind

theorem nodup_bytesTo_shownEdges : (bytesTo (a.shownEdges s) t).Nodup :=
  (State.nodup_edges _).sublist ((List.filter_sublist.trans List.filter_sublist).map _)

theorem bytesTo_ne_nil_iff {edges : List (UInt8 × StateId)} :
    bytesTo edges t ≠ [] ↔ edges.any (·.2 = t) := by
  simp [bytesTo]

theorem mem_edgeArrows {i : Nat} {label : String} :
    (⟨i, t.index, label⟩ : Arrow) ∈ a.edgeArrows s ↔ s.index = i ∧ t.index < a.arena.size ∧
      bytesTo (a.shownEdges s) t ≠ [] ∧ label = bytesLabel (bytesTo (a.shownEdges s) t) := by
  simp only [edgeArrows, List.mem_map, List.mem_filter, Arena.mem_ids, ← bytesTo_ne_nil_iff,
    Arrow.mk.injEq, ← StateId.ext_iff]
  grind

theorem mem_failureArrow {i : Nat} {label : String} :
    (⟨i, t.index, label⟩ : Arrow) ∈ a.failureArrow s ↔ s.index = i ∧ s ≠ .start ∧ t ≠ .start ∧
      (a.arena.state s).failure = t ∧ label = "FAIL" := by
  simp only [failureArrow]
  split <;> simp [← StateId.ext_iff] <;> grind

theorem mem_arrows {label : String} :
    (⟨s.index, t.index, label⟩ : Arrow) ∈ a.diagram.arrows ↔ s.index < a.arena.size ∧
      ((t.index < a.arena.size ∧ bytesTo (a.shownEdges s) t ≠ [] ∧
          label = bytesLabel (bytesTo (a.shownEdges s) t)) ∨
        (s ≠ .start ∧ t ≠ .start ∧ (a.arena.state s).failure = t ∧ label = "FAIL")) := by
  simp only [diagram, List.mem_flatMap, List.mem_append, Arena.mem_ids, mem_edgeArrows,
    mem_failureArrow, ← StateId.ext_iff]
  grind

/-! ## Reading a drawing -/

section

variable {foldCase foldCase' : Bool} {L L' : Lexicon}

/-- An arrow down the tree lists its bytes. -/
theorem length_bytesTo_le (h : a.arena.Compiled foldCase L) (hstart : t ≠ .start)
    (hdead : t ≠ .dead) : (bytesTo (a.shownEdges s) t).length ≤ maxListed := by
  cases hbytes : bytesTo (a.shownEdges s) t with
  | nil => exact Nat.zero_le _
  | cons b rest =>
      have hnext : ∀ c ∈ b :: rest, a.arena.next s c = some t := fun c hc =>
        (mem_bytesTo_shownEdges.1 (hbytes ▸ hc)).1
      have hsubset : b :: rest ⊆ [b, Byte.swapCase b] := by
        intro c hc
        have heq := h.canonical_eq_of_next (hnext b List.mem_cons_self) (hnext c hc) hstart hdead
        rcases Byte.canonical_eq_canonical_iff.1 heq with rfl | ⟨-, rfl⟩ <;> simp
      have hnodup : (b :: rest).Nodup := hbytes ▸ nodup_bytesTo_shownEdges
      exact (hnodup.length_le_of_subset hsubset).trans (by simp [maxListed])

theorem size_eq_of_diagram_eq (hd : a.diagram = a'.diagram) : a.arena.size = a'.arena.size := by
  simpa [diagram, Arena.ids] using congrArg (·.nodes.length) hd

theorem outputs_eq_of_diagram_eq (hd : a.diagram = a'.diagram) (hs : s.index < a.arena.size) :
    (a.arena.state s).outputs = (a'.arena.state s).outputs := by
  have hids : a'.arena.ids = a.arena.ids := by
    rw [Arena.ids, Arena.ids, size_eq_of_diagram_eq hd]
  have hnodes : a.arena.ids.map a.nodeLabel = a.arena.ids.map a'.nodeLabel := by
    have heq := congrArg (·.nodes) hd
    rwa [diagram, diagram, hids] at heq
  exact outputs_eq_of_nodeLabel_eq (List.map_inj_left.1 hnodes s (Arena.mem_ids.2 hs))

/-- An arrow for bytes is one for bytes in any automaton that is drawn alike. -/
theorem bytesTo_of_diagram_eq (hd : a.diagram = a'.diagram)
    (hne : bytesTo (a.shownEdges s) t ≠ []) (hs : s.index < a.arena.size)
    (ht : t.index < a.arena.size) :
    bytesTo (a'.shownEdges s) t ≠ [] ∧
      bytesLabel (bytesTo (a.shownEdges s) t) = bytesLabel (bytesTo (a'.shownEdges s) t) := by
  have harrow : (⟨s.index, t.index, bytesLabel (bytesTo (a.shownEdges s) t)⟩ : Arrow) ∈
      a.diagram.arrows := mem_arrows.2 ⟨hs, Or.inl ⟨ht, hne, rfl⟩⟩
  rw [hd] at harrow
  rcases (mem_arrows.1 harrow).2 with ⟨-, hne', hlabel⟩ | ⟨-, -, -, hlabel⟩
  · exact ⟨hne', hlabel⟩
  · exact absurd hlabel (bytesLabel_ne_fail hne)

theorem failure_of_diagram_eq (hd : a.diagram = a'.diagram) (hs : s.index < a.arena.size)
    (hstart : s ≠ .start) (ht : (a.arena.state s).failure ≠ .start) :
    (a'.arena.state s).failure = (a.arena.state s).failure := by
  have harrow : (⟨s.index, (a.arena.state s).failure.index, "FAIL"⟩ : Arrow) ∈
      a.diagram.arrows := mem_arrows.2 ⟨hs, Or.inr ⟨hstart, ht, rfl, rfl⟩⟩
  rw [hd] at harrow
  rcases (mem_arrows.1 harrow).2 with ⟨-, hne, hlabel⟩ | ⟨-, -, hfailure, -⟩
  · exact absurd hlabel.symm (bytesLabel_ne_fail hne)
  · exact hfailure

theorem failure_eq_of_diagram_eq (hd : a.diagram = a'.diagram) (hs : s.index < a.arena.size)
    (hstart : s ≠ .start) : (a.arena.state s).failure = (a'.arena.state s).failure := by
  by_cases ht : (a.arena.state s).failure = .start
  · by_cases ht' : (a'.arena.state s).failure = .start
    · rw [ht, ht']
    · exact failure_of_diagram_eq hd.symm (size_eq_of_diagram_eq hd ▸ hs) hstart ht'
  · exact (failure_of_diagram_eq hd hs hstart ht).symm

/-- Transitions down the tree are shown byte by byte. -/
theorem next_of_diagram_eq (h : a.arena.Compiled foldCase L)
    (h' : a'.arena.Compiled foldCase' L') (hd : a.diagram = a'.diagram)
    (hnext : a.arena.next s b = some t) (hstart : t ≠ .start) (hdead : t ≠ .dead) :
    a'.arena.next s b = some t := by
  have hmem : b ∈ bytesTo (a.shownEdges s) t := by
    refine mem_bytesTo_shownEdges.2 ⟨hnext, ?_⟩
    rintro hloops rfl
    simp [loops, hstart, hdead] at hloops
  obtain ⟨w, rfl, htree, rfl⟩ := h.exists_of_next hnext hstart hdead
  obtain ⟨hne, hlabel⟩ := bytesTo_of_diagram_eq hd (List.ne_nil_of_mem hmem)
    (h.size ▸ Strings.id_index_lt (Strings.mem_of_append htree))
    (h.size ▸ Strings.id_index_lt htree)
  rw [bytesLabel_inj (List.ne_nil_of_mem hmem) hne (length_bytesTo_le h hstart hdead)
    (length_bytesTo_le h' hstart hdead) hlabel] at hmem
  exact (mem_bytesTo_shownEdges.1 hmem).1

/-- Of the loop of the start state it is shown whether it leads to the dead state. -/
theorem next_start_of_diagram_eq (h : a.arena.Compiled foldCase L)
    (h' : a'.arena.Compiled foldCase' L') (hd : a.diagram = a'.diagram)
    (hnext : a.arena.next .start b = some .dead)
    (hout : ∀ t, a'.arena.next .start b = some t → t = .start ∨ t = .dead) :
    a'.arena.next .start b = some .dead := by
  have hmem : b ∈ bytesTo (a.shownEdges .start) .dead :=
    mem_bytesTo_shownEdges.2 ⟨hnext, fun _ => by decide⟩
  have hsize := h.size
  obtain ⟨hne, -⟩ := bytesTo_of_diagram_eq hd (List.ne_nil_of_mem hmem)
    (by simp [StateId.start]; omega) (by simp [StateId.dead]; omega)
  obtain ⟨c, hc⟩ := List.exists_mem_of_ne_nil _ hne
  have hdead := (mem_bytesTo_shownEdges.1 hc).1
  have hout' : ∀ t, a'.arena.next .start c = some t → t = .start ∨ t = .dead := fun t ht =>
    Or.inr (Option.some_inj.1 (ht.symm.trans hdead))
  exact (h'.next_eq_loop hout).trans ((h'.next_eq_loop hout').symm.trans hdead)

theorem next_eq_some_of_diagram_eq (h : a.arena.Compiled foldCase L)
    (h' : a'.arena.Compiled foldCase' L') (hd : a.diagram = a'.diagram)
    (hnext : a.arena.next s b = some t) : a'.arena.next s b = some t := by
  by_cases hin : t ≠ .start ∧ t ≠ .dead
  · exact next_of_diagram_eq h h' hd hnext hin.1 hin.2
  -- Neither transition goes down the tree, so both are the loop of one state.
  have hout : ∀ u, a.arena.next s b = some u → u = .start ∨ u = .dead := by grind
  have hout' : ∀ u, a'.arena.next s b = some u → u = .start ∨ u = .dead := by
    intro u hu
    by_contra hcon
    obtain ⟨hu_start, hu_dead⟩ := not_or.1 hcon
    exact hcon (hout u (next_of_diagram_eq h' h hd.symm hu hu_start hu_dead))
  by_cases hdead : s = .dead
  · rw [← hnext, h.next_eq_loop hout, h'.next_eq_loop hout', if_pos hdead, if_pos hdead]
  by_cases hstart : s = .start
  · subst hstart
    rcases hout t hnext with rfl | rfl
    · have hloop := h'.next_eq_loop hout'
      rw [if_neg hdead, if_pos rfl] at hloop
      split at hloop
      · have hshut := next_start_of_diagram_eq h' h hd.symm hloop hout
        rw [hnext] at hshut
        cases hshut
      · exact hloop
    · exact next_start_of_diagram_eq h h' hd hnext hout'
  · rw [h.next_eq_loop hout, if_neg hdead, if_neg hstart] at hnext
    cases hnext

end

theorem diagram_congr (h : a.arena = a'.arena) : a.diagram = a'.diagram := by
  cases a
  cases a'
  subst h
  rfl

theorem failure_start (st : Settings) (patterns : List Bytes) :
    ((compile st patterns).arena.state .start).failure = .start := by
  rw [failure_eq_place .nil]
  rfl

theorem depth_eq_of_next_eq {st st' : Settings} {patterns patterns' : List Bytes}
    (hnext : ∀ s b, (compile st patterns).arena.next s b = (compile st' patterns').arena.next s b)
    (hs : s.index < (compile st patterns).arena.size) :
    ((compile st patterns).arena.state s).depth =
      ((compile st' patterns').arena.state s).depth := by
  have h := Trie.compiled_ofPatterns st patterns
  have h' := Trie.compiled_ofPatterns st' patterns'
  by_cases hdead : s = .dead
  · rw [hdead]
    exact h.dead.1.trans h'.dead.1.symm
  by_cases hstart : s = .start
  · rw [hstart]
    exact (h.depth_of_path .nil).trans (h'.depth_of_path .nil).symm
  · obtain ⟨w, hw, -⟩ := exists_path hs hstart hdead
    exact (h.depth_of_path hw).trans (h'.depth_of_path (hw.congr hnext)).symm

/-- Automata that were compiled, from whatever patterns and by whatever rule, are
drawn as the same text only if they have the same states: as many, each with the
same transitions, reports, failure link and depth. This is so with every printer that
writes a diagram line by line and its labels without loss. -/
theorem drawing_eq_iff {escape : Char → List Char} {print : Diagram → String}
    (hprint : Diagram.Prints escape print) (st st' : Settings) (patterns patterns' : List Bytes) :
    (compile st patterns).drawnBy print = (compile st' patterns').drawnBy print ↔
      (compile st patterns).arena = (compile st' patterns').arena := by
  refine ⟨fun htext => ?_, fun harena => congrArg print (diagram_congr harena)⟩
  rw [drawnBy, drawnBy, hprint.eq_render (oneLine_diagram _), hprint.eq_render (oneLine_diagram _)]
    at htext
  have hd := Diagram.render_injective htext
  have h := Trie.compiled_ofPatterns st patterns
  have h' := Trie.compiled_ofPatterns st' patterns'
  have hnext : ∀ s b, (compile st patterns).arena.next s b =
      (compile st' patterns').arena.next s b := fun s b => Option.ext fun t =>
    ⟨next_eq_some_of_diagram_eq h h' hd, next_eq_some_of_diagram_eq h' h hd.symm⟩
  refine Arena.ext_state (size_eq_of_diagram_eq hd) fun s hs => State.ext
    (ByteTable.ext_get (hnext s)) (outputs_eq_of_diagram_eq hd hs) ?_ (depth_eq_of_next_eq hnext hs)
  by_cases hstart : s = .start
  · rw [hstart, failure_start, failure_start]
  · exact failure_eq_of_diagram_eq hd hs hstart

/-- `Diagram.render` is such a printer, and it tells the automaton of a quotation mark
from that of a backslash. -/
theorem drawing_eq_iff_render :
    Diagram.Prints Diagram.labelChar Diagram.render ∧
      (compile {} [[0x22]]).drawnBy Diagram.render ≠
        (compile {} [[0x5c]]).drawnBy Diagram.render := by
  refine ⟨Diagram.prints_render, fun h => ?_⟩
  have harena := (drawing_eq_iff Diagram.prints_render {} {} [[0x22]] [[0x5c]]).1 h
  have hnext : (compile {} [[0x22]]).arena.next .start 0x22 ≠
      (compile {} [[0x5c]]).arena.next .start 0x22 := by decide +kernel
  exact hnext (congrArg (fun a : Arena => a.next .start 0x22) harena)

end Automaton

end MultiPattern
