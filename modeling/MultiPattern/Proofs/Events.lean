import MultiPattern.Proofs.Letters
import MultiPattern.Proofs.PrefixTree
import MultiPattern.Proofs.Queue
import MultiPattern.Proofs.VisitingOrder

/-!
# What is noted while patterns are compiled

The notes are in three parts. Patterns are given up in the order in which they are
inserted, each where the shortest earlier pattern ends that it begins with. Under a
leftmost rule the states of registered patterns are cut off, in the order in which
states are visited; a state below one of them comes to the dead state too, but over
the link of another, and is not noted. The summary counts what the automaton is made
of.

Whether a child is cut off is asked of an arena that is linked half way, but links
change nothing about it before the child has its own. So the cuts are a selection
from the visited strings (`Trie.exists_cuts`), and these come in a known order. The
search along a queue takes its notes itself, and ends with the same.
-/

namespace MultiPattern

/-- The children that are cut off are those whose strings are committed to, in the
order of visiting. -/
theorem Arena.Tree.linkEvents_eq {a : Arena} {foldCase : Bool} {L : Lexicon} {height : Nat}
    {visited : List Bytes} (ht : a.Tree foldCase L.strings L.outputs height)
    (hmap : (a.breadthFirst height).map (·.child) = visited.map L.strings.id)
    (hvisited : ∀ w ∈ visited, w ≠ [] ∧ w ∈ L.strings) :
    a.closeStart.closeDead.linkEvents L.kind (a.breadthFirst height) =
      (visited.filter fun w => L.Commits w).map fun w => .cut (L.strings.id w) := by
  have hlinked := ht.spells.linked
  -- Whether a branch is cut depends on its child alone.
  let stops : StateId → Bool := fun s =>
    L.kind.isLeftmost && (a.closeStart.closeDead.state s).isMatch
  have hstops : ∀ w ∈ visited, (stops ∘ L.strings.id) w = decide (L.Commits w) := by
    intro w hw
    obtain ⟨hne, hmem⟩ := hvisited w hw
    obtain ⟨-, houtputs⟩ := hlinked.pending w hmem (by simpa [Visited] using hne)
    rw [Bool.eq_iff_iff]
    simp [stops, Lexicon.Commits, State.isMatch, houtputs, hne]
  calc a.closeStart.closeDead.linkEvents L.kind (a.breadthFirst height)
    _ = ((a.breadthFirst height).filter (a.closeStart.closeDead.isCut L.kind)).map
          fun e => .cut e.child :=
      Linked.linkEvents_eq ht.isBreadthFirst ht.length_le (List.nil_append _) hlinked
    _ = (((a.breadthFirst height).map (·.child)).filter stops).map .cut := by
      rw [List.filter_map, List.map_map]
      rfl
    _ = (visited.filter (stops ∘ L.strings.id)).map fun w => .cut (L.strings.id w) := by
      rw [hmap, List.filter_map, List.map_map]
      rfl
    _ = _ := by rw [List.filter_congr hstops]

namespace Trie

/-- The states that are cut off are those of registered patterns, in the order of
visiting. -/
theorem exists_cuts (st : Settings) (patterns : List Bytes) :
    ∃ cut : List Bytes,
      (ofPatterns st patterns).looped.linkEvents st.kind (ofPatterns st patterns).branches =
          cut.map (fun w => .cut ((Strings.ofWords st.kind (patterns.map st.canon)).id w)) ∧
        cut.Pairwise (VisitedBefore st.foldCase) ∧
          ∀ w, w ∈ cut ↔ st.kind.isLeftmost = true ∧ w ≠ [] ∧
            ∃ p, Registered st.kind (patterns.map st.canon) p w := by
  obtain ⟨visited, hmap, hsorted, hvisited⟩ := exists_visited st patterns
  refine ⟨_, (tree_ofWords st patterns).linkEvents_eq hmap fun w => (hvisited w).1,
    hsorted.filter _, fun w => ?_⟩
  rw [List.mem_filter, hvisited, decide_eq_true_iff]
  refine ⟨fun h => ?_, fun h => ?_⟩
  · obtain ⟨-, hk, hne, hout⟩ := h
    obtain ⟨p, hp⟩ := List.exists_mem_of_ne_nil _ hout
    exact ⟨hk, hne, p, mem_registeredAs.1 hp⟩
  · obtain ⟨hk, hne, p, hp⟩ := h
    exact ⟨⟨hne, Strings.mem_ofWords.2 (Or.inr ⟨p, w, hp, List.prefix_rfl⟩)⟩,
      hk, hne, List.ne_nil_of_mem (mem_registeredAs.2 hp)⟩

end Trie

namespace Automaton

theorem summary_compile (st : Settings) (patterns : List Bytes) :
    (compile st patterns).summary (Trie.ofPatterns st patterns).prunedCount =
      { patterns := patterns.length
        pruned := (prunings st.kind (patterns.map st.canon)).length
        states := 2 + (firstMet (kept st.kind (patterns.map st.canon))).length
        alphabet :=
          (Alphabet.letters st.foldCase (kept st.kind (patterns.map st.canon)).flatten).length
        settings := st } := by
  have hsize : (compile st patterns).arena.size =
      2 + (firstMet (kept st.kind (patterns.map st.canon))).length := by
    rw [(of_compile st patterns).compiled.size, Nat.add_comm]
    exact congrArg (fun ss => 2 + ss.length) (Strings.list_ofWords ..)
  have halphabet : (compile st patterns).alphabet.size =
      (Alphabet.letters st.foldCase (kept st.kind (patterns.map st.canon)).flatten).length := by
    rw [Alphabet.size, ← Alphabet.bytes_ofBytes, ← Trie.alphabet_ofPatterns]
    rfl
  rw [summary, patternCount_compile, hsize, halphabet, (Trie.events_ofPatterns st patterns).2]
  rfl

/-- What is noted: the patterns that are given up, each with the length of the
shortest earlier pattern that is a proper prefix of it; then under a leftmost rule
the state of every string that a registered pattern is, the empty one apart,
ordered by length and then by bytes; last the numbers of patterns, of patterns
given up, of states and of letters. The search along a queue that goes on from the
notes of the prefix tree ends with all of them but the summary of the automaton. -/
theorem compileEvents_eq (st : Settings) (patterns : List Bytes) :
    let words := patterns.map st.canon
    let t := Trie.ofPatterns st patterns
    let a := compile st patterns
    (∃ cut : List (Bytes × StateId),
      cut.Pairwise (fun x y => VisitedBefore st.foldCase x.1 y.1) ∧
        (∀ w, w ∈ cut.map (·.1) ↔
          st.kind.isLeftmost = true ∧ w ≠ [] ∧ ∃ p, Registered st.kind words p w) ∧
        (∀ x ∈ cut, a.arena.Path x.1 x.2) ∧
        compileEvents st patterns =
          (prunings st.kind words).map (fun e => .pruned e.pattern e.depth) ++
            cut.map (fun x => .cut x.2) ++
            [.compiled
              { patterns := patterns.length
                pruned := (prunings st.kind words).length
                states := 2 + (firstMet (kept st.kind words)).length
                alphabet := (Alphabet.letters st.foldCase (kept st.kind words).flatten).length
                settings := st }]) ∧
      ∃ n ended, (Visit.initial t.looped t.events).after st.kind n = some ended ∧
        ended.step? st.kind = none ∧ ended.arena.shutStart st.kind = a.arena ∧
        compileEvents st patterns = ended.events ++ [.compiled (a.summary t.prunedCount)] := by
  intro words t a
  refine ⟨?_, ?_⟩
  · obtain ⟨cut, hcuts, hsorted, hmem⟩ := Trie.exists_cuts st patterns
    refine ⟨cut.map fun w => (w, (Strings.ofWords st.kind words).id w), ?_, fun w => ?_, ?_, ?_⟩
    · exact List.pairwise_map.2 hsorted
    · rw [List.map_map, Function.comp_def, List.map_id', hmem]
    · intro x hx
      obtain ⟨w, hw, rfl⟩ := List.mem_map.1 hx
      obtain ⟨-, -, p, hp⟩ := (hmem w).1 hw
      have htree : w ∈ Strings.ofWords st.kind words :=
        Strings.mem_ofWords.2 (Or.inr ⟨p, w, hp, List.prefix_rfl⟩)
      refine path_iff.2 ?_
      rw [canon_of_mem htree]
      exact ⟨htree, rfl⟩
    · have hsummary := summary_compile st patterns
      rw [compile] at hsummary
      rw [compileEvents, hcuts, (Trie.events_ofPatterns st patterns).1, hsummary, List.map_map]
      rfl
  · have ht := Trie.tree_ofWords st patterns
    have hbegun := Visit.Follows.initial ht t.events
    obtain ⟨n, -, ended, hafter, hstop, -, hended, harena⟩ := hbegun.exists_ended ht
    refine ⟨n, ended, hafter, hstop, ?_, ?_⟩
    · rw [harena]
      rfl
    · rw [hended.events]
      rfl

/-- Under folding the state of a, which is third, is cut before that of the
bracket [, since A comes before it. -/
example :
    compileEvents { kind := .leftmostFirst, foldCase := true } [[0x5b], [0x61]] =
      [.cut ⟨3⟩, .cut ⟨2⟩,
        .compiled
          { patterns := 2, pruned := 0, states := 4, alphabet := 2,
            settings := { kind := .leftmostFirst, foldCase := true } }] := by
  decide +kernel

end Automaton

end MultiPattern
