import MultiPattern.Proofs.Folding
import MultiPattern.Proofs.Pruning

/-!
# Bytes that an automaton does not tell apart

The alphabet and the transitions are filled side by side while patterns are
inserted, the one with representatives and the other with both cases of a
letter, and a pattern that is given up has left its bytes in the alphabet. They
agree all the same. The bytes of the alphabet are those that some string of the
tree ends with, so two bytes have one code point exactly if no state has
different transitions on them.

A search looks at a byte only through transitions. Texts whose bytes have the
same code points are therefore searched alike.
-/

namespace MultiPattern

namespace Trie

variable {st : Settings} {patterns : List Bytes} {b : UInt8}

/-- The alphabet has the bytes that lead to a state. -/
theorem mem_bytes_alphabet_iff :
    b ∈ (ofPatterns st patterns).alphabet.bytes ↔
      ∃ w, w ++ [b] ∈ Strings.ofWords st.kind (patterns.map st.canon) := by
  refine ⟨fun h => ?_, fun h => ?_⟩
  · rw [alphabet_ofPatterns, Alphabet.mem_bytes_ofBytes] at h
    obtain ⟨c, hc, rfl⟩ := h
    obtain ⟨w, hw, hc⟩ := List.mem_flatten.1 hc
    obtain ⟨p, hp⟩ := mem_kept.1 hw
    obtain ⟨u, v, rfl⟩ := List.append_of_mem hc
    have hu : u ++ [c] ∈ Strings.ofWords st.kind (patterns.map st.canon) :=
      Strings.mem_ofWords.2 (Or.inr ⟨p, _, hp, v, by simp⟩)
    refine ⟨u, ?_⟩
    rwa [canonical_ofWords st patterns u c hu]
  · obtain ⟨w, hw⟩ := h
    exact (holds_ofPatterns st patterns).bytes _ hw (by simp)

end Trie

namespace Arena.Compiled

variable {a : Arena} {foldCase : Bool} {L : Lexicon} {w : Bytes} {x y : UInt8} {s : StateId}

theorem next_eq_next_iff (h : a.Compiled foldCase L) (hw : w ∈ L.strings) :
    a.next (L.strings.id w) x = a.next (L.strings.id w) y ↔
      Byte.canonical foldCase x = Byte.canonical foldCase y ∨
        (w ++ [Byte.canonical foldCase x] ∉ L.strings ∧
          w ++ [Byte.canonical foldCase y] ∉ L.strings) := by
  have hloop : ∀ b, L.loop w ≠ some (L.strings.id (w ++ [b])) :=
    fun b => Lexicon.loop_ne_id (by simp)
  rw [h.next_eq hw, h.next_eq hw]
  by_cases hx : w ++ [Byte.canonical foldCase x] ∈ L.strings <;>
    by_cases hy : w ++ [Byte.canonical foldCase y] ∈ L.strings
  · simp [hx, hy, Strings.id_inj hx]
  · simp only [hx, hy, if_true, if_false, not_true_eq_false, false_and, or_false]
    exact iff_of_false (hloop _).symm fun heq => hy (heq ▸ hx)
  · simp only [hx, hy, if_true, if_false, not_true_eq_false, and_false, or_false]
    exact iff_of_false (hloop _) fun heq => hx (heq ▸ hy)
  · simp [hx, hy]

/-- No state has different transitions on bytes that are one to the tree, or
that it does without. -/
theorem next_congr (h : a.Compiled foldCase L)
    (hsame : Byte.canonical foldCase x = Byte.canonical foldCase y ∨
      ((¬ ∃ w, w ++ [Byte.canonical foldCase x] ∈ L.strings) ∧
        ¬ ∃ w, w ++ [Byte.canonical foldCase y] ∈ L.strings)) (s : StateId) :
    a.next s x = a.next s y := by
  rcases h.state_cases s with ⟨w, hw, rfl⟩ | rfl | ⟨-, hs⟩
  · refine (h.next_eq_next_iff hw).2 (hsame.imp_right fun hno => ?_)
    exact ⟨fun hx => hno.1 ⟨w, hx⟩, fun hy => hno.2 ⟨w, hy⟩⟩
  · rw [h.next_dead, h.next_dead]
  · rw [Arena.next, Arena.next, hs, State.fresh_next_get, State.fresh_next_get]

theorem forall_next_eq_next_iff (h : a.Compiled foldCase L) :
    (∀ s : StateId, s.index < a.size → a.next s x = a.next s y) ↔
      Byte.canonical foldCase x = Byte.canonical foldCase y ∨
        ((¬ ∃ w, w ++ [Byte.canonical foldCase x] ∈ L.strings) ∧
          ¬ ∃ w, w ++ [Byte.canonical foldCase y] ∈ L.strings) := by
  refine ⟨fun hall => or_iff_not_imp_left.2 fun hne => ?_, fun hsame s _ => h.next_congr hsame s⟩
  have hnot : ∀ w ∈ L.strings, w ++ [Byte.canonical foldCase x] ∉ L.strings ∧
      w ++ [Byte.canonical foldCase y] ∉ L.strings := by
    intro w hw
    have hlt : (L.strings.id w).index < a.size := h.size ▸ Strings.id_index_lt hw
    exact ((h.next_eq_next_iff hw).1 (hall _ hlt)).resolve_left hne
  exact ⟨fun ⟨w, hw⟩ => (hnot w (Strings.mem_of_append hw)).1 hw,
    fun ⟨w, hw⟩ => (hnot w (Strings.mem_of_append hw)).2 hw⟩

end Arena.Compiled

namespace Automaton

/-- The bytes of one code point are those that are one to the tree, or that it
does without. -/
theorem codePoint_eq_iff (st : Settings) (patterns : List Bytes) (x y : UInt8) :
    (compile st patterns).alphabet.codePoint x = (compile st patterns).alphabet.codePoint y ↔
      Byte.canonical st.foldCase x = Byte.canonical st.foldCase y ∨
        ((¬ ∃ w, w ++ [Byte.canonical st.foldCase x] ∈
            Strings.ofWords st.kind (patterns.map st.canon)) ∧
          ¬ ∃ w, w ++ [Byte.canonical st.foldCase y] ∈
            Strings.ofWords st.kind (patterns.map st.canon)) := by
  have hholds := Trie.holds_ofPatterns st patterns
  have hcanonical : (compile st patterns).alphabet.canonical = Byte.canonical st.foldCase :=
    congrArg Byte.canonical hholds.foldCase
  have hsound : (compile st patterns).alphabet.Sound := hholds.sound
  rw [hsound.codePoint_eq_iff, hcanonical, show (compile st patterns).alphabet =
    (Trie.ofPatterns st patterns).alphabet from rfl, Trie.mem_bytes_alphabet_iff,
    Trie.mem_bytes_alphabet_iff]

/-- Texts whose bytes have the same code points are one to a scan. -/
theorem scan_alike_of_codePoint_eq (st : Settings) (patterns : List Bytes)
    {haystack haystack' : Bytes}
    (h : List.Forall₂ (fun x y => (compile st patterns).alphabet.codePoint x =
      (compile st patterns).alphabet.codePoint y) haystack haystack') :
    ((compile st patterns).scan haystack).Alike id
      (fun x y => (compile st patterns).alphabet.codePoint x =
        (compile st patterns).alphabet.codePoint y)
      ((compile st patterns).scan haystack') := by
  refine scan_alike ⟨rfl, fun s => ⟨fun x y hsame => ?_, (List.map_id _).symm, rfl, rfl⟩⟩ rfl h
  exact (Trie.compiled_ofPatterns st patterns).next_congr
    ((codePoint_eq_iff st patterns x y).1 hsame) s

/-- Scans that are alike under the names they have give the same hits and end at
one place. -/
theorem agree_of_alike {st st' : Settings} {patterns patterns' : List Bytes}
    {haystack haystack' : Bytes} {same : UInt8 → UInt8 → Prop}
    (h : ((compile st patterns).scan haystack).Alike id same
      ((compile st' patterns').scan haystack')) :
    let scan := (compile st patterns).scan haystack
    let scan' := (compile st' patterns').scan haystack'
    (∀ n, (Feed.take n scan).1 = (Feed.take n scan').1 ∧
      (Feed.take n scan).2.position = (Feed.take n scan').2.position ∧
      (Feed.take n scan).2.dead = (Feed.take n scan').2.dead) ∧
    ∃ hits c c', Feed.Gives scan hits c ∧ Feed.drain scan = (hits, c) ∧
      Feed.Gives scan' hits c' ∧ Feed.drain scan' = (hits, c') ∧
      c.position = c'.position ∧ c.dead = c'.dead := by
  intro scan scan'
  refine ⟨fun n => ?_, ?_⟩
  · obtain ⟨hhits, hend⟩ := Feed.take_alike (fun _ _ => Cursor.Alike.next) h n
    exact ⟨hhits.trans (Hit.map_rename_id _), hend.position, hend.dead⟩
  · obtain ⟨hits, c, c', hgives, hdrain, hgives', hdrain', hend⟩ := gives_alike h
    rw [Hit.map_rename_id] at hgives hdrain
    exact ⟨hits, c, c', hgives, hdrain, hgives', hdrain', hend.position, hend.dead⟩

/-- Two bytes have one code point exactly if no state has different transitions
on them, and texts that are the same up to bytes of one code point are scanned
alike, after any number of questions and to the end. -/
theorem codePoint_eq_iff_next_eq (st : Settings) (patterns : List Bytes) :
    let a := compile st patterns
    let same := fun x y => a.alphabet.codePoint x = a.alphabet.codePoint y
    (∀ x y, same x y ↔
        ∀ s : StateId, s.index < a.arena.size → a.arena.next s x = a.arena.next s y) ∧
      ∀ haystack haystack', List.Forall₂ same haystack haystack' →
        let scan := a.scan haystack
        let scan' := a.scan haystack'
        (∀ n, (Feed.take n scan).1 = (Feed.take n scan').1 ∧
          (Feed.take n scan).2.position = (Feed.take n scan').2.position ∧
          (Feed.take n scan).2.dead = (Feed.take n scan').2.dead) ∧
        ∃ hits c c', Feed.Gives scan hits c ∧ Feed.drain scan = (hits, c) ∧
          Feed.Gives scan' hits c' ∧ Feed.drain scan' = (hits, c') ∧
          c.position = c'.position ∧ c.dead = c'.dead := by
  intro a same
  refine ⟨fun x y => ?_, fun haystack haystack' htext => ?_⟩
  · exact (codePoint_eq_iff st patterns x y).trans
      (Trie.compiled_ofPatterns st patterns).forall_next_eq_next_iff.symm
  · exact agree_of_alike (scan_alike_of_codePoint_eq st patterns htext)

/-- Neither x nor y is in the pattern Ab, and the cases of a letter are one. -/
theorem codePoint_eq_iff_next_eq_folded :
    let a := compile { foldCase := true } [[0x41, 0x62]]
    List.Forall₂ (fun x y => a.alphabet.codePoint x = a.alphabet.codePoint y)
        [0x78, 0x41, 0x42] [0x79, 0x61, 0x62] ∧
      (Feed.take 1 (a.scan [0x79, 0x61, 0x62])).1 = [⟨⟨0⟩, 2⟩] := by
  intro a
  have htext : List.Forall₂ (fun x y => a.alphabet.codePoint x = a.alphabet.codePoint y)
      [0x78, 0x41, 0x42] [0x79, 0x61, 0x62] :=
    .cons (by decide) (.cons (by decide) (.cons (by decide) .nil))
  have halike := (codePoint_eq_iff_next_eq { foldCase := true } [[0x41, 0x62]]).2 _ _ htext
  have hhit : (Feed.take 1 (a.scan [0x78, 0x41, 0x42])).1 = [⟨⟨0⟩, 2⟩] := by decide +kernel
  exact ⟨htext, (halike.1 1).1.symm.trans hhit⟩

end Automaton

end MultiPattern
