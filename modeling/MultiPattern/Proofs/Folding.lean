import MultiPattern.Proofs.Likeness

/-!
# Folding is writing in small letters

Under case folding no pattern is written in small letters, and no text: a
transition is written twice instead, on both cases of its letter. The automaton
that comes of it differs from that of the patterns in small letters in more than
its tables. The states below a state are visited in another order, since a
letter is met at its capital, and the capitals come before some bytes that the
small letters come after.

Both automata have the same lexicon, for a string of the tree is made of
representatives and the representative of a letter is the small one. So the
order does not show in what is finished, and the two are alike without any
renaming. They scan alike a text and the text in small letters.
-/

namespace MultiPattern

theorem PatternId.keepsOrder_id : PatternId.KeepsOrder id :=
  fun _ _ h => h

theorem Lexicon.renamed_id (L : Lexicon) : L.Renamed id L :=
  ⟨PatternId.keepsOrder_id, rfl, rfl, fun _ => (List.map_id _).symm⟩

theorem Hit.map_rename_id (hits : List Hit) : hits.map (Hit.rename id) = hits :=
  List.map_id hits

namespace Automaton

theorem arena_folding_alike (kind : MatchKind) (patterns : List Bytes) :
    (compile { kind, foldCase := true } patterns).arena.Alike id
      (fun b b' => Byte.lower b = b')
      (compile { kind, foldCase := false } (patterns.map fun w => w.map Byte.lower)).arena := by
  have hwords : (patterns.map fun w => w.map Byte.lower).map
      (Settings.canon { kind, foldCase := false }) =
        patterns.map (Settings.canon { kind, foldCase := true }) := by
    rw [List.map_map]
    exact List.map_congr_left fun w _ => List.map_id _
  have hplain := (of_compile { kind, foldCase := false }
    (patterns.map fun w => w.map Byte.lower)).compiled
  rw [hwords] at hplain
  have hfolding := (of_compile { kind, foldCase := true } patterns).compiled
  exact hfolding.alike hplain (Lexicon.renamed_id _)

/-- An automaton that folds letter case is that of the patterns in small
letters, state for state; its transition on a byte is the other's on the small
letter of it. It scans a text as the other scans the text in small letters,
after any number of questions and to the end. -/
theorem folding_eq_lowering (kind : MatchKind) (patterns : List Bytes) (haystack : Bytes) :
    let folding := compile { kind, foldCase := true } patterns
    let plain := compile { kind, foldCase := false } (patterns.map fun w => w.map Byte.lower)
    let scan := folding.scan haystack
    let scan' := plain.scan (haystack.map Byte.lower)
    folding.arena.size = plain.arena.size ∧
      (∀ s, Option.Rel (fun x y : State => x.depth = y.depth ∧ x.failure = y.failure ∧
          x.outputs = y.outputs ∧ ∀ b, x.next.get b = y.next.get (Byte.lower b))
        (folding.arena.state? s) (plain.arena.state? s)) ∧
      (∀ n, (Feed.take n scan).1 = (Feed.take n scan').1 ∧
        (Feed.take n scan).2.position = (Feed.take n scan').2.position ∧
        (Feed.take n scan).2.dead = (Feed.take n scan').2.dead) ∧
      ∃ hits c c', Feed.Gives scan hits c ∧ Feed.drain scan = (hits, c) ∧
        Feed.Gives scan' hits c' ∧ Feed.drain scan' = (hits, c') ∧
        c.position = c'.position ∧ c.dead = c'.dead := by
  intro folding plain scan scan'
  have harena := arena_folding_alike kind patterns
  have htext : List.Forall₂ (fun b b' => Byte.lower b = b') haystack (haystack.map Byte.lower) :=
    List.forall₂_map_right_iff.2 (List.forall₂_same.2 fun _ _ => rfl)
  have hscan : scan.Alike id (fun b b' => Byte.lower b = b') scan' :=
    scan_alike harena rfl htext
  refine ⟨harena.size, ?_, ?_, ?_⟩
  · refine Arena.rel_state? harena.size fun s _ => ?_
    have h := harena.state s
    refine ⟨h.depth, h.failure, ?_, fun b => h.next b _ rfl⟩
    rw [h.outputs, List.map_id]
  · intro n
    obtain ⟨hhits, hend⟩ := Feed.take_alike (fun _ _ => Cursor.Alike.next) hscan n
    exact ⟨hhits.trans (Hit.map_rename_id _), hend.position, hend.dead⟩
  · obtain ⟨hits, c, c', hgives, hdrain, hgives', hdrain', hend⟩ := gives_alike hscan
    rw [Hit.map_rename_id] at hgives hdrain
    exact ⟨hits, c, c', hgives, hdrain, hgives', hdrain', hend.position, hend.dead⟩

end Automaton

end MultiPattern
