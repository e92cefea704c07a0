import MultiPattern.Proofs.Checked

/-!
# How many failure links a scan follows

A failure link leaves the position where it is, so a scan that followed too many
of them would not be linear in its text. It cannot. A link leads to a state that
is less deep by one at least, the dead state among them, and only reading a byte
makes the state deeper, by one at most. What a scan has read therefore pays for
the depth of its state and for every link followed so far
(`Cursor.Pays.after_round`), and over a whole text no more links are followed
than there are bytes.

The run of a scan is taken round by round, whichever questions the rounds belong
to. A question is a number of rounds, so the states between questions are among
those between rounds (`exists_rounds_eq_after`).
-/

namespace MultiPattern

/-- How many failure links a round follows. -/
def Round.falls : Round → Nat
  | .report .. => 0
  | .fall _ => 1
  | .read _ => 0
  | .over _ => 0

namespace Cursor

/-- The cursor after `n` rounds. -/
def afterRounds (n : Nat) (c : Cursor) : Cursor :=
  (fun c => c.round.after)^[n] c

/-- How many failure links the next `n` rounds follow. -/
def falls : Nat → Cursor → Nat
  | 0, _ => 0
  | n + 1, c => c.round.falls + falls n c.round.after

/-- What the scan has read pays for the depth of its state and for `spent`
failure links. -/
structure Pays (c : Cursor) (L : Lexicon) (spent : Nat) : Prop where
  keeps : ∃ kept, c.Keeps L kept
  paid : spent + c.here.depth ≤ c.position
  position : c.position ≤ c.haystack.size

variable {c : Cursor} {L : Lexicon} {spent : Nat}

theorem afterRounds_add (m n : Nat) (c : Cursor) :
    afterRounds (m + n) c = afterRounds n (afterRounds m c) := by
  rw [afterRounds, afterRounds, afterRounds, Nat.add_comm, Function.iterate_add_apply]

theorem frame_afterRounds (n : Nat) (c : Cursor) :
    (afterRounds n c).automaton = c.automaton ∧ (afterRounds n c).haystack = c.haystack := by
  induction n generalizing c with
  | zero => exact ⟨rfl, rfl⟩
  | succ n ih =>
      obtain ⟨hautomaton, hhaystack⟩ := frame_after_round c
      exact ⟨(ih c.round.after).1.trans hautomaton, (ih c.round.after).2.trans hhaystack⟩

namespace Pays

/-- A link that is followed makes the state less deep. -/
theorem fall {w : Bytes} (h : c.Pays L spent) (hkeeps : c.Keeps L (some w)) (hne : w ≠ []) :
    Pays { c with state := L.place (L.fallback w) } L (spent + 1) := by
  have hafter := hkeeps.fall w
  refine ⟨⟨_, hafter⟩, ?_, h.position⟩
  have hless := Lexicon.length_fallback_lt (L := L) hne
  have hpaid := h.paid
  rw [hkeeps.depth_here, Option.elim_some] at hpaid
  rw [hafter.depth_here]
  show spent + 1 + _ ≤ c.position
  omega

/-- A byte that is read makes the state deeper by one at most. -/
theorem enter {w u : Bytes} (h : c.Pays L spent) (hkeeps : c.Keeps L (some w))
    (hp : c.pending = []) (hlt : c.position < c.haystack.size) (hu : u ∈ L.strings)
    (hlen : u.length ≤ w.length + 1) : (c.enter (L.strings.id u)).Pays L spent := by
  have hafter := hkeeps.enter hp hu
  have hdepth := hafter.depth_here
  obtain ⟨last, heq, -⟩ := enter_eq hp (L.strings.id u)
  rw [heq] at hafter hdepth ⊢
  refine ⟨⟨_, hafter⟩, ?_, hlt⟩
  have hpaid := h.paid
  rw [hkeeps.depth_here, Option.elim_some] at hpaid
  rw [hdepth, Option.elim_some]
  show _ ≤ c.position + 1
  omega

/-- Whatever a round does, it keeps the account. -/
theorem after_round (h : c.Pays L spent) : c.round.after.Pays L (spent + c.round.falls) := by
  obtain ⟨kept, hkeeps⟩ := h.keeps
  cases hp : c.pending with
  | cons p rest =>
      rw [round_of_pending hp]
      exact ⟨⟨kept, hkeeps.automaton, hkeeps.state, hkeeps.mem⟩, h.paid, h.position⟩
  | nil =>
      cases hd : c.dead with
      | true =>
          rw [round_of_dead hp hd]
          exact h
      | false =>
          cases hb : c.haystack[c.position]? with
          | none =>
              rw [round_at_end hp hb]
              exact h
          | some b =>
              rcases hkeeps.round_cases hp hd hb with
                ⟨-, -, hr⟩ | ⟨w, rfl, hne, -, hr⟩ | ⟨w, u, rfl, hu, -, hlen, hr⟩
              · rw [hr]
                exact ⟨⟨kept, hkeeps.automaton, hkeeps.state, hkeeps.mem⟩, h.paid, h.position⟩
              · rw [hr]
                exact h.fall hkeeps hne
              · have hlt : c.position < c.haystack.size := (Array.getElem?_eq_some_iff.1 hb).1
                rw [hr]
                exact h.enter hkeeps hp hlt (Lexicon.settle_eq_some hu).2 hlen

theorem afterRounds (h : c.Pays L spent) (n : Nat) :
    (c.afterRounds n).Pays L (spent + c.falls n) := by
  induction n generalizing c spent with
  | zero => exact h
  | succ n ih =>
      rw [falls, ← Nat.add_assoc]
      exact ih h.after_round

end Pays

/-! ## Rounds and questions -/

theorem exists_rounds_eq_go (fuel : Nat) (c : Cursor) : ∃ n, (go fuel c).2 = c.afterRounds n := by
  induction fuel generalizing c with
  | zero => exact ⟨0, rfl⟩
  | succ fuel ih =>
      -- The first round is the whole question, or the others follow it.
      have hfirst : ∀ after : Cursor, c.round.after = after → ∃ n, after = c.afterRounds n :=
        fun after hafter => ⟨1, hafter.symm⟩
      have hrest : ∀ after : Cursor, c.round.after = after →
          ∃ n, (go fuel after).2 = c.afterRounds n := by
        intro after hafter
        obtain ⟨n, hn⟩ := ih after
        exact ⟨n + 1, hn.trans (by rw [← hafter]; rfl)⟩
      rw [go]
      cases hr : c.round with
      | report hit after => exact hfirst after (congrArg Round.after hr)
      | fall after => exact hrest after (congrArg Round.after hr)
      | read after => exact hrest after (congrArg Round.after hr)
      | «over» after => exact hfirst after (congrArg Round.after hr)

theorem exists_rounds_eq_after (m : Nat) (c : Cursor) :
    ∃ n, Feed.after m c = c.afterRounds n := by
  induction m generalizing c with
  | zero => exact ⟨0, rfl⟩
  | succ m ih =>
      obtain ⟨k, hk⟩ := exists_rounds_eq_go (c.potential + 1) c
      obtain ⟨n, hn⟩ := ih c.next.2
      refine ⟨k + n, ?_⟩
      rw [afterRounds_add, ← hk]
      exact hn

theorem automaton_after (m : Nat) (c : Cursor) : (Feed.after m c).automaton = c.automaton := by
  obtain ⟨n, hn⟩ := exists_rounds_eq_after m c
  rw [hn]
  exact (frame_afterRounds n c).1

end Cursor

namespace Automaton

theorem scan_pays (st : Settings) (patterns : List Bytes) (haystack : Bytes) :
    ((compile st patterns).scan haystack).Pays (.ofWords st.kind (patterns.map st.canon)) 0 := by
  have hkeeps := scan_keeps st patterns haystack
  refine ⟨⟨_, hkeeps⟩, ?_, Nat.zero_le _⟩
  rw [hkeeps.depth_here]
  exact Nat.le_refl 0

/-- At every moment of a scan the failure links followed so far and the depth of
the state are together no more than the bytes that were read. So a scan follows no
more failure links than its text has bytes. The moments are those between two
rounds, and whatever a scan was asked, it is left at one of them. -/
theorem falls_add_depth_le_position (st : Settings) (patterns : List Bytes) (haystack : Bytes) :
    let c := (compile st patterns).scan haystack
    (∀ n, c.falls n + (c.afterRounds n).here.depth ≤ (c.afterRounds n).position ∧
        c.falls n ≤ haystack.length) ∧
      ∀ m, ∃ n, Feed.after m c = c.afterRounds n := by
  intro c
  refine ⟨fun n => ?_, fun m => Cursor.exists_rounds_eq_after m c⟩
  have hpays := (scan_pays st patterns haystack).afterRounds n
  have hpaid : c.falls n + (c.afterRounds n).here.depth ≤ (c.afterRounds n).position := by
    rw [← Nat.zero_add (c.falls n)]
    exact hpays.paid
  have hposition : (c.afterRounds n).position ≤ haystack.length := by
    have hsize : (c.afterRounds n).haystack.size = haystack.length := by
      rw [(Cursor.frame_afterRounds n _).2]
      exact List.size_toArray
    rw [← hsize]
    exact hpays.position
  exact ⟨hpaid, by omega⟩

/-- In the text aaaa the pattern aab falls back once for each a after the second. -/
example :
    ((compile { kind := .standard } [[0x61, 0x61, 0x62]]).scan [0x61, 0x61, 0x61, 0x61]).falls 6 =
      2 := by
  decide +kernel

end Automaton

end MultiPattern
