import MultiPattern.Proofs.Falls
import MultiPattern.Proofs.Paths

/-!
# Between two questions

A scan rests between questions, and may be left there for good. `Cursor.Paused`
says where it rests. While it is alive it is in the state of what the text read so
far settles on: failure links are followed within a question, and a question does
not end behind one unless the scan dies there. What is pending is the end of what
the state reports. A scan that is dead has stopped before a byte, in the start or
in the dead state.

A question leaves the scan so again. If it gives a hit, the hit stands in what the
state reports right before what is pending now; if it gives none, nothing will
change any more (`Paused.next`). By induction on the questions this holds of all
of them.
-/

namespace MultiPattern

namespace Lexicon

variable {L : Lexicon} {w u : Bytes}

/-- What is settled on is the longest suffix that is a string of the tree. -/
theorem isLeast_of_settle (h : L.settle w = some u) :
    ∃ s, IsLeast {i | w.drop i ∈ L.strings} s ∧ w.drop s = u := by
  obtain ⟨s, hs⟩ := exists_isLeast L w
  have hsettle := settle_eq_of_isLeast hs
  by_cases hcom : ∃ i < s, L.Committed (w.drop i)
  · rw [hsettle.1 hcom] at h
    cases h
  · have hnone : ∀ i < s, ¬ L.Committed (w.drop i) := fun i hi hc => hcom ⟨i, hi, hc⟩
    rw [hsettle.2 hnone] at h
    exact ⟨s, hs, Option.some.inj h⟩

end Lexicon

namespace Cursor

/-- The scan of a text, between two questions. -/
structure Paused (c : Cursor) (L : Lexicon) (text : Bytes) : Prop where
  automaton : c.automaton.Of L
  haystack : c.haystack.toList.map c.canonical = text
  position : c.position ≤ text.length
  alive : c.dead = false →
    ∃ w, L.settle (text.take c.position) = some w ∧ c.state = L.strings.id w
  stopped : c.dead = true →
    c.pending = [] ∧ c.position < text.length ∧ (c.state = .start ∨ c.state = .dead)
  pending : c.pending <:+ reported c.automaton.settings.kind c.here.outputs
  last : c.pending ≠ [] → c.pendingLast + 1 = c.position

/-- What a question comes to that leaves the scan as `c`: a hit, which stands right
before what is pending in what the state reports, or the end. -/
def Rests (c : Cursor) (text : Bytes) : Option Hit → Prop
  | some h =>
      c.dead = false ∧ c.position = h.last + 1 ∧
        h.pattern :: c.pending <:+ reported c.automaton.settings.kind c.here.outputs
  | none => (c.dead = true ↔ c.position < text.length) ∧ c.next = (none, c)

variable {c : Cursor} {L : Lexicon} {text : Bytes}

/-- Under a leftmost rule nothing is reported but the first, so nothing is pending behind
it. -/
theorem head?_of_reported_eq {kind : MatchKind} {outputs earlier rest : List PatternId}
    {p : PatternId} (hk : kind.isLeftmost = true)
    (h : reported kind outputs = earlier ++ p :: rest) : outputs.head? = some p ∧ rest = [] := by
  rw [reported, if_pos hk] at h
  cases outputs with
  | nil => simp at h
  | cons q outputs =>
      cases earlier with
      | nil =>
          obtain ⟨rfl, hrest⟩ := List.cons.inj h
          exact ⟨rfl, hrest.symm⟩
      | cons x earlier => simp at h

namespace Paused

/-- No pattern is reported twice. -/
theorem nodup_reported (h : c.Paused L text) (hd : c.dead = false) :
    (reported c.automaton.settings.kind c.here.outputs).Nodup := by
  obtain ⟨w, hw, hstate⟩ := h.alive hd
  have houtputs : c.here.outputs = L.heard w := by
    rw [here, hstate]
    exact h.automaton.compiled.outputs w (Lexicon.settle_eq_some hw).2
  rw [houtputs]
  exact PatternId.nodup_of_pairwise (Lexicon.pairwise_reported _ (Lexicon.pairwise_heard L w))

theorem enter (h : c.Paused L text) (hp : c.pending = []) (hd : c.dead = false)
    (hlt : c.position < text.length) {u : Bytes}
    (hu : L.settle (text.take (c.position + 1)) = some u) :
    (c.enter (L.strings.id u)).Paused L text ∧
      (c.enter (L.strings.id u)).position = c.position + 1 := by
  obtain ⟨last, heq, hlast⟩ := enter_eq hp (L.strings.id u)
  rw [heq]
  refine ⟨⟨h.automaton, h.haystack, hlt, fun _ => ⟨u, hu, rfl⟩, fun hdead => ?_, List.suffix_rfl,
    fun hne => ?_⟩, rfl⟩
  · rw [show c.dead = true from hdead] at hd
    cases hd
  · refine congrArg (· + 1) (hlast fun hnil => hne ?_)
    show reported _ _ = []
    rw [hnil, reported]
    exact ite_self _

/-- A scan that gives nothing any more rests where it is. -/
theorem over_of_next (h : c.Paused L text) (hnext : c.next = (none, c))
    (hend : c.dead = true ↔ c.position < text.length) :
    c.next.2.Paused L text ∧ c.next.2.Rests text c.next.1 := by
  rw [hnext]
  exact ⟨h, hend, hnext⟩

/-- A scan that dies before the next byte stays where it is for good. -/
theorem die (h : c.Paused L text) (hp : c.pending = []) (hlt : c.position < text.length)
    {s : StateId} (hs : s = .start ∨ s = .dead) :
    ({ c with state := s, dead := true } : Cursor).Paused L text ∧
      ({ c with state := s, dead := true } : Cursor).Rests text none := by
  refine ⟨⟨h.automaton, h.haystack, h.position, fun hd => ?_, fun _ => ⟨hp, hlt, hs⟩, ?_, ?_⟩,
    iff_of_true rfl hlt, next_of_round_over (round_of_dead hp rfl)⟩
  · cases hd
  · show c.pending <:+ _
    rw [hp]
    exact List.nil_suffix
  · exact fun hne => absurd hp hne

theorem report (h : c.Paused L text) {p : PatternId} {rest : List PatternId}
    (hp : c.pending = p :: rest) :
    ({ c with pending := rest } : Cursor).Paused L text ∧
      ({ c with pending := rest } : Cursor).Rests text (some ⟨p, c.pendingLast⟩) := by
  have hpending := h.pending
  rw [hp] at hpending
  have hlast : c.pendingLast + 1 = c.position := h.last (by simp [hp])
  have halive : c.dead = false := by
    rw [← Bool.not_eq_true]
    intro hd
    rw [(h.stopped hd).1] at hp
    cases hp
  refine ⟨⟨h.automaton, h.haystack, h.position, h.alive, fun hd => ?_, ?_, fun _ => hlast⟩,
    halive, hlast.symm, hpending⟩
  · rw [show c.dead = true from hd] at halive
    cases halive
  · exact (List.suffix_cons p rest).trans hpending

/-- What a question comes to. -/
theorem next (h : c.Paused L text) : c.next.2.Paused L text ∧ c.next.2.Rests text c.next.1 := by
  -- On the number of bytes that are left: what is not answered at once is
  -- answered as it would be behind the next byte.
  induction hn : text.length - c.position using Nat.strongRecOn generalizing c with
  | ind n ih =>
      cases hp : c.pending with
      | cons p rest =>
          have hnext : c.next = (some ⟨p, c.pendingLast⟩, { c with pending := rest }) := by
            rw [Cursor.next, go, round_of_pending hp]
          rw [hnext]
          exact h.report hp
      | nil =>
          cases hd : c.dead with
          | true =>
              have hover := next_of_round_over (round_of_dead hp hd)
              exact h.over_of_next hover (iff_of_true hd (h.stopped hd).2.1)
          | false =>
              rcases Nat.lt_or_eq_of_le h.position with hlt | heq
              · obtain ⟨w, hw, hstate⟩ := h.alive hd
                rcases next_of_settle h.automaton h.haystack hw hstate hp hd hlt with
                  ⟨-, s, hs, hnext⟩ | ⟨u, hu, -, hnext⟩
                · rw [hnext]
                  exact h.die hp hlt hs
                · obtain ⟨hentered, hposition⟩ := h.enter hp hd hlt hu
                  rw [hnext]
                  exact ih _ (by omega) hentered rfl
              · have hover := next_of_round_over (round_at_end hp (no_byte_of_eq h.haystack heq))
                exact h.over_of_next hover (iff_of_false (by simp [hd]) (by omega))

theorem after (h : c.Paused L text) (n : Nat) : (Feed.after n c).Paused L text :=
  Feed.after_induction (motive := fun c : Cursor => c.Paused L text) h (fun _ h => h.next.1) n

end Paused

end Cursor

namespace Automaton

variable {st : Settings} {patterns : List Bytes} {haystack : Bytes} {c : Cursor}

theorem scan_paused (st : Settings) (patterns : List Bytes) (haystack : Bytes) :
    ((compile st patterns).scan haystack).Paused (.ofWords st.kind (patterns.map st.canon))
      (st.canon haystack) :=
  ⟨of_compile st patterns, rfl, Nat.zero_le _, fun _ => ⟨[], rfl, rfl⟩, fun hd => Bool.noConfusion hd,
    List.nil_suffix, fun hne => absurd rfl hne⟩

/-- Under the standard rule no question finds the scan dead, or leaves it so. -/
theorem alive_after (hk : st.kind = .standard) (n : Nat) :
    (Feed.after n ((compile st patterns).scan haystack)).dead = false := by
  obtain ⟨c, hits, hgives, -, -, hended⟩ := drain_scan st patterns haystack
  have hleftmost : (Lexicon.ofWords st.kind (patterns.map st.canon)).kind.isLeftmost = false := by
    show st.kind.isLeftmost = false
    rw [hk]
    rfl
  have halive := (hended.of_not_leftmost hleftmost).1
  rw [← Bool.not_eq_true]
  intro hdead
  rw [Cursor.dead_of_gives (hgives.after hended.asked n) hdead] at halive
  cases halive

/-- A scan that is alive is in the state of the longest suffix that has a path. -/
theorem longest_path (hpaused : c.Paused (.ofWords st.kind (patterns.map st.canon))
      (st.canon haystack)) (hd : c.dead = false) :
    ∃ s, IsLeast {i | ∃ u, (compile st patterns).arena.Path ((haystack.take c.position).drop i) u} s ∧
      (compile st patterns).arena.Path ((haystack.take c.position).drop s) c.state := by
  obtain ⟨w, hw, hstate⟩ := hpaused.alive hd
  obtain ⟨s, hs, rfl⟩ := Lexicon.isLeast_of_settle hw
  have hcanon : ∀ i, st.canon ((haystack.take c.position).drop i) =
      ((st.canon haystack).take c.position).drop i := by
    intro i
    rw [Settings.canon_drop, Settings.canon_take]
  refine ⟨s, ?_, path_iff.2 ?_⟩
  · simp only [exists_path_iff, hcanon]
    exact hs
  · rw [hcanon]
    exact ⟨hs.1, hstate.symm⟩

/-- Between two questions a scan of a text is in the state of the longest suffix,
of what it has read, that has a path, until it dies. A question that gives a hit
leaves it behind the last byte of the hit. Under the standard rule what follows the
hit in the reports of its state is pending then; under a leftmost rule the hit is the
first of them, and nothing is. Where a question gives none, the scan is dead if bytes
are left, and no question changes anything any more. -/
theorem scan_between_questions (st : Settings) (patterns : List Bytes) (haystack : Bytes) (n : Nat) :
    let a := compile st patterns
    let c := Feed.after n (a.scan haystack)
    let read := haystack.take c.position
    c.position ≤ haystack.length ∧
      (c.dead = false → ∃ s, IsLeast {i | ∃ u, a.arena.Path (read.drop i) u} s ∧
        a.arena.Path (read.drop s) c.state) ∧
      (c.dead = true → c.state = .start ∨ c.state = .dead) ∧
      (st.kind = .standard → c.dead = false) ∧
      (∀ h c', c.next = (some h, c') → c'.dead = false ∧ c'.position = h.last + 1 ∧
        (st.kind = .standard → ∃ earlier, (a.arena.state c'.state).outputs =
          earlier ++ h.pattern :: c'.pending ∧ h.pattern ∉ earlier) ∧
        (st.kind.isLeftmost = true →
          (a.arena.state c'.state).outputs.head? = some h.pattern ∧ c'.pending = [])) ∧
      ∀ c', c.next = (none, c') → (c'.dead = true ↔ c'.position < haystack.length) ∧
        ∀ k, (Feed.after k c').next = (none, c') := by
  intro a c read
  have hpaused : c.Paused (.ofWords st.kind (patterns.map st.canon)) (st.canon haystack) :=
    (scan_paused st patterns haystack).after n
  have hautomaton : c.automaton = a := Cursor.automaton_after n _
  obtain ⟨hafter, hrests⟩ := hpaused.next
  refine ⟨?_, longest_path hpaused, fun hd => (hpaused.stopped hd).2.2,
    fun hk => alive_after hk n, fun h c' hnext => ?_, fun c' hnext => ?_⟩
  · rw [← Settings.length_canon st]
    exact hpaused.position
  · have hautomaton' : c'.automaton = a := by
      rw [← hautomaton, ← Cursor.automaton_after 1 c]
      exact congrArg (·.2.automaton) hnext.symm
    rw [hnext] at hafter hrests
    obtain ⟨hd, hposition, earlier, hearlier⟩ := hrests
    have hreported : Cursor.reported st.kind (a.arena.state c'.state).outputs =
        earlier ++ h.pattern :: c'.pending := by
      rw [hearlier, Cursor.here, hautomaton']
      rfl
    refine ⟨hd, hposition, fun hk => ⟨earlier, ?_, ?_⟩, fun hk => ?_⟩
    · rw [← hreported, hk]
      rfl
    · have hnodup := hafter.nodup_reported hd
      rw [← hearlier, List.nodup_append] at hnodup
      exact fun hmem => hnodup.2.2 _ hmem _ List.mem_cons_self rfl
    · exact Cursor.head?_of_reported_eq hk hreported
  · rw [hnext] at hrests
    obtain ⟨hend, hasked⟩ := hrests
    rw [Settings.length_canon] at hend
    refine ⟨hend, fun k => ?_⟩
    exact Feed.after_induction (motive := fun s : Cursor => s.next = (none, c')) hasked
      (fun s hs => by rw [show (Feed.next s).2 = c' from congrArg Prod.snd hs, hasked]) k

/-- Of the patterns ab and b, which end together in the text xab, the first question
gives ab and leaves the scan behind it, with b pending. Of ab given twice, under a
leftmost rule, it gives the first, and nothing is pending. -/
theorem scan_between_questions_pending :
    let a := compile { kind := .standard } [[0x61, 0x62], [0x62]]
    let c := (a.scan [0x78, 0x61, 0x62]).next.2
    let a' := compile { kind := .leftmostFirst } [[0x61, 0x62], [0x61, 0x62]]
    let c' := (a'.scan [0x78, 0x61, 0x62]).next.2
    ((a.scan [0x78, 0x61, 0x62]).next = (some ⟨⟨0⟩, 2⟩, c) ∧ c.position = 3 ∧ c.pending = [⟨1⟩] ∧
        ∃ earlier, (a.arena.state c.state).outputs = earlier ++ [⟨0⟩, ⟨1⟩] ∧ ⟨0⟩ ∉ earlier) ∧
      (a'.scan [0x78, 0x61, 0x62]).next = (some ⟨⟨0⟩, 2⟩, c') ∧ c'.position = 3 ∧
        (a'.arena.state c'.state).outputs.length = 2 ∧
        (a'.arena.state c'.state).outputs.head? = some ⟨0⟩ ∧ c'.pending = [] := by
  intro a c a' c'
  refine ⟨?_, ?_⟩
  · have hfirst : (a.scan [0x78, 0x61, 0x62]).next.1 = some ⟨⟨0⟩, 2⟩ := by decide +kernel
    have hnext : (a.scan [0x78, 0x61, 0x62]).next = (some ⟨⟨0⟩, 2⟩, c) := Prod.ext hfirst rfl
    have hpending : c.pending = [⟨1⟩] := by decide +kernel
    obtain ⟨-, -, -, -, hhit, -⟩ :=
      scan_between_questions { kind := .standard } [[0x61, 0x62], [0x62]] [0x78, 0x61, 0x62] 0
    obtain ⟨-, hposition, hreports, -⟩ := hhit _ c hnext
    rw [hpending] at hreports
    exact ⟨hnext, hposition, hpending, hreports rfl⟩
  · have hfirst : (a'.scan [0x78, 0x61, 0x62]).next.1 = some ⟨⟨0⟩, 2⟩ := by decide +kernel
    have hnext : (a'.scan [0x78, 0x61, 0x62]).next = (some ⟨⟨0⟩, 2⟩, c') := Prod.ext hfirst rfl
    obtain ⟨-, -, -, -, hhit, -⟩ := scan_between_questions { kind := .leftmostFirst }
      [[0x61, 0x62], [0x61, 0x62]] [0x78, 0x61, 0x62] 0
    obtain ⟨-, hposition, -, hreports⟩ := hhit _ c' hnext
    exact ⟨hnext, hposition, by decide +kernel, hreports rfl⟩

end Automaton

end MultiPattern
