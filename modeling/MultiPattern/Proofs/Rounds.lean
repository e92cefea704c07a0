import MultiPattern.Automaton.Compile
import MultiPattern.Cursor
import MultiPattern.Proofs.Linking

/-!
# The rounds of a scan

A scan asks its automaton one thing at a time, and both of its loops carry a
number that bounds them: a question goes round as often as the potential of the
cursor allows, and draining asks as often as there can be hits. Neither number
decides anything. For the first, every round that moves the cursor makes its
potential smaller (`Keeps.moves`), so any larger number of rounds gives the same
answer (`Keeps.go_congr`) and a question may be taken one round at a time. For
the second, `Feed.Gives` says without a number what asking until the end comes
to, and a feed whose items are no more than its bound is drained to exactly
that.

What a round does is said of what the cursor keeps of the text, in the sense of
`Lexicon.settle`, with nothing kept in the dead state. `Keeps.next_byte` sums
the rounds for one byte up: the failure links that are followed on the way
change what is kept but not what becomes of it with the byte, and so the cursor
enters the state of what it keeps after the byte, or it stops.
-/

namespace MultiPattern

namespace Feed

variable {σ α : Type} [Feed σ α] {s t s' : σ} {items : List α} {n : Nat}

/-- Asking `s` until the end gives `items` and leaves `s'`. -/
inductive Gives : σ → List α → σ → Prop where
  /-- There was nothing more. -/
  | nil {s s' : σ} (h : next s = (none, s')) : Gives s [] s'
  /-- There was an item, and others after it. -/
  | cons {s t s' : σ} {item : α} {items : List α} (h : next s = (some item, t))
      (rest : Gives t items s') : Gives s (item :: items) s'

namespace Gives

theorem of_next_eq (h : Gives t items s') (heq : next s = next t) : Gives s items s' := by
  cases h with
  | nil h => exact nil (heq.trans h)
  | cons h rest => exact cons (heq.trans h) rest

/-- Asking more often than there are items is asking until the end. -/
theorem take_eq (h : Gives s items s') (hn : items.length < n) : take n s = (items, s') := by
  induction h generalizing n with
  | nil h =>
      cases n with
      | zero => exact absurd hn (Nat.not_lt_zero _)
      | succ n => rw [take, h]
  | cons h rest ih =>
      cases n with
      | zero => exact absurd hn (Nat.not_lt_zero _)
      | succ n => simp only [take, h, ih (Nat.lt_of_succ_lt_succ hn)]

theorem take_fst (h : Gives s items s') (n : Nat) : (take n s).1 = items.take n := by
  induction h generalizing n with
  | nil h => cases n <;> simp [take, h]
  | cons h rest ih => cases n <;> simp [take, h, ih]

theorem drain_eq (h : Gives s items s') (hbound : items.length ≤ bound s) :
    drain s = (items, s') :=
  h.take_eq (Nat.lt_succ_of_le hbound)

/-- However often `s` was asked, the rest is given next and leads to the same
end. -/
theorem after_take (h : Gives s items s') (n : Nat) :
    (take n s).2 = s' ∨ Gives (take n s).2 (items.drop n) s' := by
  induction h generalizing n with
  | nil h =>
      cases n with
      | zero => exact Or.inr (nil h)
      | succ n =>
          rw [take, h]
          exact Or.inl rfl
  | cons h rest ih =>
      cases n with
      | zero => exact Or.inr (cons h rest)
      | succ n =>
          simp only [take, h]
          exact ih n

end Gives

end Feed

namespace Lexicon

/-- A scan that would keep this after a byte stops before it: there is nothing
to go on with, or only the start state, which is shut. -/
def Stops (L : Lexicon) (kept : Option Bytes) : Prop :=
  kept = none ∨ (L.Shut ∧ kept = some [])

theorem not_stops_of_ne_nil {L : Lexicon} {w : Bytes} (hw : w ≠ []) : ¬ L.Stops (some w) := by
  intro h
  rcases h with h | h
  · cases h
  · exact hw (Option.some.inj h.2)

theorem stops_nil_iff {L : Lexicon} : L.Stops (some []) ↔ L.Shut := by
  rw [Stops, or_iff_right (by simp), and_iff_left rfl]

theorem length_fallback_lt {L : Lexicon} {w : Bytes} (hw : w ≠ []) :
    (L.fallback w).elim 0 List.length < w.length := by
  cases hf : L.fallback w with
  | none => exact List.length_pos_iff.2 hw
  | some u => exact (fallback_eq_some hw hf).1

end Lexicon

/-- The automaton of a lexicon. -/
structure Automaton.Of (a : Automaton) (L : Lexicon) : Prop where
  compiled : a.arena.Compiled a.settings.foldCase L
  kind : a.settings.kind = L.kind
  few : ∀ w, (L.heard w).length ≤ a.patternCount

namespace Cursor

/-- The cursor keeps this of what it has read. -/
structure Keeps (c : Cursor) (L : Lexicon) (kept : Option Bytes) : Prop where
  automaton : c.automaton.Of L
  state : c.state = L.place kept
  mem : ∀ w, kept = some w → w ∈ L.strings

/-- A byte as the automaton reads it. -/
def canonical (c : Cursor) (b : UInt8) : UInt8 :=
  Byte.canonical c.automaton.settings.foldCase b

/-- A round that moves the cursor to `c'`. -/
def Moves (c c' : Cursor) : Prop :=
  c.round = .fall c' ∨ c.round = .read c'

variable {c c' : Cursor} {L : Lexicon} {kept : Option Bytes} {w : Bytes} {b : UInt8} {fuel : Nat}

/-! ## What a round does -/

theorem round_of_pending {p : PatternId} {rest : List PatternId} (h : c.pending = p :: rest) :
    c.round = .report ⟨p, c.pendingLast⟩ { c with pending := rest } := by
  rw [round, h]

theorem round_of_dead (hp : c.pending = []) (hd : c.dead = true) : c.round = .over c := by
  rw [round, hp, hd]
  rfl

theorem round_at_end (hp : c.pending = []) (hend : c.haystack[c.position]? = none) :
    c.round = .over c := by
  rw [round, hp, hend]
  exact ite_self _

theorem round_at_byte (hp : c.pending = []) (hd : c.dead = false)
    (hb : c.haystack[c.position]? = some b) :
    c.round =
      match c.here.next.get b with
      | none => .fall { c with state := c.here.failure }
      | some target =>
          if target = .dead then .over { c with dead := true } else .read (c.enter target) := by
  rw [round, hp, hd, hb]
  rfl

namespace Keeps

/-- A round at a byte, by what is kept: the scan stops, or a failure link is
followed, or the state of what is kept after the byte is entered. -/
theorem round_cases (h : c.Keeps L kept) (hp : c.pending = []) (hd : c.dead = false)
    (hb : c.haystack[c.position]? = some b) :
    (L.Stops (kept.bind fun w => L.settle (w ++ [c.canonical b])) ∧
        (c.state = .start ∨ c.state = .dead) ∧ c.round = .over { c with dead := true }) ∨
      (∃ w, kept = some w ∧ w ≠ [] ∧ w ++ [c.canonical b] ∉ L.strings ∧
        c.round = .fall { c with state := L.place (L.fallback w) }) ∨
      ∃ w u, kept = some w ∧ L.settle (w ++ [c.canonical b]) = some u ∧
        ¬ L.Stops (some u) ∧ u.length ≤ w.length + 1 ∧
        c.round = .read (c.enter (L.strings.id u)) := by
  have hcompiled := h.automaton.compiled
  have hnext : c.here.next.get b = c.automaton.arena.next (L.place kept) b := by
    rw [here, h.state]
    rfl
  rw [round_at_byte hp hd hb, hnext]
  cases kept with
  | none =>
      have hdead : c.automaton.arena.next (L.place none) b = some .dead := hcompiled.next_dead b
      rw [hdead]
      exact Or.inl ⟨Or.inl rfl, Or.inr h.state, rfl⟩
  | some w =>
      have hw := h.mem w rfl
      rw [Lexicon.place]
      by_cases hwb : w ++ [c.canonical b] ∈ L.strings
      · rw [hcompiled.next_of_mem hwb]
        refine Or.inr (Or.inr ⟨w, _, rfl, Lexicon.settle_of_mem hwb, ?_, ?_, ?_⟩)
        · exact Lexicon.not_stops_of_ne_nil (by simp)
        · rw [List.length_append, List.length_singleton]
        · exact if_neg (Strings.id_ne_dead _ _)
      · by_cases hne : w = []
        · -- The start state has a transition on every byte, back to itself or
          -- to the dead state where no pattern begins.
          subst hne
          rw [List.nil_append] at hwb
          have hsettle : L.settle ([] ++ [c.canonical b]) = some [] :=
            Lexicon.settle_singleton_of_notMem hwb
          rw [Strings.id_nil, hcompiled.next_start_of_notMem hwb]
          by_cases hs : L.Shut
          · refine Or.inl ⟨Or.inr ⟨hs, hsettle⟩, Or.inl h.state, ?_⟩
            simp only [if_pos hs]
            rfl
          · refine Or.inr (Or.inr ⟨[], [], rfl, hsettle, ?_, Nat.zero_le _, ?_⟩)
            · exact fun hstops => hs (Lexicon.stops_nil_iff.1 hstops)
            · simp only [if_neg hs]
              rfl
        · have hfailure : c.here.failure = L.place (L.fallback w) := by
            rw [here, h.state]
            exact hcompiled.failure w hw
          rw [hcompiled.next_of_notMem hw hne hwb]
          refine Or.inr (Or.inl ⟨w, rfl, hne, hwb, ?_⟩)
          rw [← hfailure]

theorem depth_here (h : c.Keeps L kept) : c.here.depth = kept.elim 0 List.length := by
  have hcompiled := h.automaton.compiled
  rw [here, h.state]
  cases kept with
  | none => exact hcompiled.dead.1
  | some w => exact hcompiled.depth w (h.mem w rfl)

end Keeps

/-! ## Moving -/

/-- A cursor moves only at a byte, when nothing is pending. -/
theorem Moves.ready (hm : c.Moves c') :
    c.pending = [] ∧ c.dead = false ∧ ∃ b, c.haystack[c.position]? = some b := by
  cases hp : c.pending with
  | cons p rest =>
      simp [Moves, round_of_pending hp] at hm
  | nil =>
      cases hd : c.dead with
      | true =>
          simp [Moves, round_of_dead hp hd] at hm
      | false =>
          cases hb : c.haystack[c.position]? with
          | some b => exact ⟨rfl, rfl, b, rfl⟩
          | none =>
              simp [Moves, round_at_end hp hb] at hm

/-- Entering a state makes its reports pending, for the byte that was read. -/
theorem enter_eq (hp : c.pending = []) (target : StateId) :
    ∃ last, c.enter target =
        { c with
          state := target
          position := c.position + 1
          pending :=
            reported c.automaton.settings.kind (c.automaton.arena.state target).outputs
          pendingLast := last } ∧
      ((c.automaton.arena.state target).outputs ≠ [] → last = c.position) := by
  cases hout : (c.automaton.arena.state target).outputs with
  | nil =>
      refine ⟨c.pendingLast, ?_, fun h => absurd rfl h⟩
      have hnil : reported c.automaton.settings.kind [] = c.pending := by
        rw [hp, reported]
        exact ite_self _
      rw [enter, hout, hnil]
      rfl
  | cons p rest =>
      refine ⟨c.position, ?_, fun _ => rfl⟩
      rw [enter, hout]
      rfl

namespace Keeps

theorem fall (h : c.Keeps L kept) (w : Bytes) :
    Keeps { c with state := L.place (L.fallback w) } L (L.fallback w) :=
  ⟨h.automaton, rfl, fun _ hu => Lexicon.fallback_mem hu⟩

theorem enter (h : c.Keeps L kept) (hp : c.pending = []) {u : Bytes} (hu : u ∈ L.strings) :
    Keeps (c.enter (L.strings.id u)) L (some u) := by
  obtain ⟨last, heq, -⟩ := enter_eq hp (L.strings.id u)
  rw [heq]
  exact ⟨h.automaton, rfl, fun v hv => Option.some.inj hv ▸ hu⟩

/-- A cursor that was moved keeps a string of the tree again, and it has fewer
moves left. -/
theorem moves (h : c.Keeps L kept) (hm : c.Moves c') :
    ∃ kept, c'.Keeps L kept ∧ c'.potential < c.potential := by
  obtain ⟨hp, hd, b, hb⟩ := hm.ready
  have hlt : c.position < c.haystack.size := (Array.getElem?_eq_some_iff.1 hb).1
  rcases h.round_cases hp hd hb with
    ⟨-, -, hr⟩ | ⟨w, rfl, hne, -, hr⟩ | ⟨w, u, rfl, hu, -, hlen, hr⟩
  · simp [Moves, hr] at hm
  · obtain rfl : _ = c' := by simpa [Moves, hr] using hm
    have h' := h.fall w
    refine ⟨_, h', ?_⟩
    rw [potential, potential, h'.depth_here, h.depth_here]
    exact Nat.add_lt_add_left (Lexicon.length_fallback_lt hne) _
  · obtain rfl : _ = c' := by simpa [Moves, hr] using hm
    have h' := h.enter hp (Lexicon.settle_eq_some hu).2
    refine ⟨_, h', ?_⟩
    obtain ⟨last, heq, -⟩ := enter_eq hp (L.strings.id u)
    rw [potential, potential, h'.depth_here, h.depth_here, heq]
    simp only [Option.elim_some]
    omega

/-- A number of rounds that is large enough does not matter. -/
theorem go_congr (h : c.Keeps L kept) {fuel₁ fuel₂ : Nat} (h₁ : c.potential < fuel₁)
    (h₂ : c.potential < fuel₂) : go fuel₁ c = go fuel₂ c := by
  -- Both loops take the same round, and what is left to go has fallen below
  -- what is left of either fuel.
  induction fuel₁ generalizing c kept fuel₂ with
  | zero => exact absurd h₁ (Nat.not_lt_zero _)
  | succ fuel₁ ih =>
      obtain ⟨fuel₂, rfl⟩ : ∃ n, fuel₂ = n + 1 := ⟨fuel₂ - 1, by omega⟩
      have step : ∀ {c'}, c.Moves c' → go fuel₁ c' = go fuel₂ c' := by
        intro c' hm
        obtain ⟨kept', h', hlt⟩ := h.moves hm
        exact ih h' (by omega) (by omega)
      rw [go, go]
      split
      · rfl
      · next hr => exact step (Or.inl hr)
      · next hr => exact step (Or.inr hr)
      · rfl

/-- A question may be asked after a move as well as before. -/
theorem next_of_moves (h : c.Keeps L kept) (hm : c.Moves c') : c.next = c'.next := by
  obtain ⟨kept', h', hlt⟩ := h.moves hm
  have hgo : go (c.potential + 1) c = go c.potential c' := by
    rw [go]
    rcases hm with hr | hr
    · rw [hr]
    · rw [hr]
  rw [next, hgo, next]
  exact h'.go_congr hlt (Nat.lt_succ_self _)

/-- What one byte comes to: the scan stops before it, or it goes on from the
state of what is kept after it. -/
theorem next_byte (h : c.Keeps L kept) (hp : c.pending = []) (hd : c.dead = false)
    (hb : c.haystack[c.position]? = some b) :
    (L.Stops (kept.bind fun w => L.settle (w ++ [c.canonical b])) →
        ∃ s, (s = .start ∨ s = .dead) ∧ c.next = (none, { c with state := s, dead := true })) ∧
      ∀ u, (kept.bind fun w => L.settle (w ++ [c.canonical b])) = some u → ¬ L.Stops (some u) →
        c.next = (c.enter (L.strings.id u)).next := by
  -- On the length of what is kept, which every failure link makes smaller.
  induction hn : kept.elim 0 List.length using Nat.strongRecOn generalizing c kept with
  | ind n ih =>
      rcases h.round_cases hp hd hb with
        ⟨hstops, hstate, hr⟩ | ⟨w, rfl, hne, hwb, hr⟩ | ⟨w, u, rfl, hu, hgoes, -, hr⟩
      · refine ⟨fun _ => ⟨c.state, hstate, ?_⟩, fun u hu hgoes => ?_⟩
        · rw [next, go, hr]
        · exact absurd (hu ▸ hstops) hgoes
      · have hlen : (L.fallback w).elim 0 List.length < n := hn ▸ Lexicon.length_fallback_lt hne
        have hkept := Lexicon.settle_concat_of_notMem hne hwb
        rw [Option.bind_some, hkept, h.next_of_moves (Or.inl hr)]
        exact ih _ hlen (h.fall w) hp hd hb rfl
      · refine ⟨fun hstops => absurd (hu ▸ hstops) hgoes, fun v hv _ => ?_⟩
        obtain rfl : u = v := Option.some.inj (hu.symm.trans hv)
        exact h.next_of_moves (Or.inr hr)

end Keeps

end Cursor

end MultiPattern
