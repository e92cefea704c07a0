import Mathlib.Data.List.Forall2
import MultiPattern.Proofs.Scan

/-!
# Automata that do the same

Two lists of patterns may come to the same automaton but for two things: the
patterns have other names, though in the same order, and a byte of the one
stands for another byte of the other. `State.Alike` says this of two states and
`Arena.Alike` of two arenas, name for name.

Two steps make it useful. A lexicon settles everything about a finished arena,
so lexicons that differ in names alone (`Lexicon.Renamed`) have arenas that are
alike, however the states were visited when the links were written. And a round
of a cursor only looks at what likeness speaks of. So cursors in arenas that are
alike, on texts that are alike byte for byte, take the same round and are left
alike by it; by induction on the fuel they answer a question alike, and by
induction on the questions they give the same hits.
-/

namespace MultiPattern

namespace PatternId

/-- The new names are in the order of the old ones. -/
def KeepsOrder (rename : PatternId → PatternId) : Prop :=
  ∀ p q : PatternId, p.index < q.index → (rename p).index < (rename q).index

variable {rename : PatternId → PatternId} {p q : PatternId} {ps qs : List PatternId}

theorem KeepsOrder.lt_iff (h : KeepsOrder rename) :
    (rename p).index < (rename q).index ↔ p.index < q.index := by
  refine ⟨fun hlt => ?_, h p q⟩
  rcases Nat.lt_trichotomy p.index q.index with hpq | hpq | hpq
  · exact hpq
  · rw [PatternId.ext hpq] at hlt
    exact absurd hlt (Nat.lt_irrefl _)
  · have := h q p hpq
    omega

theorem KeepsOrder.injective (h : KeepsOrder rename) : Function.Injective rename := by
  intro p q heq
  have hpq := h.lt_iff (p := p) (q := q)
  have hqp := h.lt_iff (p := q) (q := p)
  rw [heq] at hpq hqp
  exact PatternId.ext (by omega)

theorem insertInto_map (h : KeepsOrder rename) :
    (rename p).insertInto (ps.map rename) = (p.insertInto ps).map rename := by
  induction ps with
  | nil => rfl
  | cons q rest ih =>
      simp only [List.map_cons, insertInto, h.lt_iff, h.injective.eq_iff, ih]
      split
      · rfl
      · split
        · rfl
        · rfl

theorem merge_map (h : KeepsOrder rename) :
    merge (ps.map rename) (qs.map rename) = (merge ps qs).map rename := by
  induction qs generalizing ps with
  | nil => rfl
  | cons q qs ih => simp only [merge, List.map_cons, List.foldl_cons, insertInto_map h] at ih ⊢; exact ih

end PatternId

/-- The hit under the new name of its pattern. -/
def Hit.rename (f : PatternId → PatternId) (h : Hit) : Hit :=
  ⟨f h.pattern, h.last⟩

/-! ## Lexicons that differ in names -/

/-- The lexicons have the same strings, and a string is the same patterns in
both under the new names. -/
structure Lexicon.Renamed (rename : PatternId → PatternId) (L L' : Lexicon) : Prop where
  keepsOrder : PatternId.KeepsOrder rename
  kind : L.kind = L'.kind
  strings : L.strings = L'.strings
  outputs : ∀ w, L.outputs w = (L'.outputs w).map rename

namespace Lexicon.Renamed

variable {rename : PatternId → PatternId} {L L' : Lexicon} {w : Bytes}

theorem commits_iff (h : L.Renamed rename L') : L.Commits w ↔ L'.Commits w := by
  simp [Commits, h.kind, h.outputs]

theorem committed_iff (h : L.Renamed rename L') : L.Committed w ↔ L'.Committed w := by
  simp [Committed, h.commits_iff]

theorem shut_iff (h : L.Renamed rename L') : L.Shut ↔ L'.Shut := by
  simp [Shut, h.kind, h.outputs]

theorem settle_eq (h : L.Renamed rename L') (w : Bytes) : L.settle w = L'.settle w := by
  induction w with
  | nil => rfl
  | cons b w ih => simp only [settle, h.strings, h.committed_iff, ih]

theorem fallback_eq (h : L.Renamed rename L') (w : Bytes) : L.fallback w = L'.fallback w := by
  cases w with
  | nil => rfl
  | cons b w => simp only [fallback, h.committed_iff, h.settle_eq]

theorem place_eq (h : L.Renamed rename L') (kept : Option Bytes) : L.place kept = L'.place kept := by
  cases kept with
  | none => rfl
  | some w => rw [place, place, h.strings]

theorem heard_eq (h : L.Renamed rename L') (w : Bytes) : L.heard w = (L'.heard w).map rename := by
  induction w with
  | nil => exact h.outputs []
  | cons b w ih =>
      simp only [heard, h.committed_iff, h.kind, h.strings, h.outputs, ih,
        PatternId.merge_map h.keepsOrder]
      split
      · rfl
      · split
        · rfl
        · rfl

end Lexicon.Renamed

/-! ## States and arenas -/

section

variable (rename : PatternId → PatternId) (same : UInt8 → UInt8 → Prop)

/-- The states do the same, on bytes that are the same, and report the same
patterns under the new names. -/
structure State.Alike (x x' : State) : Prop where
  next : ∀ b b', same b b' → x.next.get b = x'.next.get b'
  outputs : x.outputs = x'.outputs.map rename
  failure : x.failure = x'.failure
  depth : x.depth = x'.depth

/-- The arenas have the same names, for states that do the same. -/
structure Arena.Alike (a a' : Arena) : Prop where
  size : a.size = a'.size
  state : ∀ s, (a.state s).Alike rename same (a'.state s)

end

namespace Arena

variable {rename : PatternId → PatternId} {same : UInt8 → UInt8 → Prop} {a a' : Arena}
  {foldCase foldCase' : Bool} {L L' : Lexicon} {s : StateId}

theorem state?_of_lt (h : s.index < a.size) : a.state? s = some (a.state s) := by
  cases hs : a.state? s with
  | none => exact absurd (state?_eq_none_iff.1 hs) (Nat.not_le.2 h)
  | some x => rw [state, hs, Option.getD_some]

/-- What holds of any two states of one name holds of the states that are
there, and arenas of one size have the same. -/
theorem rel_state? {r : State → State → Prop} (hsize : a.size = a'.size)
    (h : ∀ s, s.index < a.size → r (a.state s) (a'.state s)) (s : StateId) :
    Option.Rel r (a.state? s) (a'.state? s) := by
  rcases Nat.lt_or_ge s.index a.size with hlt | hge
  · rw [state?_of_lt hlt, state?_of_lt (hsize ▸ hlt)]
    exact Option.Rel.some (h s hlt)
  · rw [state?_eq_none_iff.2 hge, state?_eq_none_iff.2 (hsize ▸ hge)]
    exact Option.Rel.none

/-- Nothing but the lexicon decides what a finished arena is. -/
theorem Compiled.alike (h : a.Compiled foldCase L) (h' : a'.Compiled foldCase' L')
    (hL : L.Renamed rename L') :
    a.Alike rename (fun b b' => Byte.canonical foldCase b = Byte.canonical foldCase' b') a' := by
  have hsize : a.size = a'.size := by rw [h.size, h'.size, hL.strings]
  refine ⟨hsize, fun s => ?_⟩
  -- The state of a string, the dead state, or a name that was not given out.
  rcases h.state_cases s with ⟨w, hw, rfl⟩ | rfl | ⟨hge, hnone⟩
  · have hw' : w ∈ L'.strings := hL.strings ▸ hw
    have hid : L.strings.id w = L'.strings.id w := by rw [hL.strings]
    refine ⟨fun b b' hb => ?_, ?_, ?_, ?_⟩
    · show a.next (L.strings.id w) b = a'.next (L.strings.id w) b'
      by_cases hne : w = []
      · subst hne
        rw [Strings.id_nil, h.next_start, h'.next_start, hL.strings, hb]
        simp only [hL.shut_iff]
      · rw [h.next w hw hne, hid, h'.next w hw' hne, hL.strings, hb]
    · rw [h.outputs w hw, hid, h'.outputs w hw', hL.heard_eq]
    · rw [h.failure w hw, hid, h'.failure w hw', hL.fallback_eq, hL.place_eq]
    · rw [h.depth w hw, hid, h'.depth w hw']
  · refine ⟨fun b b' _ => (h.next_dead b).trans (h'.next_dead b').symm, ?_, ?_, ?_⟩
    · rw [h.dead.2, h'.dead.2, List.map_nil]
    · rw [h.failure_dead, h'.failure_dead]
    · rw [h.dead.1, h'.dead.1]
  · have hnone' : a'.state s = State.fresh 0 := by
      rw [state, state?_eq_none_iff.2 (hsize ▸ hge), Option.getD_none]
    rw [hnone, hnone']
    refine ⟨fun b b' _ => ?_, rfl, rfl, rfl⟩
    rw [State.fresh_next_get, State.fresh_next_get]

end Arena

/-! ## Feeds that answer alike -/

namespace Feed

variable {σ τ α β : Type} [Feed σ α] [Feed τ β] {R : σ → τ → Prop} {f : β → α} {s s' : σ} {t t' : τ}

/-- Asking until the end leads to one end. -/
theorem Gives.unique {xs ys : List α} {s₁ s₂ : σ} (h₁ : Gives s xs s₁) (h₂ : Gives s ys s₂) :
    xs = ys ∧ s₁ = s₂ := by
  have hn₁ : xs.length < xs.length + ys.length + 1 := by omega
  have hn₂ : ys.length < xs.length + ys.length + 1 := by omega
  exact Prod.mk.inj ((h₁.take_eq hn₁).symm.trans (h₂.take_eq hn₂))

section

variable (hnext : ∀ s t, R s t → (next s).1 = (next t).1.map f ∧ R (next s).2 (next t).2)

include hnext

theorem take_alike (h : R s t) (n : Nat) :
    (take n s).1 = (take n t).1.map f ∧ R (take n s).2 (take n t).2 := by
  induction n generalizing s t with
  | zero => exact ⟨rfl, h⟩
  | succ n ih =>
      obtain ⟨hitem, hrest⟩ := hnext s t h
      rw [take, take]
      cases ht : next t with
      | mk item t₁ =>
          cases hs : next s with
          | mk item' s₁ =>
              rw [ht, hs] at hitem hrest
              cases item with
              | none =>
                  obtain rfl : item' = none := hitem
                  exact ⟨rfl, hrest⟩
              | some x =>
                  obtain rfl : item' = some (f x) := hitem
                  obtain ⟨hitems, hend⟩ := ih hrest
                  simp only [hitems, List.map_cons]
                  exact ⟨trivial, hend⟩

theorem Gives.alike {ys : List β} (hgives : Gives t ys t') (h : R s t) :
    ∃ s', Gives s (ys.map f) s' ∧ R s' t' := by
  induction hgives generalizing s with
  | @nil t t' ht =>
      obtain ⟨hitem, hrest⟩ := hnext s t h
      rw [ht] at hitem hrest
      exact ⟨_, nil (Prod.ext hitem rfl), hrest⟩
  | @cons t t₁ t' y ys ht _ ih =>
      obtain ⟨hitem, hrest⟩ := hnext s t h
      rw [ht] at hitem hrest
      obtain ⟨s', hs, hend⟩ := ih hrest
      exact ⟨s', cons (Prod.ext hitem rfl) hs, hend⟩

end

end Feed

/-! ## Cursors -/

section

variable (rename : PatternId → PatternId) (same : UInt8 → UInt8 → Prop)

/-- The cursors are at the same place of texts that are the same, in arenas that
are alike. -/
structure Cursor.Alike (c c' : Cursor) : Prop where
  arena : c.automaton.arena.Alike rename same c'.automaton.arena
  kind : c.automaton.settings.kind = c'.automaton.settings.kind
  haystack : List.Forall₂ same c.haystack.toList c'.haystack.toList
  position : c.position = c'.position
  state : c.state = c'.state
  pending : c.pending = c'.pending.map rename
  pendingLast : c.pendingLast = c'.pendingLast
  dead : c.dead = c'.dead

/-- The rounds come to the same. -/
inductive Round.Alike : Round → Round → Prop where
  | report {h : Hit} {c c' : Cursor} (hc : c.Alike rename same c') :
      Alike (.report (h.rename rename) c) (.report h c')
  | fall {c c' : Cursor} (hc : c.Alike rename same c') : Alike (.fall c) (.fall c')
  | read {c c' : Cursor} (hc : c.Alike rename same c') : Alike (.read c) (.read c')
  | over {c c' : Cursor} (hc : c.Alike rename same c') : Alike (.over c) (.over c')

end

namespace Cursor.Alike

variable {rename : PatternId → PatternId} {same : UInt8 → UInt8 → Prop} {c c' : Cursor}

theorem here (h : c.Alike rename same c') : c.here.Alike rename same c'.here := by
  rw [Cursor.here, Cursor.here, h.state]
  exact h.arena.state _

theorem byte (h : c.Alike rename same c') :
    Option.Rel same c.haystack[c.position]? c'.haystack[c'.position]? := by
  have hlength := h.haystack.length_eq
  rw [Array.length_toList, Array.length_toList] at hlength
  rw [← h.position]
  rcases Nat.lt_or_ge c.position c.haystack.size with hlt | hge
  · rw [Array.getElem?_eq_getElem hlt, Array.getElem?_eq_getElem (hlength ▸ hlt)]
    exact Option.Rel.some (h.haystack.get (by simpa using hlt) (by simpa [← hlength] using hlt))
  · rw [Array.getElem?_eq_none hge, Array.getElem?_eq_none (hlength ▸ hge)]
    exact Option.Rel.none

theorem reported_map (kind : MatchKind) (outputs : List PatternId) :
    reported kind (outputs.map rename) = (reported kind outputs).map rename := by
  rw [reported, reported]
  split
  · rw [List.map_take]
  · rfl

theorem enter (h : c.Alike rename same c') (target : StateId) :
    (c.enter target).Alike rename same (c'.enter target) := by
  have hout := (h.arena.state target).outputs
  have hposition : c.position + 1 = c'.position + 1 := by rw [h.position]
  cases hempty : (c'.automaton.arena.state target).outputs with
  | nil =>
      rw [hempty] at hout
      rw [Cursor.enter, Cursor.enter, hout, hempty]
      exact ⟨h.arena, h.kind, h.haystack, hposition, rfl, h.pending, h.pendingLast, h.dead⟩
  | cons p rest =>
      rw [hempty] at hout
      rw [Cursor.enter, Cursor.enter, hout, hempty]
      refine ⟨h.arena, h.kind, h.haystack, hposition, rfl, ?_, h.position, h.dead⟩
      simp only [h.kind]
      exact reported_map _ (p :: rest)

/-- Cursors that are alike take the same round. -/
theorem round (h : c.Alike rename same c') : Round.Alike rename same c.round c'.round := by
  cases hp : c'.pending with
  | cons p rest =>
      have hp' : c.pending = rename p :: rest.map rename := by rw [h.pending, hp, List.map_cons]
      rw [round_of_pending hp, round_of_pending hp', h.pendingLast]
      refine Round.Alike.report (h := ⟨p, c'.pendingLast⟩) ?_
      exact ⟨h.arena, h.kind, h.haystack, h.position, h.state, rfl, rfl, h.dead⟩
  | nil =>
      have hp' : c.pending = [] := by rw [h.pending, hp, List.map_nil]
      cases hd : c'.dead with
      | true =>
          rw [round_of_dead hp hd, round_of_dead hp' (h.dead.trans hd)]
          exact Round.Alike.over h
      | false =>
          have hbyte := h.byte
          generalize hb : c.haystack[c.position]? = o, hb' : c'.haystack[c'.position]? = o' at hbyte
          cases hbyte with
          | none =>
              rw [round_at_end hp hb', round_at_end hp' hb]
              exact Round.Alike.over h
          | some hsame =>
              rw [round_at_byte hp hd hb', round_at_byte hp' (h.dead.trans hd) hb,
                h.here.next _ _ hsame]
              split
              · rw [h.here.failure]
                exact Round.Alike.fall ⟨h.arena, h.kind, h.haystack, h.position, rfl, h.pending,
                  h.pendingLast, h.dead⟩
              · split
                · exact Round.Alike.over ⟨h.arena, h.kind, h.haystack, h.position, h.state,
                    h.pending, h.pendingLast, rfl⟩
                · exact Round.Alike.read (h.enter _)

theorem go (h : c.Alike rename same c') (fuel : Nat) :
    (go fuel c).1 = (go fuel c').1.map (Hit.rename rename) ∧
      (go fuel c).2.Alike rename same (go fuel c').2 := by
  induction fuel generalizing c c' with
  | zero => exact ⟨rfl, h⟩
  | succ fuel ih =>
      have hround := h.round
      rw [Cursor.go, Cursor.go]
      generalize c.round = r, c'.round = r' at hround ⊢
      cases hround with
      | report hc => exact ⟨rfl, hc⟩
      | fall hc => exact ih hc
      | read hc => exact ih hc
      | «over» hc => exact ⟨rfl, hc⟩

/-- A question is answered alike: the two have the same number of rounds to
go. -/
theorem next (h : c.Alike rename same c') :
    c.next.1 = c'.next.1.map (Hit.rename rename) ∧ c.next.2.Alike rename same c'.next.2 := by
  have hpotential : c.potential = c'.potential := by
    have hlength := h.haystack.length_eq
    rw [Array.length_toList, Array.length_toList] at hlength
    rw [potential, potential, h.position, h.here.depth, hlength]
  rw [Cursor.next, Cursor.next, hpotential]
  exact h.go _

end Cursor.Alike

/-! ## Scans -/

namespace Automaton

variable {rename : PatternId → PatternId} {same : UInt8 → UInt8 → Prop} {a a' : Automaton}
  {haystack haystack' : Bytes}

theorem scan_alike (h : a.arena.Alike rename same a'.arena)
    (hkind : a.settings.kind = a'.settings.kind) (htext : List.Forall₂ same haystack haystack') :
    (a.scan haystack).Alike rename same (a'.scan haystack') :=
  ⟨h, hkind, htext, rfl, rfl, rfl, rfl, rfl⟩

/-- Scans that are alike give the same hits and end alike. -/
theorem gives_alike {st st' : Settings} {patterns patterns' : List Bytes}
    (h : ((compile st patterns).scan haystack).Alike rename same
      ((compile st' patterns').scan haystack')) :
    ∃ hits c c',
      Feed.Gives ((compile st patterns).scan haystack) (hits.map (Hit.rename rename)) c ∧
        Feed.drain ((compile st patterns).scan haystack) = (hits.map (Hit.rename rename), c) ∧
        Feed.Gives ((compile st' patterns').scan haystack') hits c' ∧
        Feed.drain ((compile st' patterns').scan haystack') = (hits, c') ∧
        c.Alike rename same c' := by
  obtain ⟨c, hits, hgives, hdrain, -, -⟩ := drain_scan st patterns haystack
  obtain ⟨c', hits', hgives', hdrain', -, -⟩ := drain_scan st' patterns' haystack'
  obtain ⟨c₁, hgives₁, hend⟩ := hgives'.alike (fun _ _ => Cursor.Alike.next) h
  obtain ⟨rfl, rfl⟩ := hgives.unique hgives₁
  exact ⟨hits', c, c', hgives, hdrain, hgives', hdrain', hend⟩

end Automaton

end MultiPattern
