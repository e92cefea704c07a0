import MultiPattern.Proofs.Standard

/-!
# Nothing is read out of bounds

A scan reads its arena under names that the arena gave it, takes the first of a
state's reports where the rule asks for one, and counts the bytes it has read.
Each of these has an answer for every input in `Cursor.round`: a fresh state, no
report, a larger number. Here the same round is written so that it may fail
instead (`roundChecked`), and a question is answered only if all of its rounds
come to something (`Cursor.Answers`).

It never fails. A finished arena is closed, for what its states refer to are the
places of strings of its tree (`State.Within`), and a cursor that keeps such a
string is in a state that is there. That it does is kept by every round and so
by every question, and rounds come to an end because the potential falls.

What is reported ends in the text at the byte that was read, so the place of an
occurrence is one of the text and its bytes are those of the pattern.
-/

namespace MultiPattern

namespace Feed

variable {σ α : Type} [Feed σ α] {s s' : σ} {items : List α}

/-- The state after `n` questions, those asked at the end among them. -/
def after (n : Nat) (s : σ) : σ :=
  (fun s => (next s).2)^[n] s

theorem after_succ (n : Nat) (s : σ) : after (n + 1) s = after n (next s).2 :=
  rfl

theorem after_induction {motive : σ → Prop} (h : motive s)
    (step : ∀ s, motive s → motive (next s).2) (n : Nat) : motive (after n s) := by
  induction n generalizing s with
  | zero => exact h
  | succ n ih => exact ih (step s h)

/-- If nothing changes at the end any more, questions may go on behind it. -/
theorem Gives.after (h : Gives s items s') (hend : next s' = (none, s')) (n : Nat) :
    Gives (Feed.after n s) (items.drop n) s' := by
  induction n generalizing s items with
  | zero => exact h
  | succ n ih =>
      cases h with
      | nil h =>
          have hrest := ih (Gives.nil hend)
          rw [after_succ, h, List.drop_nil]
          rwa [List.drop_nil] at hrest
      | cons h rest =>
          rw [after_succ, h]
          exact ih rest

theorem Gives.mem_of_next (h : Gives s items s') {x : α} (hx : (next s).1 = some x) : x ∈ items := by
  cases h with
  | nil h =>
      rw [h] at hx
      cases hx
  | cons h rest =>
      rw [h] at hx
      cases hx
      exact List.mem_cons_self

end Feed

/-! ## A closed arena -/

/-- All that the state refers to is one of so many states, or of so many
patterns, and its reports are in order. -/
structure State.Within (x : State) (states patterns : Nat) : Prop where
  next : ∀ b target, x.next.get b = some target → target.index < states
  failure : x.failure.index < states
  outputs : ∀ p ∈ x.outputs, p.index < patterns
  ascending : x.outputs.Pairwise (·.index < ·.index)

namespace Arena.Compiled

variable {a : Arena} {foldCase : Bool} {L : Lexicon} {w : Bytes}

theorem place_lt (h : a.Compiled foldCase L) {kept : Option Bytes}
    (hmem : ∀ w, kept = some w → w ∈ L.strings) : (L.place kept).index < a.size := by
  rw [h.size]
  cases kept with
  | none => exact Nat.lt_add_left _ Nat.one_lt_two
  | some w => exact Strings.id_index_lt (hmem w rfl)

theorem next_lt (h : a.Compiled foldCase L) (hw : w ∈ L.strings) {b : UInt8} {target : StateId}
    (hnext : a.next (L.strings.id w) b = some target) : target.index < a.size := by
  by_cases hb : w ++ [Byte.canonical foldCase b] ∈ L.strings
  · rw [h.next_of_mem hb] at hnext
    cases hnext
    rw [h.size]
    exact Strings.id_index_lt hb
  · by_cases hne : w = []
    · subst hne
      rw [Strings.id_nil, h.next_start_of_notMem hb] at hnext
      cases hnext
      rw [h.size]
      split
      · exact Nat.lt_add_left _ Nat.one_lt_two
      · exact Nat.lt_add_left _ Nat.two_pos
    · rw [h.next_of_notMem hw hne hb] at hnext
      cases hnext

theorem within {words : List Bytes} {kind : MatchKind} (h : a.Compiled foldCase (.ofWords kind words))
    {s : StateId} (hs : s.index < a.size) : (a.state s).Within a.size words.length := by
  have hsize := h.size
  -- The state of a string, the dead state, or a name that was not given out.
  rcases h.state_cases s with ⟨w, hw, rfl⟩ | rfl | ⟨hge, -⟩
  · refine ⟨fun b target hnext => h.next_lt hw hnext, ?_, ?_, ?_⟩
    · rw [h.failure w hw]
      exact h.place_lt fun u hu => Lexicon.fallback_mem hu
    · intro p hp
      rw [h.outputs w hw] at hp
      obtain ⟨u, -, hu⟩ := Lexicon.exists_mem_outputs_of_mem_heard hp
      exact (mem_registeredAs.1 hu).lt_length
    · rw [h.outputs w hw]
      exact Lexicon.pairwise_heard _ w
  · refine ⟨fun b target hnext => ?_, ?_, ?_, ?_⟩
    · rw [show (a.state .dead).next.get b = some .dead from h.next_dead b] at hnext
      cases hnext
      exact hs
    · rw [h.failure_dead, hsize]
      exact Nat.succ_pos _
    · rw [h.dead.2]
      exact fun p hp => absurd hp List.not_mem_nil
    · rw [h.dead.2]
      exact List.Pairwise.nil
  · omega

end Arena.Compiled

theorem Automaton.state_of_lt {a : Automaton} {s : StateId} (h : s.index < a.arena.size) :
    a.state s = .ok (a.arena.state s) := by
  cases hs : a.arena.state? s with
  | none => exact absurd (Arena.state?_eq_none_iff.1 hs) (Nat.not_le.2 h)
  | some x => rw [state, Arena.state, hs, Option.getD_some, Fault.ifNone]

theorem Automaton.eq_of_state_eq_ok {a : Automaton} {s : StateId} {x : State} (h : a.state s = .ok x) :
    s.index < a.arena.size ∧ a.arena.state s = x := by
  rcases Nat.lt_or_ge s.index a.arena.size with hlt | hge
  · rw [state_of_lt hlt] at h
    exact ⟨hlt, Except.ok.inj h⟩
  · rw [state, Arena.state?_eq_none_iff.2 hge] at h
    cases h

/-! ## Rounds that may fail -/

/-- The cursor that the round leaves. -/
def Round.after : Round → Cursor
  | .report _ after => after
  | .fall after => after
  | .read after => after
  | .over after => after

namespace Cursor

/-- The patterns reported on entering a state, if there are as many as are
asked for. -/
def reportedChecked (kind : MatchKind) (outputs : List PatternId) : Except Fault (List PatternId) :=
  if kind.isLeftmost then do
    let p ← (Fault.noEntry outputs.length 0).ifNone outputs[0]?
    return [p]
  else return outputs

/-- Read a byte and enter a state, if the state is there and the offset fits a
word. -/
def enterChecked (c : Cursor) (target : StateId) : Except Fault Cursor := do
  let position ← successor c.position
  let entered ← c.automaton.state target
  let moved := { c with state := target, position }
  if entered.outputs.isEmpty then return moved
  else
    let pending ← reportedChecked c.automaton.settings.kind entered.outputs
    return { moved with pending, pendingLast := c.position }

/-- One round, if what it asks for is there. -/
def roundChecked (c : Cursor) : Except Fault Round :=
  match c.pending with
  | p :: rest => .ok (.report ⟨p, c.pendingLast⟩ { c with pending := rest })
  | [] =>
      if c.dead then .ok (.over c)
      else
        match c.haystack[c.position]? with
        | none => .ok (.over c)
        | some b => do
            let here ← c.automaton.state c.state
            match here.next.get b with
            | none => return .fall { c with state := here.failure }
            | some target =>
                if target = .dead then return .over { c with dead := true }
                else return .read (← c.enterChecked target)

/-- Going round without a fault, the next hit and the cursor after it are
these. -/
inductive Answers : Cursor → Option Hit × Cursor → Prop where
  | report {c after : Cursor} {hit : Hit} (h : c.roundChecked = .ok (.report hit after)) :
      Answers c (some hit, after)
  | over {c after : Cursor} (h : c.roundChecked = .ok (.over after)) : Answers c (none, after)
  | fall {c after : Cursor} {answer : Option Hit × Cursor} (h : c.roundChecked = .ok (.fall after))
      (rest : Answers after answer) : Answers c answer
  | read {c after : Cursor} {answer : Option Hit × Cursor} (h : c.roundChecked = .ok (.read after))
      (rest : Answers after answer) : Answers c answer

variable {c c' : Cursor} {L : Lexicon} {kept : Option Bytes} {target : StateId} {fuel : Nat}

theorem reportedChecked_eq (kind : MatchKind) {outputs : List PatternId} (h : outputs ≠ []) :
    reportedChecked kind outputs = .ok (reported kind outputs) := by
  cases outputs with
  | nil => exact absurd rfl h
  | cons p rest =>
      rw [reportedChecked, reported]
      split
      · rfl
      · rfl

theorem enterChecked_eq (hposition : c.position + 1 < wordBound)
    (htarget : target.index < c.automaton.arena.size) :
    c.enterChecked target = .ok (c.enter target) := by
  rw [enterChecked, successor, if_pos hposition, Automaton.state_of_lt htarget, enter]
  cases hout : (c.automaton.arena.state target).outputs with
  | nil => simp [hout, bind, Except.bind, pure, Except.pure]
  | cons p rest =>
      simp [hout, reportedChecked_eq _ (List.cons_ne_nil p rest), bind, Except.bind, pure,
        Except.pure]

namespace Keeps

theorem state_lt (h : c.Keeps L kept) : c.state.index < c.automaton.arena.size := by
  rw [h.state]
  exact h.automaton.compiled.place_lt h.mem

theorem target_lt (h : c.Keeps L kept) {b : UInt8} (hnext : c.here.next.get b = some target) :
    target.index < c.automaton.arena.size := by
  have hcompiled := h.automaton.compiled
  rw [here, h.state] at hnext
  cases kept with
  | some w => exact hcompiled.next_lt (h.mem w rfl) hnext
  | none =>
      obtain rfl : .dead = target := Option.some.inj ((hcompiled.next_dead b).symm.trans hnext)
      have hdead := hcompiled.place_lt h.mem
      exact hdead

/-- No round of a cursor that keeps a string fails. -/
theorem roundChecked_eq (h : c.Keeps L kept) (hsize : c.haystack.size < wordBound) :
    c.roundChecked = .ok c.round := by
  rw [roundChecked, round]
  cases c.pending with
  | cons p rest => rfl
  | nil =>
      cases hd : c.dead with
      | true => rfl
      | false =>
          cases hb : c.haystack[c.position]? with
          | none => rfl
          | some b =>
              have hlt : c.position < c.haystack.size := (Array.getElem?_eq_some_iff.1 hb).1
              have hstate : c.automaton.state c.state = .ok c.here := Automaton.state_of_lt h.state_lt
              simp only [hstate, bind, Except.bind, pure, Except.pure, Bool.false_eq_true, if_false]
              cases hnext : c.here.next.get b with
              | none => rfl
              | some target =>
                  simp only [enterChecked_eq (by omega) (h.target_lt hnext)]
                  split
                  · rfl
                  · rfl

theorem after_round (h : c.Keeps L kept) : ∃ kept, c.round.after.Keeps L kept := by
  cases hp : c.pending with
  | cons p rest =>
      rw [round_of_pending hp]
      exact ⟨kept, h.automaton, h.state, h.mem⟩
  | nil =>
      cases hd : c.dead with
      | true =>
          rw [round_of_dead hp hd]
          exact ⟨kept, h⟩
      | false =>
          cases hb : c.haystack[c.position]? with
          | none =>
              rw [round_at_end hp hb]
              exact ⟨kept, h⟩
          | some b =>
              rcases h.round_cases hp hd hb with
                ⟨-, -, hr⟩ | ⟨w, -, -, -, hr⟩ | ⟨w, u, -, hu, -, -, hr⟩
              · rw [hr]
                exact ⟨kept, h.automaton, h.state, h.mem⟩
              · rw [hr]
                exact ⟨_, h.fall w⟩
              · rw [hr]
                exact ⟨_, h.enter hp (Lexicon.settle_eq_some hu).2⟩

end Keeps

/-- A round changes neither the automaton nor the text. -/
theorem frame_after_round (c : Cursor) :
    c.round.after.automaton = c.automaton ∧ c.round.after.haystack = c.haystack := by
  rw [round]
  split
  · exact ⟨rfl, rfl⟩
  · split
    · exact ⟨rfl, rfl⟩
    · split
      · exact ⟨rfl, rfl⟩
      · split
        · exact ⟨rfl, rfl⟩
        · split
          · exact ⟨rfl, rfl⟩
          · rw [Round.after, enter]
            dsimp only
            split
            · exact ⟨rfl, rfl⟩
            · exact ⟨rfl, rfl⟩

/-- What lets every round succeed: the cursor keeps a string, or nothing, and
the offsets of its text fit a word. -/
structure Fits (c : Cursor) (L : Lexicon) : Prop where
  keeps : ∃ kept, c.Keeps L kept
  size : c.haystack.size < wordBound

namespace Fits

theorem after_round (h : c.Fits L) : c.round.after.Fits L := by
  obtain ⟨kept, hkeeps⟩ := h.keeps
  refine ⟨hkeeps.after_round, ?_⟩
  rw [(frame_after_round c).2]
  exact h.size

theorem answers_go (h : c.Fits L) (hfuel : c.potential < fuel) :
    c.Answers (go fuel c) ∧ (go fuel c).2.Fits L := by
  -- The fuel never runs out: a round that moves the cursor lowers its potential.
  induction fuel generalizing c with
  | zero => exact absurd hfuel (Nat.not_lt_zero _)
  | succ fuel ih =>
      obtain ⟨kept, hkeeps⟩ := h.keeps
      have hround := hkeeps.roundChecked_eq h.size
      have hafter := h.after_round
      have hless : ∀ {c'}, c.Moves c' → c'.potential < fuel := by
        intro c' hm
        obtain ⟨kept', -, hlt⟩ := hkeeps.moves hm
        omega
      rw [go]
      cases hr : c.round with
      | report hit after =>
          rw [hr] at hround hafter
          exact ⟨Answers.report hround, hafter⟩
      | «over» after =>
          rw [hr] at hround hafter
          exact ⟨Answers.over hround, hafter⟩
      | fall after =>
          rw [hr] at hround hafter
          obtain ⟨hrest, hend⟩ := ih hafter (hless (Or.inl hr))
          exact ⟨Answers.fall hround hrest, hend⟩
      | read after =>
          rw [hr] at hround hafter
          obtain ⟨hrest, hend⟩ := ih hafter (hless (Or.inr hr))
          exact ⟨Answers.read hround hrest, hend⟩

theorem answers_next (h : c.Fits L) : c.Answers c.next ∧ c.next.2.Fits L :=
  h.answers_go (Nat.lt_succ_self _)

end Fits

end Cursor

theorem Automaton.scan_keeps (st : Settings) (patterns : List Bytes) (haystack : Bytes) :
    ((compile st patterns).scan haystack).Keeps (.ofWords st.kind (patterns.map st.canon))
      (some []) := by
  refine ⟨of_compile st patterns, rfl, fun w hw => ?_⟩
  cases hw
  exact Strings.nil_mem _

theorem Automaton.scan_fits (st : Settings) (patterns : List Bytes) {haystack : Bytes}
    (hlt : haystack.length < wordBound) :
    ((compile st patterns).scan haystack).Fits (.ofWords st.kind (patterns.map st.canon)) :=
  ⟨⟨_, scan_keeps st patterns haystack⟩, hlt⟩

/-! ## Where occurrences are -/

theorem Search.after_eq (m : Matcher) (c : Cursor) (n : Nat) :
    Feed.after n (⟨m, c⟩ : Search) = ⟨m, Feed.after n c⟩ := by
  induction n generalizing c with
  | zero => rfl
  | succ n ih => exact ih (Feed.next c).2

namespace Matcher

variable {st : Settings} {patterns : List Bytes} {haystack bytes : Bytes} {h : Hit} {n : Nat}

theorem canon_extract_of_suffix {start stop : Nat} (hstop : start + bytes.length = stop)
    (hle : stop ≤ haystack.length) (hsuffix : st.canon bytes <:+ st.canon (haystack.take stop)) :
    (haystack.extract start stop).length = bytes.length ∧
      st.canon (haystack.extract start stop) = st.canon bytes := by
  have hlength : (haystack.extract start stop).length = bytes.length := by
    simp only [List.extract_eq_take_drop, List.length_take, List.length_drop]
    omega
  refine ⟨hlength, ?_⟩
  have hdrop : haystack.extract start stop = (haystack.take stop).drop start := by
    rw [List.extract_eq_take_drop, List.drop_take]
  have hend : st.canon (haystack.extract start stop) <:+ st.canon (haystack.take stop) := by
    rw [hdrop, Settings.canon, List.map_drop]
    exact List.drop_suffix _ _
  refine (List.suffix_of_suffix_length_le hend hsuffix ?_).eq_of_length ?_
  · rw [Settings.length_canon, Settings.length_canon, hlength]
  · rw [Settings.length_canon, Settings.length_canon, hlength]

theorem pattern_eq (hp : patterns[h.pattern.index]? = some bytes) :
    (build st patterns).pattern h.pattern = .ok bytes := by
  rw [pattern, build, List.getElem?_toArray, hp, Fault.ifNone]

/-- An occurrence that is found can be asked for all it has: its pattern is
there, its offsets fit a word and are in the text, and its bytes stand there. -/
structure Stands (m : Matcher) (haystack : Bytes) (x : Occurrence) : Prop where
  pattern : m.pattern x.pattern = .ok x.bytes
  stop : successor x.last = .ok (x.last + 1)
  start : x.start + x.length = x.last + 1
  range : x.range = .ok (x.start, x.last + 1)
  stop_le : x.last + 1 ≤ haystack.length
  length : (haystack.extract x.start (x.last + 1)).length = x.length
  bytes : m.automaton.settings.canon (haystack.extract x.start (x.last + 1)) =
    m.automaton.settings.canon x.bytes

theorem stands_of_mem_hits (hlt : haystack.length < wordBound)
    (hh : h ∈ (Lexicon.ofWords st.kind (patterns.map st.canon)).hits (st.canon haystack) n)
    (hn : n ≤ haystack.length) :
    (build st patterns).Stands haystack ((build st patterns).occurrence h) := by
  obtain ⟨hlast, u, hu, hsuffix⟩ := Lexicon.exists_suffix_of_mem_hits hh
  rw [List.getElem?_map, Option.map_eq_some_iff] at hu
  obtain ⟨bytes, hp, rfl⟩ := hu
  rw [← Settings.canon_take] at hsuffix
  generalize hx : (build st patterns).occurrence h = x
  obtain ⟨hpattern, rfl, hend, hstart⟩ :=
    (occurrence_eq_iff hp (length_le_of_suffix_take hsuffix)).1 hx
  rw [← hend] at hsuffix hlast
  have hstop : successor x.last = .ok (x.last + 1) := if_pos (by omega)
  obtain ⟨hlength, hbytes⟩ := canon_extract_of_suffix hstart (by omega) hsuffix
  refine ⟨?_, hstop, hstart, ?_, by omega, hlength, hbytes⟩
  · rw [hpattern]
    exact pattern_eq hp
  · rw [Occurrence.range, hstop]
    rfl

/-- Compiled patterns refer to nothing that is not there, and no question that a
search of a text is asked goes wrong, however often it was asked before: what it
reads is in its arena, and what it reports is in the text. -/
theorem search_answers (st : Settings) (patterns : List Bytes) (haystack : Bytes)
    (hlt : haystack.length < wordBound) :
    let m := build st patterns
    let a := m.automaton
    (∀ s x, a.state s = .ok x → x.Within a.arena.size a.patternCount) ∧
      ∀ n,
        (Feed.after n (a.scan haystack)).Answers (Feed.after n (a.scan haystack)).next ∧
          (Feed.after n (m.search haystack)).cursor.Answers
            (Feed.after n (m.search haystack)).cursor.next ∧
          ∀ x, (Feed.after n (m.search haystack)).next.1 = some x → m.Stands haystack x := by
  intro m a
  refine ⟨fun s x hx => ?_, fun n => ?_⟩
  · obtain ⟨hs, rfl⟩ := Automaton.eq_of_state_eq_ok hx
    rw [show a.patternCount = _ from Automaton.patternCount_compile st patterns,
      ← List.length_map st.canon]
    exact (Automaton.of_compile st patterns).compiled.within hs
  · have hfits : (Feed.after n (a.scan haystack)).Fits (.ofWords st.kind (patterns.map st.canon)) :=
      Feed.after_induction (motive := fun c : Cursor => c.Fits _)
        (Automaton.scan_fits st patterns hlt) (fun _ h => h.answers_next.2) n
    have hsearch : Feed.after n (m.search haystack) = ⟨m, Feed.after n (a.scan haystack)⟩ :=
      Search.after_eq m _ n
    rw [hsearch]
    refine ⟨hfits.answers_next.1, hfits.answers_next.1, ?_⟩
    intro x hx
    obtain ⟨c, hits, hgives, -, rfl, hended⟩ := Automaton.drain_scan st patterns haystack
    obtain ⟨h, hh, rfl⟩ := Option.map_eq_some_iff.1 hx
    have hposition := hended.position_le
    rw [Settings.length_canon] at hposition
    have hrest := hgives.after hended.asked n
    exact stands_of_mem_hits hlt (List.mem_of_mem_drop (hrest.mem_of_next hh)) hposition

/-- The pattern Ab is found in the text aB by the third question, behind the
empty pattern at either byte. -/
theorem search_answers_folded :
    List.length ([0x61, 0x42] : Bytes) < wordBound ∧
      (build { foldCase := true } [[], [0x41, 0x62]]).Stands [0x61, 0x42]
        ⟨⟨1⟩, [0x41, 0x62], 0, 1⟩ := by
  have hlt : List.length ([0x61, 0x42] : Bytes) < wordBound := by decide
  have hall := search_answers { foldCase := true } [[], [0x41, 0x62]] [0x61, 0x42] hlt
  exact ⟨hlt, (hall.2 2).2.2 _ (by decide +kernel)⟩

end Matcher

end MultiPattern
