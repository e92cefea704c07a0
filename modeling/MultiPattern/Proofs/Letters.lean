import MultiPattern.Proofs.CodePoints

/-!
# The letters of an alphabet

An alphabet that began empty is determined by the representatives of the bytes
that were added, in the order in which each was first met. `letters` is that
list, and every question about the alphabet is answered from it: it is the list
of bytes that is kept, and the code point of a byte is a place in it. Adding
appends to the list, so places stay what they are, and that is why a code point
once given is never changed.

The alphabet of a finished automaton is that of the patterns that are kept, one
behind the other. A byte of theirs is on the way from one string of the tree to
the next, so the bytes with a code point are those that some transition into the
tree is for.
-/

namespace MultiPattern

namespace Alphabet

/-- The representatives of bytes, each where it is met first. -/
def letters (foldCase : Bool) (bs : Bytes) : Bytes :=
  (bs.map (Byte.canonical foldCase)).eraseDups

variable {a a' : Alphabet} {b : UInt8} {c : CodePoint} {foldCase : Bool} {bs xs later : Bytes}
  {i : Nat}

theorem mem_letters : b ∈ letters foldCase bs ↔ ∃ x ∈ bs, Byte.canonical foldCase x = b := by
  rw [letters, List.mem_eraseDups, List.mem_map]

/-- Two bytes have one representative if they are equal or, under folding, of
opposite case. -/
theorem canonical_mem_letters :
    Byte.canonical foldCase b ∈ letters foldCase bs ↔
      b ∈ bs ∨ (foldCase = true ∧ Byte.swapCase b ∈ bs) := by
  rw [mem_letters]
  refine ⟨fun h => ?_, fun h => ?_⟩
  · obtain ⟨x, hx, heq⟩ := h
    rcases Byte.canonical_eq_canonical_iff.1 heq with rfl | ⟨hfold, rfl⟩
    · exact Or.inl hx
    · exact Or.inr ⟨hfold, by rwa [Byte.swapCase_swapCase]⟩
  · rcases h with hb | ⟨hfold, hb⟩
    · exact ⟨b, hb, rfl⟩
    · exact ⟨_, hb, Byte.canonical_eq_canonical_iff.2 (Or.inr ⟨hfold, Byte.swapCase_swapCase b⟩)⟩

theorem foldCase_addAll (a : Alphabet) (later : Bytes) :
    (a.addAll later).foldCase = a.foldCase := by
  induction later generalizing a with
  | nil => rfl
  | cons b later ih => exact (ih (a.add b)).trans (foldCase_add a b)

namespace Sound

theorem bytes_add_eq (h : a.Sound) (hbytes : a.bytes = xs.eraseDups) (b : UInt8) :
    (a.add b).bytes = (xs ++ [a.canonical b]).eraseDups := by
  simp only [h.bytes_add, eraseDups_concat, ← hbytes, ← List.mem_eraseDups (l := xs)]

theorem bytes_addAll_eq (h : a.Sound) (hbytes : a.bytes = xs.eraseDups) :
    (a.addAll bs).bytes = (xs ++ bs.map a.canonical).eraseDups := by
  induction bs generalizing a xs with
  | nil =>
      rw [List.map_nil, List.append_nil]
      exact hbytes
  | cons b bs ih =>
      rw [addAll_cons, ih (h.add b) (h.bytes_add_eq hbytes b), canonical_add, List.map_cons,
        List.append_assoc]
      rfl

/-! ## Code points are places -/

theorem codePoint_getElem (h : a.Sound) (hi : i < a.bytes.length) :
    (a.codePoint a.bytes[i]).toNat = i + 1 := by
  have hcanonical := h.canonical _ (List.getElem_mem hi)
  have hmem : a.canonical a.bytes[i] ∈ a.bytes := hcanonical.symm ▸ List.getElem_mem hi
  rw [h.toNat_codePoint hmem, hcanonical, h.nodup.idxOf_getElem i hi]

theorem codePoint_of_getElem? (h : a.Sound) (hb : a.bytes[i]? = some (a.canonical b)) :
    (a.codePoint b).toNat = i + 1 := by
  obtain ⟨hi, heq⟩ := List.getElem?_eq_some_iff.1 hb
  have hsame : a.codePoint b = a.codePoint a.bytes[i] :=
    h.codePoint_eq_iff.2 (Or.inl (by rw [heq, canonical_canonical]))
  rw [hsame, h.codePoint_getElem hi]

theorem codePoint_le_size (h : a.Sound) (b : UInt8) : (a.codePoint b).toNat ≤ a.size := by
  by_cases hb : a.canonical b ∈ a.bytes
  · rw [h.toNat_codePoint hb]
    exact List.idxOf_lt_length_of_mem hb
  · rw [h.codePoint, if_neg hb]
    exact Nat.zero_le _

theorem byte?_codePoint (h : a.Sound) (hb : a.canonical b ∈ a.bytes) :
    a.byte? (a.codePoint b) = some (a.canonical b) := by
  rw [byte?, if_neg (h.codePoint_ne_zero_iff.2 hb), h.toNat_codePoint hb, Nat.add_sub_cancel]
  exact List.getElem?_idxOf hb

/-- Every number up to the size is the code point of the byte it stands for. -/
theorem exists_byte? (h : a.Sound) (hpos : 1 ≤ c.toNat) (hle : c.toNat ≤ a.size) :
    ∃ b, a.byte? c = some b ∧ a.codePoint b = c := by
  have hlt : c.toNat - 1 < a.bytes.length := Nat.sub_one_lt_of_le hpos hle
  have hne : c ≠ 0 := fun hzero => absurd hpos (by rw [hzero]; decide)
  refine ⟨a.bytes[c.toNat - 1], ?_, UInt16.toNat_inj.1 ?_⟩
  · rw [byte?, if_neg hne, List.getElem?_eq_getElem hlt]
  · rw [h.codePoint_getElem hlt, Nat.sub_add_cancel hpos]

theorem byte?_eq_none (hc : c.toNat = 0 ∨ a.size < c.toNat) : a.byte? c = none := by
  rw [byte?]
  split
  · rfl
  · next hne =>
      have hpos : c.toNat ≠ 0 := fun hzero => hne (UInt16.toNat_inj.1 hzero)
      have hlt : a.bytes.length < c.toNat := hc.resolve_left hpos
      rw [List.getElem?_eq_none_iff]
      omega

/-- The code point that is answered is the one in the table. -/
theorem assign_fst (h : a.Sound) (b : UInt8) : (a.assign b).1 = (a.add b).codePoint b := by
  rw [Alphabet.add, assign]
  dsimp only
  split
  · exact h.codePoint_eq_iff.2 (Or.inl (canonical_canonical a b))
  · show _ = (a.codesWith (a.canonical b) _).get b
    rw [get_codesWith, if_pos (canonical_canonical a b)]

theorem canonical_mem_bytes_add (h : a.Sound) (b : UInt8) :
    (a.add b).canonical b ∈ (a.add b).bytes := by
  rw [canonical_add, h.mem_bytes_add]
  exact Or.inr rfl

/-- A byte that is not there gets the number of those that are, and one more. -/
theorem toNat_assign_of_notMem (h : a.Sound) (hb : a.canonical b ∉ a.bytes) :
    (a.assign b).1.toNat = a.size + 1 := by
  rw [h.assign_fst, (h.add b).toNat_codePoint (h.canonical_mem_bytes_add b), canonical_add,
    h.bytes_add, if_neg hb, List.idxOf_append_of_notMem hb, List.idxOf_cons_self, size]

/-! ## What is added later -/

theorem exists_bytes_addAll (h : a.Sound) (later : Bytes) :
    ∃ new, (a.addAll later).bytes = a.bytes ++ new := by
  induction later generalizing a with
  | nil => exact ⟨[], (List.append_nil _).symm⟩
  | cons b later ih =>
      obtain ⟨new, hnew⟩ := ih (h.add b)
      rw [addAll_cons, hnew, h.bytes_add]
      split
      · exact ⟨new, rfl⟩
      · exact ⟨a.canonical b :: new, List.append_assoc _ _ _⟩

/-- The list grows at its end, and so places stay what they are. -/
theorem codePoint_addAll (h : a.Sound) (hb : a.canonical b ∈ a.bytes) (later : Bytes) :
    (a.addAll later).codePoint b = a.codePoint b := by
  obtain ⟨new, hnew⟩ := h.exists_bytes_addAll later
  have hcanonical : (a.addAll later).canonical b = a.canonical b := by
    rw [Alphabet.canonical, foldCase_addAll]
    rfl
  have hlater : (a.addAll later).canonical b ∈ (a.addAll later).bytes := by
    rw [hcanonical, hnew]
    exact List.mem_append_left _ hb
  rw [(h.addAll later).codePoint_of_mem hlater, h.codePoint_of_mem hb, hcanonical, hnew,
    List.idxOf_append_of_mem hb]

theorem assign_fst_addAll (h : a.Sound) (b : UInt8) (later : Bytes) :
    (a.assign b).1 = ((a.add b).addAll later).codePoint b := by
  rw [h.assign_fst, (h.add b).codePoint_addAll (h.canonical_mem_bytes_add b)]

/-- Each byte that is added in turn is answered with the code point that it has in
the end. -/
theorem assignAll_fst (h : a.Sound) (bs : Bytes) :
    (a.assignAll bs).1 = bs.map (a.addAll bs).codePoint := by
  induction bs generalizing a with
  | nil => rfl
  | cons b rest ih =>
      have hlast : a.addAll (b :: rest) = (a.add b).addAll rest := rfl
      rw [List.map_cons, hlast, ← h.assign_fst_addAll b rest, ← ih (h.add b)]
      rfl

/-- The table of code points says no more than the list of bytes. -/
theorem eq_of_bytes_eq (h : a.Sound) (h' : a'.Sound) (hfold : a.foldCase = a'.foldCase)
    (hbytes : a.bytes = a'.bytes) : a = a' := by
  have hcanonical : a.canonical = a'.canonical := congrArg Byte.canonical hfold
  have hcodes : a.codes = a'.codes := by
    refine ByteTable.ext_get fun b => ?_
    show a.codePoint b = a'.codePoint b
    rw [h.codePoint, h'.codePoint, hcanonical, hbytes]
  cases a
  cases a'
  cases hfold
  cases hbytes
  cases hcodes
  rfl

end Sound

theorem foldCase_ofBytes (foldCase : Bool) (bs : Bytes) :
    (ofBytes foldCase bs).foldCase = foldCase :=
  foldCase_addAll _ bs

theorem canonical_ofBytes (foldCase : Bool) (bs : Bytes) :
    (ofBytes foldCase bs).canonical = Byte.canonical foldCase :=
  congrArg Byte.canonical (foldCase_ofBytes foldCase bs)

theorem bytes_ofBytes (foldCase : Bool) (bs : Bytes) :
    (ofBytes foldCase bs).bytes = letters foldCase bs :=
  (sound_empty foldCase).bytes_addAll_eq List.eraseDups_nil.symm

theorem codePoint_ofBytes_ne_zero_iff :
    (ofBytes foldCase bs).codePoint b ≠ 0 ↔ b ∈ bs ∨ (foldCase = true ∧ Byte.swapCase b ∈ bs) := by
  rw [(sound_ofBytes foldCase bs).codePoint_ne_zero_iff, canonical_ofBytes, bytes_ofBytes,
    canonical_mem_letters]

/-- The alphabet of bytes that were added one after the other numbers their
representatives from 1 without a gap, in the order in which they came first. The
code point that is answered for a byte is the one it has from then on, whatever
is added later. A byte has one if it was added, under folding in either case; the
two directions are inverse to each other, and other numbers stand for no byte.
There is nothing else to such an alphabet. -/
theorem numbering_by_first_addition (foldCase : Bool) (bs : Bytes) :
    let a := ofBytes foldCase bs
    a.bytes = letters foldCase bs ∧ a.size ≤ 256 ∧
      (∀ c : CodePoint, (c ≠ 0 ∧ ∃ b, a.codePoint b = c) ↔ 1 ≤ c.toNat ∧ c.toNat ≤ a.size) ∧
      (∀ b i, (letters foldCase bs)[i]? = some (Byte.canonical foldCase b) →
        (a.codePoint b).toNat = i + 1) ∧
      (∀ b, a.codePoint b = 0 → (a.assign b).1.toNat = a.size + 1) ∧
      (∀ b later, (a.assign b).1 = ((a.add b).addAll later).codePoint b) ∧
      (empty foldCase).assignAll bs = (bs.map a.codePoint, a) ∧
      (∀ b, a.codePoint b ≠ 0 ↔ b ∈ bs ∨ (foldCase = true ∧ Byte.swapCase b ∈ bs)) ∧
      (∀ b, a.contains b = true → a.byte? (a.codePoint b) = some (Byte.canonical foldCase b)) ∧
      (∀ c : CodePoint, 1 ≤ c.toNat → c.toNat ≤ a.size →
        ∃ b, a.byte? c = some b ∧ a.codePoint b = c) ∧
      (∀ c : CodePoint, c.toNat = 0 ∨ a.size < c.toNat → a.byte? c = none) ∧
      ∀ foldCase' bs', a = ofBytes foldCase' bs' ↔
        foldCase = foldCase' ∧ letters foldCase bs = letters foldCase' bs' := by
  intro a
  have hsound : a.Sound := sound_ofBytes foldCase bs
  have hbytes : a.bytes = letters foldCase bs := bytes_ofBytes foldCase bs
  have hcanonical : a.canonical = Byte.canonical foldCase := canonical_ofBytes foldCase bs
  refine ⟨hbytes, Byte.length_le_of_nodup hsound.nodup, fun c => ⟨fun h => ?_, fun h => ?_⟩,
    fun b i hi => ?_, fun b hb => ?_, hsound.assign_fst_addAll,
    Prod.ext ((sound_empty foldCase).assignAll_fst bs) (assignAll_snd _ bs),
    fun b => codePoint_ofBytes_ne_zero_iff, fun b hb => ?_, fun c => hsound.exists_byte?,
    fun c => Sound.byte?_eq_none, fun foldCase' bs' => ⟨fun h => ?_, fun h => ?_⟩⟩
  · obtain ⟨hne, b, rfl⟩ := h
    have hmem := hsound.codePoint_ne_zero_iff.1 hne
    refine ⟨?_, hsound.codePoint_le_size b⟩
    rw [hsound.toNat_codePoint hmem]
    exact Nat.succ_pos _
  · obtain ⟨b, -, hb⟩ := hsound.exists_byte? h.1 h.2
    refine ⟨fun hzero => ?_, b, hb⟩
    rw [hzero] at h
    exact absurd h.1 (by decide)
  · rw [← hbytes, ← hcanonical] at hi
    exact hsound.codePoint_of_getElem? hi
  · exact hsound.toNat_assign_of_notMem fun hmem => hsound.codePoint_ne_zero_iff.2 hmem hb
  · rw [← hcanonical]
    exact hsound.byte?_codePoint (hsound.codePoint_ne_zero_iff.1 (bne_iff_ne.1 hb))
  · exact ⟨(foldCase_ofBytes foldCase bs).symm.trans
        ((congrArg Alphabet.foldCase h).trans (foldCase_ofBytes foldCase' bs')),
      hbytes.symm.trans ((congrArg Alphabet.bytes h).trans (bytes_ofBytes foldCase' bs'))⟩
  · have hfold : a.foldCase = (ofBytes foldCase' bs').foldCase :=
      (foldCase_ofBytes foldCase bs).trans (h.1.trans (foldCase_ofBytes foldCase' bs').symm)
    exact hsound.eq_of_bytes_eq (sound_ofBytes foldCase' bs') hfold
      (hbytes.trans (h.2.trans (bytes_ofBytes foldCase' bs').symm))

/-- Under folding g and G are one letter, and x comes second though it was added
last. -/
theorem numbering_by_first_addition_folded :
    let a := ofBytes true [0x47, 0x67, 0x78]
    letters true [0x47, 0x67, 0x78] = [0x67, 0x78] ∧ (a.codePoint 0x58).toNat = 2 ∧
      (a.assign 0x79).1.toNat = a.size + 1 ∧ a.byte? (a.codePoint 0x47) = some 0x67 ∧
      (∃ b, a.byte? 2 = some b ∧ a.codePoint b = 2) ∧ a.byte? 3 = none := by
  intro a
  obtain ⟨-, -, -, hplace, hnew, -, -, -, hbyte, hcode, hnone, -⟩ :=
    numbering_by_first_addition true [0x47, 0x67, 0x78]
  exact ⟨by decide, hplace 0x58 1 (by decide), hnew 0x79 (by decide), hbyte 0x47 (by decide),
    hcode 2 (by decide) (by decide), hnone 3 (by decide)⟩

end Alphabet

/-! ## The alphabet of a finished automaton -/

namespace Automaton

/-- The alphabet of an automaton numbers the bytes of the patterns that are kept,
one behind the other, in the order in which they come first, and these are the
bytes on which some state has a transition into the tree. -/
theorem alphabet_eq_edge_bytes (st : Settings) (patterns : List Bytes) :
    let a := compile st patterns
    let letters := Alphabet.letters st.foldCase (kept st.kind (patterns.map st.canon)).flatten
    a.alphabet.bytes = letters ∧
      (∀ i b, letters[i]? = some (Byte.canonical st.foldCase b) →
        (a.alphabet.codePoint b).toNat = i + 1) ∧
      (∀ b, a.alphabet.contains b = true ↔ Byte.canonical st.foldCase b ∈ letters) ∧
      ∀ b, a.alphabet.contains b = true ↔
        ∃ s t : StateId, s.index < a.arena.size ∧ t.index < a.arena.size ∧ 2 ≤ t.index ∧
          a.arena.next s b = some t := by
  intro a letters
  have hcompiled : a.arena.Compiled st.foldCase (.ofWords st.kind (patterns.map st.canon)) :=
    Trie.compiled_ofPatterns st patterns
  have halphabet : a.alphabet =
      .ofBytes st.foldCase (kept st.kind (patterns.map st.canon)).flatten :=
    Trie.alphabet_ofPatterns st patterns
  have hsound : a.alphabet.Sound := (Trie.holds_ofPatterns st patterns).sound
  have hcanonical : a.alphabet.canonical = Byte.canonical st.foldCase := by
    rw [halphabet, Alphabet.canonical_ofBytes]
  have hbytes : a.alphabet.bytes = letters := by
    rw [halphabet, Alphabet.bytes_ofBytes]
  have hcontains : ∀ b, a.alphabet.contains b = true ↔ Byte.canonical st.foldCase b ∈ letters := by
    intro b
    rw [Alphabet.contains, bne_iff_ne, hsound.codePoint_ne_zero_iff, hcanonical, hbytes]
  refine ⟨hbytes, fun i b hi => ?_, hcontains, fun b => ?_⟩
  · rw [← hbytes, ← hcanonical] at hi
    exact hsound.codePoint_of_getElem? hi
  · rw [hcontains, ← hbytes]
    refine Trie.mem_bytes_alphabet_iff.trans ⟨fun h => ?_, fun h => ?_⟩
    · obtain ⟨w, hw⟩ := h
      refine ⟨_, _, ?_, ?_, ?_, hcompiled.next_of_mem hw⟩
      · rw [hcompiled.size]
        exact Strings.id_index_lt (Strings.mem_of_append hw)
      · rw [hcompiled.size]
        exact Strings.id_index_lt hw
      · rw [Strings.id_of_ne_nil (by simp)]
        exact Nat.le_add_left _ _
    · obtain ⟨s, t, -, -, ht, hnext⟩ := h
      have hstart : t ≠ .start := by
        rintro rfl
        exact absurd ht (by decide)
      have hdead : t ≠ .dead := by
        rintro rfl
        exact absurd ht (by decide)
      obtain ⟨w, -, hw, -⟩ := hcompiled.exists_of_next hnext hstart hdead
      exact ⟨w, hw⟩

/-- Of aBc, which is given up, only the bytes on its way through the tree have
code points, and those are there from Ab. -/
theorem alphabet_eq_edge_bytes_folded :
    let a := compile { kind := .leftmostFirst, foldCase := true }
      [[0x41, 0x62], [0x61, 0x42, 0x63], [0x3f]]
    a.alphabet.bytes = [0x61, 0x62, 0x3f] ∧ (a.alphabet.codePoint 0x3f).toNat = 3 ∧
      a.alphabet.contains 0x63 = false ∧
      ∃ s t : StateId, s.index < a.arena.size ∧ t.index < a.arena.size ∧ 2 ≤ t.index ∧
        a.arena.next s 0x42 = some t := by
  intro a
  obtain ⟨hbytes, hplace, hcontains, hedge⟩ := alphabet_eq_edge_bytes
    { kind := .leftmostFirst, foldCase := true } [[0x41, 0x62], [0x61, 0x42, 0x63], [0x3f]]
  have hc : ¬ a.alphabet.contains 0x63 = true := fun h => absurd ((hcontains 0x63).1 h) (by decide)
  have hB : a.alphabet.contains 0x42 = true := (hcontains 0x42).2 (by decide)
  exact ⟨hbytes.trans (by decide), hplace 2 0x3f (by decide), Bool.eq_false_iff.2 hc,
    (hedge 0x42).1 hB⟩

end Automaton

end MultiPattern
