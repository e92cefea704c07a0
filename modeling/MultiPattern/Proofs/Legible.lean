import Mathlib.Data.List.Infix
import MultiPattern.Automaton.Drawing

/-!
# What is written can be read back

A drawing is text, put together from numbers, bytes, lists of either and labels.
`Text.Legible` says of a way of writing that the value and the place where its
text ends can be told from what follows. A number can be, if no digit follows;
an escaped byte and a character of a label can be in any case, because the
first two characters say how long they are.

Legible items make legible texts. One behind the other they can be read up to a
mark that none of them begins with, and set apart by a separator if what follows
the last is not that separator. The lines of a diagram are of the first sort, so
no two diagrams are written alike. `Diagram.render` stands for all printers here: on
labels that do not go over the end of a line every `Diagram.Prints` agrees with it.
-/

namespace MultiPattern

namespace Text

variable {α : Type} {follows : List Char → Prop} {write : α → List Char} {mark : List Char}

/-- The value that was written and the end of its text can be told from what
follows. -/
def Legible (follows : List Char → Prop) (write : α → List Char) : Prop :=
  ∀ x y r s, follows r → follows s → write x ++ r = write y ++ s → x = y ∧ r = s

/-- The text does not begin with a digit. -/
def NoDigit (r : List Char) : Prop :=
  ∀ c ∈ r.head?, c.isDigit = false

theorem takeWhile_isDigit {u r : List Char} (hu : ∀ c ∈ u, c.isDigit = true) (hr : NoDigit r) :
    (u ++ r).takeWhile Char.isDigit = u := by
  have hnil : r.takeWhile Char.isDigit = [] := by
    cases r with
    | nil => rfl
    | cons c r => rw [List.takeWhile_cons, hr c rfl, if_neg Bool.false_ne_true]
  rw [List.takeWhile_append_of_pos hu, hnil, List.append_nil]

theorem legible_digits : Legible NoDigit (Nat.toDigits 10) := by
  intro m n r s hr hs h
  have hdigits : ∀ k, ∀ c ∈ Nat.toDigits 10 k, c.isDigit = true :=
    fun k c hc => Nat.isDigit_of_mem_toDigits (by omega) (by omega) hc
  have heq := congrArg (List.takeWhile Char.isDigit) h
  rw [takeWhile_isDigit (hdigits m) hr, takeWhile_isDigit (hdigits n) hs] at heq
  rw [heq, List.append_cancel_left_eq] at h
  refine ⟨?_, h⟩
  rw [← Nat.ofDigitChars_ten_toDigits (n := m), heq, Nat.ofDigitChars_ten_toDigits]

/-- Items one behind the other, up to a mark that no item begins with. -/
theorem Legible.flatMap (h : Legible (fun _ => True) write)
    (hmark : ∀ x r, ¬ mark <+: write x ++ r) :
    Legible (mark <+: ·) (fun xs : List α => xs.flatMap write) := by
  intro xs ys r s hr hs heq
  dsimp only at heq
  induction xs generalizing ys with
  | nil =>
      cases ys with
      | nil => exact ⟨rfl, heq⟩
      | cons y ys =>
          rw [List.flatMap_nil, List.nil_append, List.flatMap_cons, List.append_assoc] at heq
          exact absurd (heq ▸ hr) (hmark y _)
  | cons x xs ih =>
      cases ys with
      | nil =>
          rw [List.flatMap_nil, List.nil_append, List.flatMap_cons, List.append_assoc] at heq
          exact absurd (heq ▸ hs) (hmark x _)
      | cons y ys =>
          simp only [List.flatMap_cons, List.append_assoc] at heq
          obtain ⟨rfl, hrest⟩ := h x y _ _ trivial trivial heq
          obtain ⟨rfl, hend⟩ := ih ys hrest
          exact ⟨rfl, hend⟩

/-- Items set apart by a separator, if what follows the last is another text. -/
theorem Legible.intercalate (h : Legible follows write) (hsep : ∀ r, follows (mark ++ r))
    {x y : α} {xs ys : List α} {r s : List Char} (hr : follows r) (hs : follows s)
    (hrmark : ¬ mark <+: r) (hsmark : ¬ mark <+: s)
    (heq : mark.intercalate ((x :: xs).map write) ++ r =
      mark.intercalate ((y :: ys).map write) ++ s) :
    x :: xs = y :: ys ∧ r = s := by
  induction xs generalizing x y ys with
  | nil =>
      cases ys with
      | nil =>
          simp only [List.map_cons, List.map_nil, List.intercalate_singleton] at heq
          obtain ⟨rfl, hend⟩ := h x y r s hr hs heq
          exact ⟨rfl, hend⟩
      | cons y' ys =>
          simp only [List.map_cons, List.map_nil, List.intercalate_singleton,
            List.intercalate_cons_cons, List.append_assoc] at heq
          obtain ⟨-, hend⟩ := h x y _ _ hr (hsep _) heq
          exact absurd ⟨_, hend.symm⟩ hrmark
  | cons x' xs ih =>
      cases ys with
      | nil =>
          simp only [List.map_cons, List.map_nil, List.intercalate_singleton,
            List.intercalate_cons_cons, List.append_assoc] at heq
          obtain ⟨-, hend⟩ := h x y _ _ (hsep _) hs heq
          exact absurd ⟨_, hend⟩ hsmark
      | cons y' ys =>
          simp only [List.map_cons, List.intercalate_cons_cons, List.append_assoc] at heq
          obtain ⟨rfl, hrest⟩ := h x y _ _ (hsep _) (hsep _) heq
          obtain ⟨htail, hend⟩ := ih (List.append_cancel_left hrest)
          exact ⟨by rw [htail], hend⟩

theorem notMem_intercalate {c : Char} {xss : List (List Char)} (hmark : c ∉ mark)
    (h : ∀ xs ∈ xss, c ∉ xs) : c ∉ mark.intercalate xss := by
  induction xss with
  | nil => simp
  | cons xs xss ih =>
      cases xss with
      | nil => simpa using h
      | cons ys yss =>
          rw [List.intercalate_cons_cons, List.mem_append, List.mem_append, not_or, not_or]
          refine ⟨⟨h xs List.mem_cons_self, hmark⟩, ih fun zs hzs => ?_⟩
          exact h zs (List.mem_cons_of_mem xs hzs)

theorem notMem_digits (n : Nat) : '\n' ∉ Nat.toDigits 10 n := by
  intro h
  have hdigit := Nat.isDigit_of_mem_toDigits (by omega) (by omega) h
  revert hdigit
  decide

end Text

/-! ## Bytes -/

namespace Byte

/-- The length of the escaped byte that a text begins with. -/
def escapedLength (text : List Char) : Nat :=
  if text.head? = some '\\' then if text[1]? = some 'x' then 4 else 2 else 1

/-- The byte that was escaped. -/
def unescaped : List Char → UInt8
  | ['\\', 'x', high, low] => (16 * hexValue high + hexValue low).toUInt8
  | ['\\', 't'] => 0x09
  | ['\\', 'n'] => 0x0a
  | ['\\', 'r'] => 0x0d
  | ['\\', c] => c.toNat.toUInt8
  | [c] => c.toNat.toUInt8
  | _ => 0
where
  hexValue (c : Char) : Nat := if c.isDigit then c.toNat - 0x30 else c.toNat - 0x57

theorem escapedLength_escaped : ∀ b, escapedLength (escaped b) = (escaped b).length :=
  forall_of_fin (by decide +kernel)

theorem unescaped_escaped : ∀ b, unescaped (escaped b) = b :=
  forall_of_fin (by decide +kernel)

theorem notMem_escaped : ∀ b, '\n' ∉ escaped b :=
  forall_of_fin (by decide +kernel)

theorem escapedLength_append {u : List Char} (hu : escapedLength u = u.length) (r : List Char) :
    escapedLength (u ++ r) = u.length := by
  match u with
  | [] => simp [escapedLength] at hu
  | [c] =>
      have hc : c ≠ '\\' := by
        rintro rfl
        exact absurd hu (by decide)
      simp [escapedLength, hc]
  | c :: d :: u => exact hu

theorem legible_escaped : Text.Legible (fun _ => True) escaped := by
  intro b c r s _ _ h
  have hlength := congrArg escapedLength h
  rw [escapedLength_append (escapedLength_escaped b),
    escapedLength_append (escapedLength_escaped c)] at hlength
  obtain ⟨hcode, hend⟩ := List.append_inj h hlength
  exact ⟨by rw [← unescaped_escaped b, hcode, unescaped_escaped], hend⟩

end Byte

/-! ## Diagrams -/

namespace Diagram

open Text

theorem legible_labelChar : Legible (fun _ => True) labelChar := by
  intro c d r s _ _ h
  unfold labelChar at h
  split at h <;> split at h <;> grind

/-- A label ends at the first quotation mark that has no backslash in front of it. -/
theorem not_mark_labelChar (c : Char) (r : List Char) : ¬ ['"'] <+: labelChar c ++ r := by
  unfold labelChar
  split
  · simp
  · split <;> simp_all [eq_comm]

theorem toList_label (s : String) :
    (label labelChar s).toList =
      [' ', '[', ' ', 'l', 'a', 'b', 'e', 'l', ' ', '=', ' ', '"'] ++ s.toList.flatMap labelChar ++
        ['"', ' ', ']', '\n'] := by
  simp [label]

theorem legible_label : Legible (fun _ => True) fun s => (label labelChar s).toList := by
  intro s s' r r' _ _ h
  simp only [toList_label, List.append_assoc, List.append_cancel_left_eq] at h
  obtain ⟨hs, hr⟩ := legible_labelChar.flatMap not_mark_labelChar s.toList s'.toList _ _
    (by simp) (by simp) h
  exact ⟨String.toList_inj.1 hs, by simpa using hr⟩

/-- The lines of a diagram: its nodes, then its arrows. -/
def lines (d : Diagram) : List ((String × Nat) ⊕ Arrow) :=
  d.nodes.zipIdx.map .inl ++ d.arrows.map .inr

/-- A line as text. -/
def line : (String × Nat) ⊕ Arrow → String
  | .inl node => nodeLine labelChar node
  | .inr arrow => arrowLine labelChar arrow

theorem toList_render (d : Diagram) :
    d.render.toList = "digraph \x7b\n".toList ++
      d.lines.flatMap (fun l => (line l).toList) ++ "\x7d\n".toList := by
  simp [render, lines, line, String.toList_join, List.flatMap_map]

theorem noDigit_label (s : String) (r : List Char) : NoDigit ((label labelChar s).toList ++ r) := by
  simp [toList_label, NoDigit]

theorem noDigit_arrow (r : List Char) : NoDigit (" -> ".toList ++ r) := by
  simp [NoDigit]

theorem toList_nodeLine (s : String) (i : Nat) :
    (nodeLine labelChar (s, i)).toList =
      "    ".toList ++ (Nat.toDigits 10 i ++ (label labelChar s).toList) := by
  simp [nodeLine]

theorem toList_arrowLine (x : Arrow) :
    (arrowLine labelChar x).toList = "    ".toList ++ (Nat.toDigits 10 x.source ++ (" -> ".toList ++
      (Nat.toDigits 10 x.target ++ (label labelChar x.label).toList))) := by
  simp [arrowLine]

/-- The line of a node and that of an arrow differ behind their first number. -/
theorem label_ne_arrow (s : String) (r r' : List Char) :
    (label labelChar s).toList ++ r ≠ " -> ".toList ++ r' := by
  simp [toList_label]

theorem legible_line : Legible (fun _ => True) fun l => (line l).toList := by
  rintro (⟨s, i⟩ | x) (⟨s', i'⟩ | y) r r' - - h
  all_goals
    simp only [line, toList_nodeLine, toList_arrowLine, List.append_assoc,
      List.append_cancel_left_eq] at h
  · obtain ⟨rfl, hlabel⟩ := legible_digits i i' _ _ (noDigit_label _ _) (noDigit_label _ _) h
    obtain ⟨rfl, hend⟩ := legible_label s s' _ _ trivial trivial hlabel
    exact ⟨rfl, hend⟩
  · obtain ⟨-, hrest⟩ := legible_digits i y.source _ _ (noDigit_label _ _) (noDigit_arrow _) h
    exact absurd hrest (label_ne_arrow _ _ _)
  · obtain ⟨-, hrest⟩ := legible_digits x.source i' _ _ (noDigit_arrow _) (noDigit_label _ _) h
    exact absurd hrest.symm (label_ne_arrow _ _ _)
  · obtain ⟨hsource, hrest⟩ :=
      legible_digits x.source y.source _ _ (noDigit_arrow _) (noDigit_arrow _) h
    obtain ⟨htarget, hlabel⟩ := legible_digits x.target y.target _ _ (noDigit_label _ _)
      (noDigit_label _ _) (List.append_cancel_left hrest)
    obtain ⟨hlabel, hend⟩ := legible_label x.label y.label _ _ trivial trivial hlabel
    exact ⟨congrArg Sum.inr (Arrow.ext hsource htarget hlabel), hend⟩

theorem not_mark_line (l : (String × Nat) ⊕ Arrow) (r : List Char) :
    ¬ "\x7d\n".toList <+: (line l).toList ++ r := by
  rcases l with ⟨s, i⟩ | x <;> simp [line, toList_nodeLine, toList_arrowLine]

theorem filterMap_lines (d : Diagram) :
    d.lines.filterMap Sum.getLeft? = d.nodes.zipIdx ∧
      d.lines.filterMap Sum.getRight? = d.arrows := by
  simp [lines, List.filterMap_map, Function.comp_def]

theorem eq_of_lines_eq {d d' : Diagram} (h : d.lines = d'.lines) : d = d' := by
  obtain ⟨hnodes, harrows⟩ := filterMap_lines d
  obtain ⟨hnodes', harrows'⟩ := filterMap_lines d'
  rw [h] at hnodes harrows
  refine Diagram.ext ?_ (harrows.symm.trans harrows')
  rw [← List.zipIdx_map_fst 0 d.nodes, ← hnodes, hnodes', List.zipIdx_map_fst]

/-- No label goes over the end of a line. -/
structure OneLine (d : Diagram) : Prop where
  nodes : ∀ s ∈ d.nodes, '\n' ∉ s.toList
  arrows : ∀ x ∈ d.arrows, '\n' ∉ x.label.toList

theorem Prints.label_eq {escape : Char → List Char} {print : Diagram → String}
    (h : Prints escape print) {s : String} (hs : '\n' ∉ s.toList) :
    label escape s = label labelChar s := by
  have hchar : ∀ c ∈ s.toList, escape c = labelChar c := by
    intro c hc
    have hend : c ≠ '\n' := fun heq => hs (heq ▸ hc)
    by_cases hquote : c = '"' ∨ c = '\\'
    · rw [h.escaped c hquote, prints_render.escaped c hquote]
    · obtain ⟨hquote, hslash⟩ := not_or.1 hquote
      rw [h.plain c hquote hslash hend, prints_render.plain c hquote hslash hend]
  rw [label, label, List.flatMap_congr hchar]

/-- On such a diagram all printers agree. -/
theorem Prints.eq_render {escape : Char → List Char} {print : Diagram → String}
    (h : Prints escape print) {d : Diagram} (hd : d.OneLine) : print d = d.render := by
  have hnodes : ∀ node ∈ d.nodes.zipIdx, nodeLine escape node = nodeLine labelChar node := by
    intro node hnode
    have hmem := List.mem_of_getElem? (List.mem_zipIdx_iff_getElem?.1 hnode)
    rw [nodeLine, nodeLine, h.label_eq (hd.nodes _ hmem)]
  have harrows : ∀ x ∈ d.arrows, arrowLine escape x = arrowLine labelChar x := by
    intro x hx
    rw [arrowLine, arrowLine, h.label_eq (hd.arrows x hx)]
  rw [h.text, prints_render.text, List.map_congr_left hnodes, List.map_congr_left harrows]

/-- No two diagrams are written alike. -/
theorem render_injective {d d' : Diagram} (h : d.render = d'.render) : d = d' := by
  have htext := congrArg String.toList h
  simp only [toList_render, List.append_assoc, List.append_cancel_left_eq] at htext
  exact eq_of_lines_eq (legible_line.flatMap not_mark_line d.lines d'.lines _ _
    List.prefix_rfl List.prefix_rfl htext).1

end Diagram

/-! ## Labels -/

namespace Automaton

open Text

variable {bytes bytes' : Bytes}

theorem toList_bytesLabel_of_le (h : bytes.length ≤ maxListed) :
    (bytesLabel bytes).toList = [' '].intercalate (bytes.map Byte.escaped) := by
  rw [bytesLabel, if_neg (Nat.not_lt.2 h), String.toList_intercalate]
  simp [List.map_map, Function.comp_def]

/-- Bytes that are listed can be read off the arrow. -/
theorem bytesLabel_inj (hne : bytes ≠ []) (hne' : bytes' ≠ []) (h : bytes.length ≤ maxListed)
    (h' : bytes'.length ≤ maxListed) (heq : bytesLabel bytes = bytesLabel bytes') :
    bytes = bytes' := by
  obtain ⟨b, rest, rfl⟩ := List.exists_cons_of_ne_nil hne
  obtain ⟨c, rest', rfl⟩ := List.exists_cons_of_ne_nil hne'
  have htext := congrArg String.toList heq
  rw [toList_bytesLabel_of_le h, toList_bytesLabel_of_le h'] at htext
  have hend : ¬ [' '] <+: [] := by decide
  exact (Byte.legible_escaped.intercalate (fun _ => trivial) trivial trivial hend hend
    (congrArg (· ++ []) htext)).1

/-- An arrow for bytes is not taken for a failure link. -/
theorem bytesLabel_ne_fail (hne : bytes ≠ []) : bytesLabel bytes ≠ "FAIL" := by
  intro heq
  by_cases h : bytes.length ≤ maxListed
  · obtain ⟨b, rest, rfl⟩ := List.exists_cons_of_ne_nil hne
    have htext := congrArg String.toList heq
    have hfail : "FAIL".toList = Byte.escaped 0x46 ++ ['A', 'I', 'L'] := by decide
    rw [toList_bytesLabel_of_le h, hfail] at htext
    -- Behind an F the label ends or goes on with a blank.
    cases rest with
    | nil =>
        rw [List.map_singleton, List.intercalate_singleton, ← List.append_nil (Byte.escaped b)]
          at htext
        obtain ⟨-, hend⟩ := Byte.legible_escaped b 0x46 _ _ trivial trivial htext
        cases hend
    | cons c rest =>
        rw [List.map_cons, List.map_cons, List.intercalate_cons_cons, List.append_assoc] at htext
        obtain ⟨-, hend⟩ := Byte.legible_escaped b 0x46 _ _ trivial trivial htext
        simp at hend
  · have hlength := congrArg String.length heq
    rw [bytesLabel, if_pos (Nat.lt_of_not_le h), String.length_append] at hlength
    change _ + 6 = 4 at hlength
    omega

theorem legible_pattern : Legible NoDigit fun p : PatternId => Nat.toDigits 10 p.index := by
  intro p q r s hr hs h
  obtain ⟨hindex, hend⟩ := legible_digits p.index q.index r s hr hs h
  exact ⟨PatternId.ext hindex, hend⟩

theorem toList_nodeLabel {a : Automaton} {s : StateId} (h : (a.arena.state s).outputs ≠ []) :
    (a.nodeLabel s).toList = (stateName s).toList ++ ([' ', '['] ++
      ([',', ' '].intercalate ((a.arena.state s).outputs.map fun p => Nat.toDigits 10 p.index) ++
        [']'])) := by
  simp [nodeLabel, h, Outline.list, Outline.enclosed, PatternId.toText, List.map_map,
    Function.comp_def]

theorem nodeLabel_eq_stateName_iff {a : Automaton} {s : StateId} :
    a.nodeLabel s = stateName s ↔ (a.arena.state s).outputs = [] := by
  refine ⟨fun h => Classical.byContradiction fun hne => ?_, fun h => by simp [nodeLabel, h]⟩
  have htext := toList_nodeLabel hne
  simp [h] at htext

/-- The patterns that a state reports can be read off its node. -/
theorem outputs_eq_of_nodeLabel_eq {a a' : Automaton} {s : StateId}
    (h : a.nodeLabel s = a'.nodeLabel s) :
    (a.arena.state s).outputs = (a'.arena.state s).outputs := by
  by_cases hne : (a.arena.state s).outputs = []
  · rw [hne, nodeLabel_eq_stateName_iff.1 (h ▸ nodeLabel_eq_stateName_iff.2 hne)]
  · have hne' : (a'.arena.state s).outputs ≠ [] := fun hnil =>
      hne (nodeLabel_eq_stateName_iff.1 (h.trans (nodeLabel_eq_stateName_iff.2 hnil)))
    have htext := congrArg String.toList h
    rw [toList_nodeLabel hne, toList_nodeLabel hne', List.append_cancel_left_eq,
      List.append_cancel_left_eq] at htext
    obtain ⟨p, ps, hp⟩ := List.exists_cons_of_ne_nil hne
    obtain ⟨q, qs, hq⟩ := List.exists_cons_of_ne_nil hne'
    rw [hp, hq] at htext ⊢
    have hend : ¬ [',', ' '] <+: [']'] := by decide
    have hdigit : NoDigit [']'] := by simp [NoDigit]
    exact (legible_pattern.intercalate (fun r => by simp [NoDigit]) hdigit hdigit hend hend htext).1

/-! ## No label goes over the end of a line -/

theorem notMem_stateName (s : StateId) : '\n' ∉ (stateName s).toList := by
  rw [stateName]
  split
  · decide
  · split
    · decide
    · simpa [StateId.toText] using notMem_digits s.index

theorem notMem_nodeLabel (a : Automaton) (s : StateId) : '\n' ∉ (a.nodeLabel s).toList := by
  by_cases h : (a.arena.state s).outputs = []
  · rw [nodeLabel_eq_stateName_iff.2 h]
    exact notMem_stateName s
  · have hlist : '\n' ∉ [',', ' '].intercalate
        ((a.arena.state s).outputs.map fun p => Nat.toDigits 10 p.index) := by
      refine notMem_intercalate (by decide) fun xs hxs => ?_
      obtain ⟨p, -, rfl⟩ := List.mem_map.1 hxs
      exact notMem_digits p.index
    simp [toList_nodeLabel h, notMem_stateName, hlist]

theorem notMem_bytesLabel (bytes : Bytes) : '\n' ∉ (bytesLabel bytes).toList := by
  by_cases h : bytes.length ≤ maxListed
  · rw [toList_bytesLabel_of_le h]
    refine notMem_intercalate (by decide) fun xs hxs => ?_
    obtain ⟨b, -, rfl⟩ := List.mem_map.1 hxs
    exact Byte.notMem_escaped b
  · rw [bytesLabel, if_pos (Nat.lt_of_not_le h)]
    simpa using notMem_digits bytes.length

theorem oneLine_diagram (a : Automaton) : a.diagram.OneLine where
  nodes label hlabel := by
    obtain ⟨s, -, rfl⟩ := List.mem_map.1 hlabel
    exact notMem_nodeLabel a s
  arrows x hx := by
    obtain ⟨s, -, hx⟩ := List.mem_flatMap.1 hx
    rcases List.mem_append.1 hx with hx | hx
    · obtain ⟨t, -, rfl⟩ := List.mem_map.1 hx
      exact notMem_bytesLabel _
    · rw [failureArrow] at hx
      split at hx
      · cases hx
      · rw [List.mem_singleton.1 hx]
        show '\n' ∉ "FAIL".toList
        decide

end Automaton

end MultiPattern
