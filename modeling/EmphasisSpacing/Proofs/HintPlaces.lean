import EmphasisSpacing.Proofs.Marks
import EmphasisSpacing.Proofs.OnePass

/-!
# Where hints point

A hint tells a byte offset, a line, a column and the ends of a span. All of them are exact
(`hints_exact`): at the offset and at both ends of the span stand whole runs of stars, as long as
the hint says, and the offset lies in the line and behind as many characters as the column says.

The counters are checked one after the other. In the line, a mark stands behind the text of the
cells in front of it (`Celled.standsIn`); the two marks of a pair follow one another; and a line
starts behind all lines in front of it, terminators included (`exists_of_mem_ofDocument`).

A hypothesis is needed on math: when digits join two code spans inside a math span, its full text is
not found, and everything behind it on the line is counted from a wrong place.
-/

namespace EmphasisSpacing

open LineSymbol Atom

/-- Whether a run of exactly `n` stars stands at position `i`. -/
def StarRunAt (s : Bytes) (i : Int) (n : Nat) : Prop :=
  ∃ u v, s = u ++ List.replicate n Bytes.star ++ v ∧ (u.length : Int) = i ∧
    starsBehind u = false ∧ starsAhead v = false

/-! ### In a line -/

namespace Hint

/-- What a mark says about its line: where it stands, as bytes and as characters. -/
structure Mark.StandsIn (line : Bytes) (m : Mark) : Prop where
  run : StarRunAt line m.start.offset m.width
  column : (Utf8.decode (line.take m.start.offset)).length = m.start.column
  width_pos : 0 < m.width
  width_le : m.width ≤ Scan.maxWidth
  stop_eq : m.stop.offset = m.start.offset + m.width

theorem Mark.StandsIn.stop_le {line : Bytes} {m : Mark} (h : m.StandsIn line) :
    m.stop.offset ≤ line.length := by
  obtain ⟨u, v, hline, hu, -, -⟩ := h.run
  rw [h.stop_eq, hline, List.length_append, List.length_append, List.length_replicate]
  omega

end Hint

open Hint

/-- The place behind cells is the place behind their text. -/
theorem Hint.Place.afterCells_eq {text : Nat → Bytes} {cells : List Cell}
    (htext : ∀ k, .hole k ∈ cells → RegionText (text k)) (p : Place) :
    p.afterCells text cells = p.afterText (cells.flatMap (Cell.bytes text)) := by
  induction cells generalizing p with
  | nil => rfl
  | cons c cells ih =>
    have hvalid : Utf8.isValid (c.bytes text) = true := by
      cases c with
      | char c =>
        have hencode := Utf8.isValid_encode [c]
        rwa [Utf8.encode_cons, Utf8.encode_nil, List.append_nil] at hencode
      | stars n =>
        refine Utf8.isValid_of_ascii fun b hb => ?_
        rw [List.eq_of_mem_replicate hb]
        decide
      | hole k => exact (htext k (List.mem_cons_self ..)).valid
    rw [afterCells_cons, ih fun k hk => htext k (List.mem_cons_of_mem _ hk), List.flatMap_cons,
      afterText_append _ hvalid]

namespace Celled

variable {settings : Settings} {front rest : Bytes} {text : Nat → Bytes} {cells A B : List Cell}
  {n : Nat} {m : Mark}

theorem line_split (h : Celled settings front rest text (A ++ B)) :
    front ++ rest = front ++ A.flatMap (Cell.bytes text) ++ B.flatMap (Cell.bytes text) := by
  rw [List.append_assoc, ← List.flatMap_append, ← h.rest_eq]

/-- The place of a run is the place behind the text in front of it. -/
theorem place_eq (h : Celled settings front rest text (A ++ B)) :
    (Place.afterText ⟨0, 0⟩ front).afterCells text A =
      Place.afterText ⟨0, 0⟩ (front ++ A.flatMap (Cell.bytes text)) := by
  obtain ⟨head, regions, hframe⟩ := h.frame
  rw [Place.afterCells_eq fun k hk => h.regionText (List.mem_append_left _ hk),
    Place.afterText_append _ (Utf8.isValid_of_ascii hframe.ascii_front)]

/-- A run among the cells is a run of the line. -/
theorem starRunAt (h : Celled settings front rest text (A ++ .stars n :: B)) :
    StarRunAt (front ++ rest) (front ++ A.flatMap (Cell.bytes text)).length n := by
  obtain ⟨head, regions, hframe⟩ := h.frame
  have hstars := h.tidy.starless
  refine ⟨_, B.flatMap (Cell.bytes text), ?_, rfl, ?_, ?_⟩
  · rw [h.line_split, List.flatMap_cons, List.append_assoc _ _ (B.flatMap _)]
    rfl
  · rw [starsBehind_append]
    split_ifs
    · exact hframe.starsBehind_front
    · rw [starsBehind_bytes (fun c hc => h.tidy.proper c (by simp [hc]))
        fun k hk => h.regionText (by simp [hk]), hstars.1]
  · rw [starsAhead_bytes (fun c hc => h.tidy.proper c (by simp [hc]))
      fun k hk => h.regionText (by simp [hk]), hstars.2]

/-- **A mark stands where it says.** -/
theorem standsIn (h : Celled settings front rest text cells)
    (hm : m ∈ marks (Protected.ofLine settings (front ++ rest))) : m.StandsIn (front ++ rest) := by
  rw [h.marks_eq, List.mem_filter, decide_eq_true_eq] at hm
  obtain ⟨hm, hwidth⟩ := hm
  have hstop := stop_offset_of_mem_marksOf hm
  have hpos := width_pos_of_mem_marksOf h.tidy.proper hm
  obtain ⟨A, n, B, rfl, rfl⟩ := exists_of_mem_marksOf hm
  refine ⟨?_, ?_, hpos, hwidth, hstop⟩
  · rw [markAt, h.place_eq, Place.afterText, Nat.zero_add]
    exact h.starRunAt
  · rw [markAt, h.place_eq, Place.afterText, Nat.zero_add, Nat.zero_add, h.line_split,
      List.take_left]

/-- The marks of a line follow one another. -/
theorem pairwise_marks (h : Celled settings front rest text cells) :
    (marks (Protected.ofLine settings (front ++ rest))).Pairwise
      fun a b => a.stop.offset < b.start.offset := by
  rw [h.marks_eq]
  exact (pairwise_marksOf h.tidy (fun k hk => h.regionText hk) _ _).filter _

end Celled

/-! ### From pairs to hints -/

namespace Hint

section

variable {number base : Nat} {f m : Mark} {h : Hint}

/-- The hint at one of the marks of a pair. -/
def atMark (number base : Nat) (pair : Mark × Mark) (m : Mark) (side : Side) : Hint where
  line := number
  column := (m.start.column + 1 : Nat)
  offset := (base + m.start.offset : Nat)
  side := side
  width := m.width
  span := ⟨(base + pair.1.start.offset : Nat), (base + pair.2.stop.offset : Nat)⟩

theorem ofPair_eq (number base : Nat) (f m : Mark) :
    ofPair number base (f, m) =
      (if isNeeded f.before f.after then [atMark number base (f, m) f .before] else []) ++
        if isNeeded m.after m.before then [atMark number base (f, m) m .after] else [] := rfl

theorem mem_ofPair_iff :
    h ∈ ofPair number base (f, m) ↔
      isNeeded f.before f.after = true ∧ h = atMark number base (f, m) f .before ∨
        isNeeded m.after m.before = true ∧ h = atMark number base (f, m) m .after := by
  rw [ofPair_eq, List.mem_append]
  cases isNeeded f.before f.after <;> cases isNeeded m.after m.before <;> simp

end

/-- **A hint stands at one of two marks of its line**, which have the same width and follow one
another. -/
theorem exists_of_mem_ofLine {settings : Settings} {number base : Nat} {line : Bytes} {h : Hint}
    (hscan : needsScan line = true) (hjoin : mathJoined settings line = false)
    (hh : h ∈ ofLine settings number base line) :
    ∃ f m x side, f.StandsIn line ∧ m.StandsIn line ∧ f.width = m.width ∧
      f.stop.offset < m.start.offset ∧ (x = f ∧ side = .before ∨ x = m ∧ side = .after) ∧
      h = atMark number base (f, m) x side := by
  obtain ⟨front, rest, text, cells, rfl, hcelled⟩ := exists_celled hscan hjoin
  obtain ⟨⟨f, m⟩, hpair, hmem⟩ := List.mem_flatMap.mp hh
  obtain ⟨hwidth, hsub⟩ := sublist_of_mem_pairsFrom hpair
  have hf := hcelled.standsIn (m := f) (hsub.subset (by simp))
  have hm := hcelled.standsIn (m := m) (hsub.subset (by simp))
  have hlt := (List.pairwise_cons.mp (hcelled.pairwise_marks.sublist hsub)).1 m (by simp)
  rcases mem_ofPair_iff.mp hmem with ⟨-, rfl⟩ | ⟨-, rfl⟩
  · exact ⟨f, m, f, .before, hf, hm, hwidth, hlt, .inl ⟨rfl, rfl⟩, rfl⟩
  · exact ⟨f, m, m, .after, hf, hm, hwidth, hlt, .inr ⟨rfl, rfl⟩, rfl⟩

/-! ### From lines to documents -/

/-- The block behind some lines. -/
def blockAfter (settings : Settings) (state : Block.State) (ls : List Line) : Block.State :=
  ls.foldl (fun state l => (Block.step settings state l.content).1) state

section

variable {settings : Settings} {state : Block.State} {number base : Nat} {ls : List Line}
  {h : Hint}

theorem ofLines_cons (l : Line) (ls : List Line) :
    ofLines settings state number base (l :: ls) =
      (if (Block.step settings state l.content).2 && needsScan l.content then
        ofLine settings number base l.content else []) ++
      ofLines settings (Block.step settings state l.content).1 (number + 1)
        (base + l.bytes.length) ls := rfl

theorem length_join_cons (l : Line) (ls : List Line) :
    (Line.join (l :: ls)).length = l.bytes.length + (Line.join ls).length := by
  simp [Line.join]

theorem ofLines_append (pre ls : List Line) :
    ofLines settings state number base (pre ++ ls) = ofLines settings state number base pre ++
      ofLines settings (blockAfter settings state pre) (number + pre.length)
        (base + (Line.join pre).length) ls := by
  induction pre generalizing state number base with
  | nil => rfl
  | cons l pre ih =>
    rw [List.cons_append, ofLines_cons, ofLines_cons, ih, length_join_cons, List.length_cons,
      Nat.add_assoc number, Nat.add_comm 1, Nat.add_assoc base, List.append_assoc]
    rfl

/-- A hint belongs to a line that is open and scanned. -/
theorem exists_of_mem_ofLines (hh : h ∈ ofLines settings state number base ls) :
    ∃ pre l post, ls = pre ++ l :: post ∧
      (Block.step settings (blockAfter settings state pre) l.content).2 = true ∧
      needsScan l.content = true ∧
      h ∈ ofLine settings (number + pre.length) (base + (Line.join pre).length) l.content := by
  induction ls generalizing state number base with
  | nil => cases hh
  | cons l ls ih =>
    rw [ofLines_cons] at hh
    rcases List.mem_append.mp hh with hh | hh
    · split_ifs at hh with hcond
      · rw [Bool.and_eq_true] at hcond
        exact ⟨[], l, ls, rfl, hcond.1, hcond.2, hh⟩
      · cases hh
    · obtain ⟨pre, l', post, rfl, hopen, hscan, hmem⟩ := ih hh
      refine ⟨l :: pre, l', post, rfl, hopen, hscan, ?_⟩
      rwa [length_join_cons, List.length_cons, Nat.add_comm pre.length, ← Nat.add_assoc number,
        ← Nat.add_assoc base]

/-- **A hint belongs to a line behind the front matter that is open and scanned**, and its numbers
count all lines in front of it. -/
theorem exists_of_mem_ofDocument {text : Bytes} (hh : h ∈ ofDocument settings text) :
    ∃ pre l post, Line.split text = pre ++ l :: post ∧
      frontLines settings (Line.split text) ≤ pre.length ∧
      (Block.step settings (blockAfter settings .text
        (pre.drop (frontLines settings (Line.split text)))) l.content).2 = true ∧
      needsScan l.content = true ∧
      h ∈ ofLine settings (pre.length + 1) (Line.join pre).length l.content := by
  have hle := frontLines_le settings (Line.split text)
  obtain ⟨pre, l, post, hls, hopen, hscan, hmem⟩ := exists_of_mem_ofLines hh
  generalize hskip : frontLines settings (Line.split text) = skip at hle
  change (Line.split text).drop (frontLines settings (Line.split text)) = _ at hls
  change h ∈ ofLine settings (frontLines settings (Line.split text) + 1 + pre.length)
    ((Line.join ((Line.split text).take (frontLines settings (Line.split text)))).length + _) _
    at hmem
  rw [hskip] at hls hmem
  have hlen : ((Line.split text).take skip).length = skip := by
    rw [List.length_take]
    omega
  refine ⟨(Line.split text).take skip ++ pre, l, post, ?_, ?_, ?_, hscan, ?_⟩
  · rw [List.append_assoc, ← hls, List.take_append_drop]
  · rw [List.length_append, hlen]
    omega
  · rwa [List.drop_append_of_le_length (by omega), List.drop_eq_nil_of_le (by omega),
      List.nil_append]
  · rwa [List.length_append, hlen, Line.join, List.flatMap_append, List.length_append,
      Nat.add_right_comm]

end

end Hint

/-! ### In a document -/

namespace Line

theorem Proper.ending_ne_none {pre post : List Line} {l : Line} (h : Proper (pre ++ l :: post)) :
    (∀ k ∈ pre, k.ending ≠ .none) ∧ (l.ending = .none → post = []) := by
  induction pre with
  | nil =>
    refine ⟨by simp, fun hnone => ?_⟩
    by_contra hne
    exact h.2.1 hne hnone
  | cons k pre ih =>
    obtain ⟨-, hlast, hrest⟩ := h
    exact ⟨List.forall_mem_cons.mpr ⟨hlast (by simp), (ih hrest).1⟩, (ih hrest).2⟩

/-- A line feed stands in front of every line but the first. -/
theorem Proper.starsBehind_join {pre post : List Line} {l : Line} (h : Proper (pre ++ l :: post)) :
    starsBehind (join pre) = false := by
  rcases List.eq_nil_or_concat pre with rfl | ⟨pre, k, rfl⟩
  · rfl
  · have hlf : ∃ s, k.bytes = s ++ [Bytes.lf] := by
      have hending := h.ending_ne_none.1 k (by simp)
      rw [bytes]
      cases hk : k.ending with
      | none => exact absurd hk hending
      | lf => exact ⟨k.content, rfl⟩
      | crlf => exact ⟨k.content ++ [Bytes.cr], by simp [Ending.bytes]⟩
    obtain ⟨s, hs⟩ := hlf
    rw [List.concat_eq_append, join, List.flatMap_append, List.flatMap_singleton, hs,
      ← List.append_assoc, starsBehind_concat]
    rfl

/-- A terminator, or nothing at all, stands behind every line. -/
theorem Proper.starsAhead_join {pre post : List Line} {l : Line} (h : Proper (pre ++ l :: post)) :
    starsAhead (l.ending.bytes ++ join post) = false := by
  cases hending : l.ending with
  | none =>
    rw [h.ending_ne_none.2 hending]
    rfl
  | lf => rfl
  | crlf => rfl

theorem contentAt_of_split {text : Bytes} {pre post : List Line} {l : Line}
    (h : split text = pre ++ l :: post) : contentAt text (pre.length + 1 : Nat) = l.content := by
  have hget : (split text)[pre.length]? = some l := by
    rw [h, List.getElem?_append_right (Nat.le_refl _), Nat.sub_self]
    rfl
  rw [contentAt, if_neg (by omega), show ((pre.length + 1 : Nat) : Int).toNat - 1 = pre.length by
    omega, hget]

end Line

theorem StarRunAt.append {s w z : Bytes} {i : Int} {n : Nat} (h : StarRunAt s i n)
    (hw : starsBehind w = false) (hz : starsAhead z = false) :
    StarRunAt (w ++ (s ++ z)) (w.length + i) n := by
  obtain ⟨u, v, rfl, rfl, hu, hv⟩ := h
  refine ⟨w ++ u, v ++ z, by simp, by simp, ?_, ?_⟩
  · rw [starsBehind_append]
    split_ifs
    · exact hw
    · exact hu
  · rw [starsAhead_append]
    split_ifs
    · exact hz
    · exact hv

/-- What it means that a hint is exact. -/
structure Hint.Exact (text : Bytes) (h : Hint) : Prop where
  width_pos : 1 ≤ h.width
  width_le : h.width ≤ 3
  /-- At the offset stands a whole run of stars. -/
  marker : StarRunAt text h.offset h.width
  opening : StarRunAt text h.span.start h.width
  closing : StarRunAt text (h.span.stop - h.width) h.width
  /-- The two markers of the span do not touch. -/
  apart : h.span.start + h.width < h.span.stop - h.width
  side : h.side = .before ∧ h.offset = h.span.start ∨
    h.side = .after ∧ h.offset = h.span.stop - h.width
  /-- The line with the given number holds the span, and the column counts its characters in front
  of the offset. -/
  line : ∃ pre l post, Line.split text = pre ++ l :: post ∧ h.line = (pre.length + 1 : Nat) ∧
    Line.contentAt text h.line = l.content ∧ (Line.join pre).length ≤ h.offset ∧
    (Line.join pre).length ≤ h.span.start ∧
    h.span.stop ≤ (Line.join pre).length + l.content.length ∧
    (Utf8.decode ((text.take h.offset.toNat).drop (Line.join pre).length)).length = h.column - 1

/-- The hints at the two marks of a pair are exact. -/
theorem Hint.exact_atMark {text : Bytes} {pre post : List Line} {l : Line}
    (hsplit : Line.split text = pre ++ l :: post) {f m x : Mark} {side : Side}
    (hf : f.StandsIn l.content) (hm : m.StandsIn l.content) (hwidth : f.width = m.width)
    (hlt : f.stop.offset < m.start.offset) (hx : x = f ∧ side = .before ∨ x = m ∧ side = .after) :
    (atMark (pre.length + 1) (Line.join pre).length (f, m) x side).Exact text := by
  have hproper := Line.proper_split text
  rw [hsplit] at hproper
  have htext : text = Line.join pre ++ (l.content ++ (l.ending.bytes ++ Line.join post)) := by
    rw [← Line.join_split text, hsplit]
    simp [Line.join, Line.bytes]
  -- A line stands between line ends, so what is a run of stars in it is one of the text.
  have hrun : ∀ {i : Nat} {n : Nat}, StarRunAt l.content i n →
      StarRunAt text ((Line.join pre).length + i : Nat) n := by
    intro i n hrun
    have happend := hrun.append hproper.starsBehind_join hproper.starsAhead_join
    rwa [← htext, ← Int.natCast_add] at happend
  -- The hint is at one of the two marks, and all that is asked of that mark holds of both.
  obtain ⟨hxin, hxwidth, hxle⟩ : x.StandsIn l.content ∧ x.width = m.width ∧
      f.start.offset ≤ x.start.offset := by
    rcases hx with ⟨rfl, -⟩ | ⟨rfl, -⟩
    · exact ⟨hf, hwidth, Nat.le_refl _⟩
    · exact ⟨hm, rfl, by have := hf.stop_eq; omega⟩
  have hstop := hm.stop_eq
  have hfstop := hf.stop_eq
  have hend := hm.stop_le
  have htake : (text.take ((Line.join pre).length + x.start.offset)).drop (Line.join pre).length =
      l.content.take x.start.offset := by
    have hle : x.start.offset ≤ l.content.length := by
      have := hxin.stop_le
      have := hxin.stop_eq
      omega
    rw [htext, List.take_length_add_append, List.drop_left, List.take_append_of_le_length hle]
  constructor
  · exact hxin.width_pos
  · exact hxin.width_le
  · exact hrun hxin.run
  · show StarRunAt text _ x.width
    rw [hxwidth, ← hwidth]
    exact hrun hf.run
  · show StarRunAt text (((Line.join pre).length + m.stop.offset : Nat) - x.width) x.width
    rw [hxwidth, show (((Line.join pre).length + m.stop.offset : Nat) - m.width : Int) =
      ((Line.join pre).length + m.start.offset : Nat) by omega]
    exact hrun hm.run
  · show (((Line.join pre).length + f.start.offset : Nat) + x.width : Int) <
      ((Line.join pre).length + m.stop.offset : Nat) - x.width
    omega
  · rcases hx with ⟨rfl, rfl⟩ | ⟨rfl, rfl⟩
    · exact .inl ⟨rfl, rfl⟩
    · refine .inr ⟨rfl, ?_⟩
      show (((Line.join pre).length + x.start.offset : Nat) : Int) =
        ((Line.join pre).length + x.stop.offset : Nat) - x.width
      omega
  · refine ⟨pre, l, post, hsplit, rfl, Line.contentAt_of_split hsplit, ?_, ?_, ?_, ?_⟩
    · show ((Line.join pre).length : Int) ≤ ((Line.join pre).length + x.start.offset : Nat)
      omega
    · show ((Line.join pre).length : Int) ≤ ((Line.join pre).length + f.start.offset : Nat)
      omega
    · show (((Line.join pre).length + m.stop.offset : Nat) : Int) ≤ _
      omega
    · show ((Utf8.decode ((text.take ((Line.join pre).length + x.start.offset)).drop _)).length :
        Int) = (x.start.column + 1 : Nat) - 1
      rw [htake, hxin.column]
      omega

/-- **Hints point exactly at their markers.** -/
theorem hints_exact (settings : Settings) (selections : List Stretch) (text : Bytes)
    (hjoin : ∀ l ∈ Line.split text, mathJoined settings l.content = false) :
    ∀ h ∈ hints settings selections text, h.Exact text := by
  intro h hh
  obtain ⟨pre, l, post, hsplit, -, -, hscan, hmem⟩ :=
    exists_of_mem_ofDocument (List.mem_filter.mp hh).1
  obtain ⟨f, m, x, side, hf, hm, hwidth, hlt, hx, rfl⟩ :=
    exists_of_mem_ofLine hscan (hjoin l (by rw [hsplit]; simp)) hmem
  exact exact_atMark hsplit hf hm hwidth hlt hx

/-- The two hints of a line that starts with a bullet and a math span around a code span, behind a
line that ends with a carriage return and a line feed. -/
theorem hints_exact_behind_math :
    hints Settings.standard [] (bytes "a\r\n* $`码`$中**粗**文") =
        [⟨2, 9, 15, .before, 2, ⟨15, 22⟩⟩, ⟨2, 12, 20, .after, 2, ⟨15, 22⟩⟩] ∧
      ∀ h ∈ hints Settings.standard [] (bytes "a\r\n* $`码`$中**粗**文"),
        h.Exact (bytes "a\r\n* $`码`$中**粗**文") :=
  ⟨by decide +kernel, hints_exact Settings.standard [] _ (by decide +kernel)⟩

end EmphasisSpacing
