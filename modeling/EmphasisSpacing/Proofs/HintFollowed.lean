import EmphasisSpacing.Proofs.Bullet
import EmphasisSpacing.Proofs.Slide

/-!
# Following a hint

Whoever follows a hint puts one space where it says: in front of an opening marker, or behind a
closing one. Then this hint is gone, and every other hint is still there, in its place
(`hints_insertSpace`).

The space stands at an end of a run of stars, so the new line is the old one respaced: front matter
and blocks are found where they were (`split_insertSpace`), and so are the regions of the line
(`Celled.insert`). The bullet is what could change: when two blanks follow the leading star, it
depends on a blank at the other end of the line whether the star is a bullet. Such lines are
excluded, and in the others the space comes too far behind the star to matter (`Celled.followed`).
What is left of the line is its marks: one of them sees the new blank and the marks behind it move
on (`Celled.exists_split`).
-/

namespace EmphasisSpacing

open LineSymbol Atom Hint

/-! ### A blank among cells -/

theorem Cell.sides_atoms {c : Cell} (hc : c.Proper) :
    c.atoms ≠ [] ∧ starsAhead c.atoms = isStar c ∧ starsBehind c.atoms = isStar c := by
  cases c with
  | char c =>
    obtain ⟨hne, hahead, hbehind⟩ := Cell.sides (fun _ => []) hc (by simp)
    have hatoms : render 0 (Cell.atoms (.char c)) = Cell.bytes (fun _ => []) (.char c) :=
      render_plain 0 _
    rw [← hatoms] at hne hahead hbehind
    rw [starsAhead_render] at hahead
    rw [starsBehind_render] at hbehind
    exact ⟨fun hnil => hne (by rw [hnil]; rfl), hahead, hbehind⟩
  | stars n =>
    cases n with
    | zero => exact absurd hc (Nat.lt_irrefl 0)
    | succ n =>
      refine ⟨by simp [atoms], rfl, ?_⟩
      rw [atoms, List.replicate_succ', starsBehind_concat]
      rfl
  | hole k => exact ⟨by simp [atoms], rfl, rfl⟩

section

variable {X Y : List Cell}

theorem Tidy.insert (h : Tidy (X ++ Y)) : Tidy (X ++ .char ' ' :: Y) := by
  have hproper := List.forall_mem_append.mp h.proper
  obtain ⟨hX, hY, -⟩ := List.isChain_append.mp h.apart
  refine ⟨List.forall_mem_append.mpr ⟨hproper.1, List.forall_mem_cons.mpr ⟨?_, hproper.2⟩⟩, ?_⟩
  · exact ⟨by decide, by decide⟩
  · refine List.isChain_append.mpr ⟨hX, ?_, ?_⟩
    · cases Y with
      | nil => exact .singleton _
      | cons c Y => exact hY.cons_cons fun hstar => by cases hstar
    · intro a _ b hb _
      obtain rfl : Cell.char ' ' = b := Option.some.inj hb
      rfl

/-- A blank may be put to an end of a run. -/
theorem Tidy.respaced_atoms (h : Tidy (X ++ Y)) (hstars : starsBehind X = !starsAhead Y) :
    Respaced ((X ++ Y).flatMap Cell.atoms) ((X ++ .char ' ' :: Y).flatMap Cell.atoms) := by
  have hproper := List.forall_mem_append.mp h.proper
  have hbehind : starsBehind (X.flatMap Cell.atoms) = starsBehind X :=
    starsBehind_flatMap fun c hc =>
      ⟨(Cell.sides_atoms (hproper.1 c hc)).1, (Cell.sides_atoms (hproper.1 c hc)).2.2⟩
  have hahead : starsAhead (Y.flatMap Cell.atoms) = starsAhead Y :=
    starsAhead_flatMap fun c hc =>
      ⟨(Cell.sides_atoms (hproper.2 c hc)).1, (Cell.sides_atoms (hproper.2 c hc)).2.1⟩
  have hblank : ∀ b ∈ (Cell.char ' ').atoms, isBlank b = true := by
    intro b hb
    obtain rfl : b = .byte Bytes.space := List.mem_singleton.mp hb
    rfl
  rw [List.flatMap_append, List.flatMap_append, List.flatMap_cons]
  rw [← hahead, ← hbehind] at hstars
  cases hY : starsAhead (Y.flatMap Cell.atoms) with
  | true =>
    rw [hY] at hstars
    exact Respaced.gap_before _ hblank hstars hY
  | false =>
    rw [hY] at hstars
    exact Respaced.gap_behind _ hblank hstars hY

namespace Celled

variable {settings : Settings} {front rest : Bytes} {text : Nat → Bytes}

/-- **A line with one more blank at an end of a run, cell by cell.** -/
theorem insert (h : Celled settings front rest text (X ++ Y))
    (hstars : starsBehind X = !starsAhead Y) {rest' : Bytes}
    (hrest : rest' = X.flatMap (Cell.bytes text) ++ Bytes.space :: Y.flatMap (Cell.bytes text))
    (hlength : bulletLength (front ++ rest') = front.length - 1) :
    Celled settings front rest' text (X ++ .char ' ' :: Y) ∧ Respaced rest rest' := by
  have hrespaced := h.tidy.respaced_atoms hstars
  rw [h.atoms_eq] at hrespaced
  have hfill : (Outline.ofLine settings rest).fill ((X ++ .char ' ' :: Y).flatMap Cell.atoms) =
      rest' := by
    rw [Outline.fill_cells, ← h.text_eq, List.flatMap_append, List.flatMap_cons, hrest]
    rfl
  have houtline := Outline.ofLine_fill hrespaced
  have hline := Outline.respaced_fill hrespaced
  rw [hfill] at houtline hline
  refine ⟨⟨h.frame, hlength, ?_, ?_, ?_, h.tidy.insert, ?_, ?_⟩, hline⟩
  · rw [← hline.mem_iff (by decide)]
    exact h.mark
  · rw [← Utf8.isValid_respaced hline]
    exact h.valid
  · rw [houtline]
    exact h.maths
  · rw [houtline]
  · rw [houtline, h.text_eq]
    rfl

end Celled

end

/-! ### Marks of a line with a new blank -/

namespace Hint

section

variable {text : Nat → Bytes} {before : Option Char} {p : Place} {A B : List Cell} {n : Nat}

theorem Place.afterText_space (p : Place) (text : Nat → Bytes) :
    p.afterText ((Cell.char ' ').bytes text) = p.next := rfl

/-- A blank in front of a run. -/
theorem marksOf_insert_before (htidy : Tidy (A ++ .stars n :: B)) :
    marksOf text before p (A ++ .char ' ' :: .stars n :: B) = marksOf text before p A ++
      { (markAt text before p A n B).next with before := some ' ' } ::
        (marksOf text (some '*') (p.afterCells text (A ++ [.stars n])) B).map Mark.next := by
  rw [marksOf_append text before p htidy.starless.1, marksOf, marksOf, Place.afterText_space,
    Place.afterText_next, marksOf_next, markAt, Place.afterCells_append]
  rfl

/-- A blank behind a run. -/
theorem marksOf_insert_after (htidy : Tidy (A ++ .stars n :: B)) :
    marksOf text before p (A ++ .stars n :: .char ' ' :: B) = marksOf text before p A ++
      { markAt text before p A n B with after := some ' ' } ::
        (marksOf text (some '*') (p.afterCells text (A ++ [.stars n])) B).map Mark.next := by
  rw [marksOf_append text before p htidy.starless.1, marksOf, marksOf, Place.afterText_space,
    marksOf_next, marksOf_of_starsAhead text (some ' ') _ htidy.starless.2 (some '*'), markAt,
    Place.afterCells_append]
  rfl

end

theorem Ordered.filter {ms : List Mark} (h : Ordered ms) (q : Mark → Bool) :
    Ordered (ms.filter q) :=
  ⟨h.apart.filter q, fun x hx => h.pos x (List.mem_filter.mp hx).1⟩

theorem isNeeded_of_isBlank {c : Char} (hc : Scan.isBlank c = true) (inside : Option Char) :
    isNeeded (some c) inside = false := by
  simp only [Scan.isBlank, Bool.or_eq_true, beq_iff_eq] at hc
  rcases hc with rfl | rfl <;> rfl

end Hint

namespace Celled

variable {settings : Settings} {front rest : Bytes} {text : Nat → Bytes} {cells : List Cell}

theorem ordered (h : Celled settings front rest text cells) :
    Ordered (lineMarks text front cells) := by
  refine ⟨pairwise_marksOf h.tidy (fun k hk => h.regionText hk) _ _, fun x hx => ?_⟩
  have hstop := stop_offset_of_mem_marksOf hx
  have hpos := width_pos_of_mem_marksOf h.tidy.proper hx
  omega

/-- The hints of a line whose mark `o` becomes `o'`, which settles a hint there. -/
theorem exists_split (h : Celled settings front rest text cells) {rest' : Bytes}
    {cells' : List Cell} (h' : Celled settings front rest' text cells') {A B : List Mark}
    {o o' : Mark} (hold : lineMarks text front cells = A ++ o :: B)
    (hnew : lineMarks text front cells' = A ++ o' :: B.map Mark.next) {i : Nat}
    (hslid : Slid i o o') (hi : o.start.offset ≤ i ∧ i ≤ o.stop.offset) {pair : Mark × Mark}
    {side : Side} (hpair : pair ∈ pairsFrom [] (marks (Protected.ofLine settings (front ++ rest))))
    (hset : Settles o o' pair side) (number base : Nat) :
    ∃ P Q, Hint.ofLine settings number base (front ++ rest) =
        P ++ atMark number base pair o side :: Q ∧
      atMark number base pair o side ∉ P ∧
      Hint.ofLine settings number base (front ++ rest') =
        (P ++ Q).map (moved (base + i : Nat) number) := by
  have hordered := h.ordered
  rw [hold] at hordered
  have hmarks := h.marks_eq
  have hmarks' := h'.marks_eq
  rw [hold] at hmarks
  -- Markers of the same widths are too wide.
  rw [hnew, ← map_slide hordered o', List.filter_map,
    show (fun m : Mark => decide (m.width ≤ Scan.maxWidth)) ∘ slide o o' =
      fun m => decide (m.width ≤ Scan.maxWidth) from
        funext fun m => by rw [Function.comp, width_slide hslid.width], ← hmarks] at hmarks'
  have ho : o ∈ marks (Protected.ofLine settings (front ++ rest)) :=
    ends_subset _ o (mem_ends_iff.mpr ⟨pair, hpair, by cases hset <;> simp⟩)
  have hfiltered := hordered.filter fun m => decide (m.width ≤ Scan.maxWidth)
  rw [← hmarks] at hfiltered
  have hsplit := hfiltered.exists_split_of_settles ho hslid hi number base hpair hset
  rwa [← hmarks'] at hsplit

end Celled

/-! ### A hint followed in its line -/

/-- Where a space follows a hint. -/
def Hint.target (h : Hint) : Int :=
  match h.side with
  | .before => h.offset
  | _ => h.offset + h.width

/-- That a space between `u` and `v`, which together are the line, follows the hint `h`, and what
becomes of the hints of the line. -/
structure Followed (settings : Settings) (number base : Nat) (u v : Bytes) (h : Hint) : Prop where
  target_eq : h.target = (base + u.length : Nat)
  respaced : Respaced (u ++ v) (u ++ Bytes.space :: v)
  hints_eq : ∃ P Q, Hint.ofLine settings number base (u ++ v) = P ++ h :: Q ∧ h ∉ P ∧
    Hint.ofLine settings number base (u ++ Bytes.space :: v) =
      (P ++ Q).map (moved h.target number)

theorem Hint.offset_afterCells_front (text : Nat → Bytes) (front : Bytes) (X : List Cell) :
    ((Place.afterText ⟨0, 0⟩ front).afterCells text X).offset =
      (front ++ X.flatMap (Cell.bytes text)).length := by
  rw [Place.offset_afterCells, List.length_append, Place.afterText, Nat.zero_add]

namespace Celled

variable {settings : Settings} {front rest : Bytes} {text : Nat → Bytes} {X Y : List Cell}
  {n : Nat}

/-- A space at an end of a run, behind something other than blanks and the star of a bullet. -/
theorem followed (h : Celled settings front rest text (X ++ Y))
    (hstars : starsBehind X = !starsAhead Y) (hpad : padding (front ++ rest) ≤ 1)
    (hanchor : (∃ x ∈ X.flatMap (Cell.bytes text), isStar x = false ∧ isBlank x = false) ∨
      ∃ u v, X.flatMap (Cell.bytes text) = u ++ v ∧ (∃ x ∈ u, isBlank x = false) ∧
        ∃ y ∈ v, isBlank y = false)
    {A B : List Mark} {o o' : Mark} (hold : lineMarks text front (X ++ Y) = A ++ o :: B)
    (hnew : lineMarks text front (X ++ .char ' ' :: Y) = A ++ o' :: B.map Mark.next) {i : Nat}
    (hlen : i = (front ++ X.flatMap (Cell.bytes text)).length) (hslid : Slid i o o')
    (hi : o.start.offset ≤ i ∧ i ≤ o.stop.offset) {pair : Mark × Mark} {side : Side}
    (hpair : pair ∈ pairsFrom [] (marks (Protected.ofLine settings (front ++ rest))))
    (hset : Settles o o' pair side) {number base : Nat}
    (htarget : (atMark number base pair o side).target = (base + i : Nat)) :
    Followed settings number base (front ++ X.flatMap (Cell.bytes text))
      (Y.flatMap (Cell.bytes text)) (atMark number base pair o side) := by
  obtain ⟨head, regions, hframe⟩ := h.frame
  set s := X.flatMap (Cell.bytes text) with hs
  set t := Y.flatMap (Cell.bytes text) with ht
  have hrest : rest = s ++ t := by rw [hs, ht, ← List.flatMap_append, ← h.rest_eq]
  have hsolid : ∃ x ∈ s, isBlank x = false := by
    rcases hanchor with ⟨x, hx, -, hsolid⟩ | ⟨u, v, huv, ⟨x, hx, hsolid⟩, -⟩
    · exact ⟨x, hx, hsolid⟩
    · exact ⟨x, by rw [huv]; exact List.mem_append_left _ hx, hsolid⟩
  -- What stands in front of the space decides on the blanks at the start of the line.
  have hlength : bulletLength (front ++ (s ++ Bytes.space :: t)) = front.length - 1 := by
    refine (hframe.bulletLength_eq h.length_eq hpad ?_ ?_).1
    · rw [hrest, lead_append hsolid, lead_append hsolid]
    · rw [hrest, padding_append hanchor, padding_append hanchor]
  obtain ⟨h', hrespaced⟩ := h.insert hstars rfl hlength
  have hline := hrespaced.append_left hframe.starsBehind_front
  have hsplit := h.exists_split h' hold hnew hslid hi hpair hset number base
  rw [hrest, ← List.append_assoc, ← List.append_assoc] at hline hsplit
  exact ⟨by rw [htarget, hlen], hline, by rwa [htarget]⟩

/-- A hint in front of a marker sees a character there, neither a blank nor a region. -/
theorem exists_char_of_isNeeded (h : Celled settings front rest text (X ++ .stars n :: Y))
    {inside : Option Char} (hneed : isNeeded (lastFace (frontFace front) X) inside = true) :
    ∃ X' c, X = X' ++ [.char c] ∧ isStar c = false ∧ isBlank c = false := by
  obtain ⟨head, regions, hframe⟩ := h.frame
  rcases List.eq_nil_or_concat X with rfl | ⟨X, c, rfl⟩
  · -- In front of the first cell stands nothing, or the blank behind a bullet.
    cases hframe with
    | bare => cases hneed
    | bullet indent b hindent hb =>
      have hblank : Scan.isBlank (Char.ofNat b.toNat) = true := by
        rcases Bool.or_eq_true_iff.mp hb with hb | hb <;> rw [beq_iff_eq.mp hb] <;> rfl
      rw [lastFace_nil, frontFace,
        show indent ++ [Bytes.star, b] = indent ++ [Bytes.star] ++ [b] by simp,
        List.getLast?_concat, Option.map_some, isNeeded_of_isBlank hblank] at hneed
      cases hneed
  · rw [List.concat_eq_append] at h hneed ⊢
    have hstars := h.tidy.starless.1
    have hproper := h.tidy.proper c (by simp)
    rw [starsBehind_concat] at hstars
    rw [lastFace, List.getLast?_concat] at hneed
    cases c with
    | char c =>
      refine ⟨X, c, rfl, beq_eq_false_iff_ne.mpr hproper.1, ?_⟩
      rw [← Bool.not_eq_true]
      intro hblank
      rw [Option.map_some, Option.some_or, Cell.face, isNeeded_of_isBlank hblank] at hneed
      cases hneed
    | stars n => cases hstars
    | hole k => cases hneed

/-- The closing marker of a pair has another run in front of it. -/
theorem exists_star_of_sublist (h : Celled settings front rest text (X ++ .stars n :: Y))
    {f : Mark} (hsub : [f, markAt text (frontFace front) (Place.afterText ⟨0, 0⟩ front) X n
      Y].Sublist (lineMarks text front (X ++ .stars n :: Y))) :
    Bytes.star ∈ X.flatMap (Cell.bytes text) := by
  have hordered := h.ordered
  have hlt := (List.pairwise_cons.mp (hordered.apart.sublist hsub)).1 _
    (List.mem_singleton_self _)
  have hf : f ∈ lineMarks text front (X ++ .stars n :: Y) := hsub.subset (by simp)
  have hpos := hordered.pos f hf
  rw [lineMarks, marksOf_split h.tidy] at hf hordered
  rcases List.mem_append.mp hf with hf | hf
  · obtain ⟨A, k, B, rfl, -⟩ := exists_of_mem_marksOf hf
    have hk : 0 < k := h.tidy.proper (.stars k) (by simp)
    refine List.mem_flatMap.mpr ⟨.stars k, by simp, ?_⟩
    exact List.mem_replicate.mpr ⟨by omega, rfl⟩
  · -- The other marks stand behind this one.
    exfalso
    rcases List.mem_cons.mp hf with rfl | hf
    · omega
    · have hbehind := (List.pairwise_cons.mp (List.pairwise_append.mp hordered.apart).2.1).1 f hf
      have hmpos := hordered.pos _ (List.mem_append_right _ (List.mem_cons_self ..))
      omega

/-- **Every hint can be followed in its line.** -/
theorem exists_followed {cells : List Cell} (h : Celled settings front rest text cells)
    (hpad : padding (front ++ rest) ≤ 1) {number base : Nat} {x : Hint}
    (hx : x ∈ Hint.ofLine settings number base (front ++ rest)) :
    ∃ u v, front ++ rest = u ++ v ∧ Followed settings number base u v x := by
  obtain ⟨⟨f, m⟩, hpair, hmem⟩ := List.mem_flatMap.mp hx
  have hsub := (sublist_of_mem_pairsFrom hpair).2
  rw [h.marks_eq] at hsub
  replace hsub : [f, m].Sublist (lineMarks text front cells) := hsub.trans List.filter_sublist
  rcases mem_ofPair_iff.mp hmem with ⟨hneed, rfl⟩ | ⟨hneed, rfl⟩
  · -- In front of the opening marker the space follows a character.
    have hf : f ∈ lineMarks text front cells := hsub.subset (by simp)
    obtain ⟨A, n, B, rfl, rfl⟩ := exists_of_mem_marksOf hf
    have hpos := h.ordered.pos _ hf
    obtain ⟨A', c, hA, hstar, hblank⟩ := h.exists_char_of_isNeeded hneed
    refine ⟨_, _, h.line_split, h.followed ?_ hpad (.inl ?_) (marksOf_split h.tidy)
      (marksOf_insert_before h.tidy) (offset_afterCells_front text front A) (.before hpos)
      ⟨Nat.le_refl _, hpos.le⟩ hpair (.before m hneed (isNeeded_of_isBlank rfl _)) rfl⟩
    · rw [h.tidy.starless.1]
      rfl
    · obtain ⟨b, t, hbt, hb, hb', -⟩ := Utf8.spelling_encodeChar.solid c hstar hblank
      refine ⟨b, List.mem_flatMap.mpr ⟨.char c, by rw [hA]; simp, ?_⟩, hb, hb'⟩
      rw [Cell.bytes, hbt]
      exact List.mem_cons_self ..
  · -- Behind the closing marker it follows two runs, of which only one can be a bullet.
    have hm : m ∈ lineMarks text front cells := hsub.subset (by simp)
    have htarget : (atMark number base (f, m) m .after).target = (base + m.stop.offset : Nat) := by
      rw [stop_offset_of_mem_marksOf hm, ← Nat.add_assoc, Int.natCast_add]
      rfl
    obtain ⟨A, n, B, rfl, rfl⟩ := exists_of_mem_marksOf hm
    have hpos := h.ordered.pos _ hm
    have hn : 0 < n := h.tidy.proper (.stars n) (by simp)
    have hstar := h.exists_star_of_sublist hsub
    have htidy := h.tidy
    have hold : lineMarks text front (A ++ .stars n :: B) = _ := marksOf_split htidy
    have hnew : lineMarks text front (A ++ .stars n :: .char ' ' :: B) = _ :=
      marksOf_insert_after htidy
    have hcells : ∀ C, A ++ .stars n :: C = (A ++ [.stars n]) ++ C := by simp
    rw [hcells] at h hold hnew
    refine ⟨_, _, h.line_split, h.followed ?_ hpad (.inr ?_) hold hnew
      (offset_afterCells_front text front _) (.after hpos) ⟨hpos.le, Nat.le_refl _⟩ hpair
      (.after f hneed (isNeeded_of_isBlank rfl _)) htarget⟩
    · rw [starsBehind_concat, htidy.starless.2]
      rfl
    · refine ⟨_, _, List.flatMap_append, ⟨_, hstar, rfl⟩, Bytes.star, ?_, rfl⟩
      exact List.mem_flatMap.mpr ⟨_, List.mem_singleton_self _,
        List.mem_replicate.mpr ⟨by omega, rfl⟩⟩

end Celled

/-! ### Hints of other lines -/

namespace Hint

section

variable {i n : Int} {settings : Settings} {state : Block.State} {number base : Nat}

/-- A space moves on what lies behind it by one byte. -/
theorem moved_atMark_of_lt (hi : i < base) (hn : n < number) (pair : Mark × Mark) (m : Mark)
    (side : Side) :
    (atMark number base pair m side).moved i n = atMark number (base + 1) pair m side := by
  simp only [moved, atMark, Hint.mk.injEq, Stretch.mk.injEq, true_and]
  refine ⟨if_neg fun h => ?_, ?_, ?_, ?_⟩
  · omega
  all_goals
    refine (if_pos (by omega)).trans ?_
    omega

theorem ofLine_succ (hi : i < base) (hn : n < number) (line : Bytes) :
    ofLine settings number (base + 1) line =
      (ofLine settings number base line).map (moved i n) := by
  rw [ofLine, ofLine, List.map_flatMap]
  congr 1
  funext ⟨f, m⟩
  rw [ofPair_eq, ofPair_eq, ← moved_atMark_of_lt hi hn, ← moved_atMark_of_lt hi hn]
  cases isNeeded f.before f.after <;> cases isNeeded m.after m.before <;> rfl

theorem ofLines_succ (hi : i < base) (hn : n < number) (ls : List Line) :
    ofLines settings state number (base + 1) ls =
      (ofLines settings state number base ls).map (moved i n) := by
  induction ls generalizing state number base with
  | nil => rfl
  | cons l ls ih =>
    rw [ofLines_cons, ofLines_cons, List.map_append, Nat.add_right_comm,
      ih (by omega) (by omega), ofLine_succ hi hn]
    split_ifs <;> rfl

/-- What lies in front of a space stays. -/
theorem moved_of_mem_ofLines {ls : List Line} {h : Hint}
    (hjoin : ∀ l ∈ ls, mathJoined settings l.content = false)
    (hi : (base + (Line.join ls).length : Nat) ≤ i)
    (hh : h ∈ ofLines settings state number base ls) :
    h.moved i n = h ∧ h.line < number + ls.length := by
  obtain ⟨pre, l, post, rfl, -, hscan, hmem⟩ := exists_of_mem_ofLines hh
  obtain ⟨f, m, x, side, hf, hm, -, hlt, hx, rfl⟩ :=
    exists_of_mem_ofLine hscan (hjoin l (by simp)) hmem
  have hxstart : x.start.offset < m.stop.offset ∧ f.start.offset < m.stop.offset := by
    have hfstop := hf.stop_eq
    have hmstop := hm.stop_eq
    have hpos := hm.width_pos
    rcases hx with ⟨rfl, -⟩ | ⟨rfl, -⟩
    all_goals omega
  have hend := hm.stop_le
  have hlen : (Line.join (pre ++ l :: post)).length = (Line.join pre).length +
      (l.content.length + l.ending.bytes.length + (Line.join post).length) := by
    simp [Line.join, Line.bytes]
    omega
  rw [hlen] at hi
  constructor
  · simp only [moved, atMark, Hint.mk.injEq, Stretch.mk.injEq, true_and]
    refine ⟨if_neg fun h => ?_, if_neg ?_, if_neg ?_, if_neg ?_⟩
    all_goals omega
  · show ((number + pre.length : Nat) : Int) < _
    rw [List.length_append, List.length_cons]
    omega

end

theorem length_join_take_add_drop (ls : List Line) (k : Nat) :
    (Line.join (ls.take k)).length + (Line.join (ls.drop k)).length = (Line.join ls).length := by
  rw [← List.length_append, Line.join, Line.join, ← List.flatMap_append, List.take_append_drop,
    Line.join]

/-- The hints of a document in two parts, split behind the front matter. -/
theorem ofDocument_of_split {settings : Settings} {text : Bytes} {pre ls : List Line} {skip : Nat}
    (hsplit : Line.split text = pre ++ ls) (hskip : frontLines settings (pre ++ ls) = skip)
    (hle : skip ≤ pre.length) :
    ofDocument settings text =
      ofLines settings .text (skip + 1) (Line.join (pre.take skip)).length (pre.drop skip) ++
        ofLines settings (blockAfter settings .text (pre.drop skip)) (pre.length + 1)
          (Line.join pre).length ls := by
  have hnumber : skip + 1 + (pre.drop skip).length = pre.length + 1 := by
    rw [List.length_drop]
    omega
  have htake : (Line.split text).take skip = pre.take skip := by
    rw [hsplit, List.take_append_of_le_length hle]
  have hdrop : (Line.split text).drop skip = pre.drop skip ++ ls := by
    rw [hsplit, List.drop_append_of_le_length hle]
  rw [← hsplit] at hskip
  rw [← hnumber, ← length_join_take_add_drop pre skip, ← ofLines_append, ← hdrop, ← htake, ← hskip]
  rfl

end Hint

/-! ### A hint followed in its document -/

/-- A text with one space put at byte `i`. -/
def insertSpace (text : Bytes) (i : Nat) : Bytes :=
  text.take i ++ Bytes.space :: text.drop i

theorem insertSpace_append (s t : Bytes) :
    insertSpace (s ++ t) s.length = s ++ Bytes.space :: t := by
  rw [insertSpace, List.take_left, List.drop_left]

/-- A space in a line that leaves it respaced keeps the lines around it, and the front matter in
front of it. -/
theorem split_insertSpace {text u v : Bytes} {pre post : List Line} {ending : Ending}
    (hsplit : Line.split text = pre ++ ⟨u ++ v, ending⟩ :: post)
    (hrespaced : Respaced (u ++ v) (u ++ Bytes.space :: v)) (hstar : Bytes.star ∈ u ++ v) :
    Line.split (insertSpace text ((Line.join pre).length + u.length)) =
        pre ++ ⟨u ++ Bytes.space :: v, ending⟩ :: post ∧
      ∀ settings, frontLines settings (Line.split text) ≤ pre.length →
        frontLines settings (pre ++ ⟨u ++ Bytes.space :: v, ending⟩ :: post) =
          frontLines settings (Line.split text) := by
  have hrefl : ∀ ls : List Line, List.Forall₂ Kept ls ls := fun ls =>
    List.forall₂_same.mpr fun _ _ => .inl rfl
  have hkept : List.Forall₂ Kept (Line.split text)
      (pre ++ ⟨u ++ Bytes.space :: v, ending⟩ :: post) := by
    rw [hsplit]
    exact List.rel_append (hrefl pre)
      (.cons (.inr ⟨rfl, .of_respaced hrespaced hstar⟩) (hrefl post))
  have htext : insertSpace text ((Line.join pre).length + u.length) =
      Line.join (pre ++ ⟨u ++ Bytes.space :: v, ending⟩ :: post) := by
    have hjoin : text = (Line.join pre ++ u) ++ (v ++ (ending.bytes ++ Line.join post)) := by
      rw [← Line.join_split text, hsplit]
      simp [Line.join, Line.bytes]
    rw [hjoin, ← List.length_append, insertSpace_append]
    simp [Line.join, Line.bytes]
  constructor
  · rw [htext, Line.split_join (proper_of_kept hkept (Line.proper_split text))]
  · intro settings hle
    refine frontLines_of_kept settings hkept ?_
    rw [hsplit] at hle ⊢
    rw [List.take_append_of_le_length hle, List.take_append_of_le_length hle]

/-- A space behind some lines leaves their hints where they are. -/
theorem moved_of_mem_front {settings : Settings} {pre : List Line} {skip : Nat} {i n : Int}
    {x : Hint} (hle : skip ≤ pre.length)
    (hjoin : ∀ l ∈ pre, mathJoined settings l.content = false) (hi : (Line.join pre).length ≤ i)
    (hx : x ∈ ofLines settings .text (skip + 1) (Line.join (pre.take skip)).length
      (pre.drop skip)) : x.moved i n = x ∧ x.line < (pre.length + 1 : Nat) := by
  rw [← length_join_take_add_drop pre skip] at hi
  obtain ⟨hmoved, hlt⟩ := moved_of_mem_ofLines (n := n)
    (fun l hl => hjoin l (List.mem_of_mem_drop hl)) hi hx
  rw [List.length_drop] at hlt
  exact ⟨hmoved, by omega⟩

/-- A space in a line moves on the hints of all lines behind it. -/
theorem ofLines_behind_insertSpace {settings : Settings} {state : Block.State} {number base : Nat}
    {n : Int} {u v : Bytes} {pre post : List Line} {ending : Ending}
    (hproper : Line.Proper (pre ++ ⟨u ++ v, ending⟩ :: post)) (hn : n < number) :
    ofLines settings state number
        (base + (Line.bytes ⟨u ++ Bytes.space :: v, ending⟩).length) post =
      (ofLines settings state number (base + (Line.bytes ⟨u ++ v, ending⟩).length) post).map
        (moved (base + u.length : Nat) n) := by
  have hlength : (Line.bytes ⟨u ++ v, ending⟩).length =
      u.length + v.length + ending.bytes.length := by
    simp [Line.bytes]
    omega
  have hlength' : (Line.bytes ⟨u ++ Bytes.space :: v, ending⟩).length =
      (Line.bytes ⟨u ++ v, ending⟩).length + 1 := by
    simp [Line.bytes]
    omega
  rw [hlength', ← Nat.add_assoc]
  cases hending : ending with
  | none =>
    rw [hproper.ending_ne_none.2 hending]
    rfl
  | lf | crlf =>
    rw [← hending]
    have hpos : 0 < ending.bytes.length := by rw [hending]; decide
    exact ofLines_succ (by omega) hn post

/-- The hints around and in the line of `h`, which goes away. -/
theorem Hint.map_erase_of_notMem {E P Q R : List Hint} {h : Hint} {f : Hint → Hint}
    (hE : ∀ x ∈ E, f x = x ∧ x ≠ h) (hP : h ∉ P) :
    ((E ++ ((P ++ h :: Q) ++ R)).erase h).map f = E ++ ((P ++ Q).map f ++ R.map f) := by
  have hkeep : E.map f = E := (List.map_congr_left fun x hx => (hE x hx).1).trans (List.map_id' E)
  rw [List.erase_append_right _ fun hmem => (hE h hmem).2 rfl, List.append_assoc P,
    List.erase_append_right _ hP, List.cons_append, List.erase_cons_head, List.map_append, hkeep,
    ← List.append_assoc P, List.map_append]

/-- **Following a hint settles it and moves the others**, in every document in which no line starts
with a star and two blanks, and no math region has two code spans with digits and nothing else
between them. -/
theorem hints_insertSpace (settings : Settings) (text : Bytes)
    (hwide : ∀ l ∈ Line.split text, opensWide l.content = false)
    (hjoin : ∀ l ∈ Line.split text, mathJoined settings l.content = false) :
    ∀ h ∈ hints settings [] text, hints settings [] (insertSpace text h.target.toNat) =
      ((hints settings [] text).erase h).map (Hint.moved h.target h.line) := by
  intro h hh
  have hall : ∀ t, hints settings [] t = ofDocument settings t := fun t =>
    List.filter_eq_self.mpr fun _ _ => rfl
  rw [hall] at hh
  rw [hall, hall]
  obtain ⟨pre, ⟨content, ending⟩, post, hsplit, hle, hopen, hscan, hmem⟩ :=
    exists_of_mem_ofDocument hh
  have hl : ⟨content, ending⟩ ∈ Line.split text := by rw [hsplit]; simp
  have hnumber : h.line = (pre.length + 1 : Nat) := by
    obtain ⟨f, m, x, side, -, -, -, -, -, rfl⟩ := exists_of_mem_ofLine hscan (hjoin _ hl) hmem
    rfl
  obtain ⟨front, rest, cellText, cells, hline, hcelled⟩ := exists_celled hscan (hjoin _ hl)
  have hpad := padding_le_one_of_not_opensWide (hwide _ hl)
  obtain ⟨u, v, huv, hfollowed⟩ := hcelled.exists_followed (hline ▸ hpad) (hline ▸ hmem)
  obtain rfl : content = u ++ v := hline.trans huv
  obtain ⟨P, Q, hold, hnotin, hnew⟩ := hfollowed.hints_eq
  have hstar := (needsScan_iff.mp hscan).1
  have hproper := Line.proper_split text
  rw [hsplit] at hproper
  obtain ⟨hsplit', hfront⟩ := split_insertSpace hsplit hfollowed.respaced hstar
  have hfront' := hfront settings hle
  have htarget := hfollowed.target_eq
  generalize hskip : frontLines settings (Line.split text) = skip at hle hopen hfront'
  -- The lines in front of this one keep their hints, and `h` is none of them.
  have hearly : ∀ x ∈ ofLines settings .text (skip + 1) (Line.join (pre.take skip)).length
      (pre.drop skip), x.moved h.target h.line = x ∧ x ≠ h := by
    intro x hx
    obtain ⟨hmoved, hlt⟩ := moved_of_mem_front (i := h.target) (n := h.line) hle
      (fun l hl => hjoin l (by rw [hsplit]; simp [hl])) (by omega) hx
    refine ⟨hmoved, fun heq => ?_⟩
    rw [heq, hnumber] at hlt
    omega
  -- The hints from before, in three parts: the lines in front, this line and the lines behind.
  rw [ofDocument_of_split hsplit (hsplit ▸ hskip) hle, ofLines_cons, hopen, hscan, Bool.and_self,
    if_pos rfl, hold, map_erase_of_notMem hearly hnotin, htarget, Int.toNat_natCast]
  -- The hints from after, in the same parts.
  rw [ofDocument_of_split hsplit' hfront' hle, ofLines_cons,
    (Reworked.of_respaced hfollowed.respaced hstar).step_eq hopen,
    ← needsScan_respaced hfollowed.respaced, hopen, hscan, Bool.and_self, if_pos rfl, hnew,
    ofLines_behind_insertSpace (n := h.line) hproper (by omega), htarget, hnumber]

/-- The space in front of the inner marker of two nested spans lies within the outer span, and in
front of the hint of the next line. -/
theorem hints_insertSpace_nested :
    ⟨1, 5, 8, .before, 1, ⟨8, 13⟩⟩ ∈
        hints Settings.standard [] (bytes "中**粗*斜*粗**文\n字*斜* 体") ∧
      hints Settings.standard [] (insertSpace (bytes "中**粗*斜*粗**文\n字*斜* 体") 8) =
        [⟨1, 8, 13, .after, 1, ⟨9, 14⟩⟩, ⟨1, 2, 3, .before, 2, ⟨3, 19⟩⟩,
          ⟨1, 10, 17, .after, 2, ⟨3, 19⟩⟩, ⟨2, 2, 26, .before, 1, ⟨26, 31⟩⟩] := by
  have hmem : ⟨1, 5, 8, .before, 1, ⟨8, 13⟩⟩ ∈
      hints Settings.standard [] (bytes "中**粗*斜*粗**文\n字*斜* 体") := by decide +kernel
  refine ⟨hmem, (hints_insertSpace Settings.standard _ (by decide +kernel) (by decide +kernel) _
    hmem).trans ?_⟩
  decide +kernel

end EmphasisSpacing
