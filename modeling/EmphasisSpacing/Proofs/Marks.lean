import EmphasisSpacing.Proofs.Cells

/-!
# Marks and pairs

What the cells of a line say about its marks: each mark is a run among the cells
(`exists_of_mem_marksOf`), marks follow one another without touching (`pairwise_marksOf`), and they
are found independently on both sides of a place where no run is cut (`marksOf_append`).

Pairing looks at the widths of the marks only (`pairBy_map`), so it is the same for anything that has a
width. The opening mark of a pair stands in front of the closing one (`sublist_of_mem_pairBy`), pairs
are nested or apart (`pairwise_pairBy`), and no mark belongs to two pairs, or to one pair twice
(`nodup_ends`).
-/

namespace EmphasisSpacing

open LineSymbol Atom

/-! ### Cells next to a run -/

/-- A cell shows stars to its neighbours only if it is a run. -/
theorem Cell.sides (text : Nat → Bytes) {c : Cell} (hc : c.Proper)
    (htext : ∀ k, c = .hole k → RegionText (text k)) :
    c.bytes text ≠ [] ∧ starsAhead (c.bytes text) = isStar c ∧
      starsBehind (c.bytes text) = isStar c := by
  cases c with
  | char c =>
    have hsides := Utf8.spelling_encodeChar.sides c
    rwa [show isStar c = false from beq_eq_false_iff_ne.mpr hc.1] at hsides
  | stars n =>
    cases n with
    | zero => exact absurd hc (Nat.lt_irrefl 0)
    | succ n =>
      refine ⟨by simp [bytes], rfl, ?_⟩
      rw [bytes, List.replicate_succ', starsBehind_concat]
      rfl
  | hole k =>
    obtain ⟨d, t, hdt⟩ := (htext k rfl).sides
    rw [bytes, hdt, ← List.cons_append, starsBehind_concat]
    cases d <;> exact ⟨by simp, rfl, rfl⟩

section

variable {text : Nat → Bytes} {cells : List Cell} (hproper : ∀ c ∈ cells, c.Proper)
  (htext : ∀ k, .hole k ∈ cells → RegionText (text k))

include hproper htext

theorem starsBehind_bytes : starsBehind (cells.flatMap (Cell.bytes text)) = starsBehind cells := by
  refine starsBehind_flatMap fun c hc => ?_
  obtain ⟨hne, -, hbehind⟩ := Cell.sides text (hproper c hc) fun k hk => htext k (hk ▸ hc)
  exact ⟨hne, hbehind⟩

theorem starsAhead_bytes : starsAhead (cells.flatMap (Cell.bytes text)) = starsAhead cells := by
  refine starsAhead_flatMap fun c hc => ?_
  obtain ⟨hne, hahead, -⟩ := Cell.sides text (hproper c hc) fun k hk => htext k (hk ▸ hc)
  exact ⟨hne, hahead⟩

end

namespace Hint

/-! ### Marks among cells -/

/-- The character behind which the next cell stands. -/
def lastFace (before : Option Char) (cells : List Cell) : Option Char :=
  (cells.getLast?.map Cell.face).or before

@[simp]
theorem lastFace_nil (before : Option Char) : lastFace before [] = before := rfl

@[simp]
theorem lastFace_cons (before : Option Char) (c : Cell) (cells : List Cell) :
    lastFace before (c :: cells) = lastFace (some c.face) cells := by
  rw [lastFace, lastFace, List.getLast?_cons]
  cases cells.getLast? <;> rfl

/-- The mark of a run of `n` stars between the cells `A` and `B` of a line. -/
def markAt (text : Nat → Bytes) (before : Option Char) (p : Place) (A : List Cell) (n : Nat)
    (B : List Cell) : Mark :=
  ⟨n, lastFace before A, B.head?.map Cell.face, p.afterCells text A,
    p.afterCells text (A ++ [.stars n])⟩

section

variable (text : Nat → Bytes) (before : Option Char) (p : Place)

theorem marksOf_cons_of_not_isStar {c : Cell} (hc : isStar c = false) (cells : List Cell) :
    marksOf text before p (c :: cells) =
      marksOf text (some c.face) (p.afterText (c.bytes text)) cells := by
  cases c with
  | char c => rfl
  | stars n => cases hc
  | hole k => rfl

/-- The marks on both sides of a place where no run is cut. -/
theorem marksOf_append {A : List Cell} (hA : starsBehind A = false) (B : List Cell) :
    marksOf text before p (A ++ B) =
      marksOf text before p A ++ marksOf text (lastFace before A) (p.afterCells text A) B := by
  induction A generalizing before p with
  | nil => rfl
  | cons c A ih =>
    have hrest : A ≠ [] → starsBehind A = false := by
      intro hne
      rwa [← List.singleton_append, starsBehind_append, if_neg hne] at hA
    cases hc : isStar c with
    | false =>
      have hA' : starsBehind A = false := by
        by_cases hne : A = []
        · rw [hne]
          rfl
        · exact hrest hne
      rw [List.cons_append, marksOf_cons_of_not_isStar text before p hc, ih _ _ hA',
        marksOf_cons_of_not_isStar text before p hc, lastFace_cons, Place.afterCells_cons]
    | true =>
      cases c with
      | char c => cases hc
      | hole k => cases hc
      | stars n =>
        -- This run is not the last cell of `A`, so it sees the same neighbour in `A ++ B`.
        cases A with
        | nil => cases hA
        | cons d A =>
          rw [List.cons_append, marksOf, ih _ _ (hrest (by simp)), marksOf,
            lastFace_cons before (.stars n) (d :: A)]
          rfl

/-- Without a run at the front, it does not matter what stands there. -/
theorem marksOf_of_starsAhead {cells : List Cell} (h : starsAhead cells = false)
    (before' : Option Char) : marksOf text before p cells = marksOf text before' p cells := by
  cases cells with
  | nil => rfl
  | cons c cells =>
    rw [marksOf_cons_of_not_isStar text before p h, marksOf_cons_of_not_isStar text before' p h]

end

section

variable {text : Nat → Bytes} {before : Option Char} {p : Place} {cells : List Cell} {m : Mark}

/-- Every mark is a run among the cells. -/
theorem exists_of_mem_marksOf (hm : m ∈ marksOf text before p cells) :
    ∃ A n B, cells = A ++ .stars n :: B ∧ m = markAt text before p A n B := by
  induction cells generalizing before p with
  | nil => cases hm
  | cons c cells ih =>
    have hlater : m ∈ marksOf text (some c.face) (p.afterText (c.bytes text)) cells →
        ∃ A n B, c :: cells = A ++ .stars n :: B ∧ m = markAt text before p A n B := by
      intro hm
      obtain ⟨A, n, B, rfl, rfl⟩ := ih hm
      refine ⟨c :: A, n, B, rfl, ?_⟩
      rw [markAt, markAt, lastFace_cons, List.cons_append, Place.afterCells_cons,
        Place.afterCells_cons]
    cases c with
    | char c => exact hlater hm
    | hole k => exact hlater hm
    | stars n =>
      rcases List.mem_cons.mp hm with rfl | hm
      · exact ⟨[], n, cells, rfl, rfl⟩
      · exact hlater hm

/-- The marks in front of a run, its own, and those behind it. -/
theorem marksOf_split {A B : List Cell} {n : Nat} (htidy : Tidy (A ++ .stars n :: B)) :
    marksOf text before p (A ++ .stars n :: B) = marksOf text before p A ++
      markAt text before p A n B ::
        marksOf text (some '*') (p.afterCells text (A ++ [.stars n])) B := by
  rw [marksOf_append text before p htidy.starless.1, marksOf, markAt, Place.afterCells_append]
  rfl

/-! ### The order of marks -/

theorem Place.offset_afterCells (text : Nat → Bytes) (p : Place) (cells : List Cell) :
    (p.afterCells text cells).offset = p.offset + (cells.flatMap (Cell.bytes text)).length := by
  induction cells generalizing p with
  | nil => rfl
  | cons c cells ih =>
    rw [afterCells_cons, ih, List.flatMap_cons, List.length_append, ← Nat.add_assoc]
    rfl

theorem stop_offset_markAt (A B : List Cell) (n : Nat) :
    (markAt text before p A n B).stop.offset = (markAt text before p A n B).start.offset + n := by
  rw [markAt, Place.afterCells_append, Place.afterCells_cons, Place.afterCells_nil]
  simp [Place.afterText, Cell.bytes]

theorem stop_offset_of_mem_marksOf (hm : m ∈ marksOf text before p cells) :
    m.stop.offset = m.start.offset + m.width := by
  obtain ⟨A, n, B, -, rfl⟩ := exists_of_mem_marksOf hm
  exact stop_offset_markAt A B n

theorem width_pos_of_mem_marksOf (hproper : ∀ c ∈ cells, c.Proper)
    (hm : m ∈ marksOf text before p cells) : 0 < m.width := by
  obtain ⟨A, n, B, rfl, rfl⟩ := exists_of_mem_marksOf hm
  exact hproper (.stars n) (by simp)

/-- Behind the character or the region that cells start with, the first mark is further on. -/
theorem offset_lt_of_mem_marksOf (hproper : ∀ c ∈ cells, c.Proper)
    (htext : ∀ k, .hole k ∈ cells → RegionText (text k)) (hstars : starsAhead cells = false)
    (hm : m ∈ marksOf text before p cells) : p.offset < m.start.offset := by
  obtain ⟨A, n, B, rfl, rfl⟩ := exists_of_mem_marksOf hm
  cases A with
  | nil => cases hstars
  | cons c A =>
    obtain ⟨hne, -, -⟩ := Cell.sides text (hproper c (by simp))
      fun k hk => htext k (by simp [hk])
    rw [markAt, Place.offset_afterCells, List.flatMap_cons, List.length_append]
    have hpos := List.length_pos_iff.mpr hne
    omega

/-- **Marks follow one another and do not touch.** -/
theorem pairwise_marksOf (htidy : Tidy cells)
    (htext : ∀ k, .hole k ∈ cells → RegionText (text k)) (before : Option Char) (p : Place) :
    (marksOf text before p cells).Pairwise fun a b => a.stop.offset < b.start.offset := by
  induction cells generalizing before p with
  | nil => exact .nil
  | cons c cells ih =>
    have htext' : ∀ k, .hole k ∈ cells → RegionText (text k) := fun k hk =>
      htext k (List.mem_cons_of_mem _ hk)
    have hrest := ih htidy.tail htext' (some c.face) (p.afterText (c.bytes text))
    cases c with
    | char c => exact hrest
    | hole k => exact hrest
    | stars n =>
      refine .cons (fun b hb => ?_) hrest
      exact offset_lt_of_mem_marksOf htidy.tail.proper htext'
        (Tidy.starless (A := []) htidy).2 hb

end

/-! ### Marks one place further on -/

/-- The place one byte and one character further on. -/
def Place.next (p : Place) : Place := ⟨p.offset + 1, p.column + 1⟩

/-- A mark one place further on. -/
def Mark.next (m : Mark) : Mark := { m with start := m.start.next, stop := m.stop.next }

theorem Place.afterText_next (p : Place) (s : Bytes) :
    p.next.afterText s = (p.afterText s).next := by
  simp only [afterText, next, Place.mk.injEq]
  omega

theorem marksOf_next (text : Nat → Bytes) (before : Option Char) (p : Place)
    (cells : List Cell) :
    marksOf text before p.next cells = (marksOf text before p cells).map Mark.next := by
  induction cells generalizing before p with
  | nil => rfl
  | cons c cells ih =>
    cases c with
    | char c => rw [marksOf, marksOf, Place.afterText_next, ih]
    | hole k => rw [marksOf, marksOf, Place.afterText_next, ih]
    | stars n =>
      rw [marksOf, marksOf, Place.afterText_next, ih]
      rfl

/-! ### Pairs -/

/-- `pairsFrom` for anything that has a width. -/
def pairBy {α : Type*} (width : α → Nat) : (frames : List α) → List α → List (α × α)
  | _, [] => []
  | [], m :: ms => pairBy width [m] ms
  | f :: frames, m :: ms =>
    if width f == width m then (f, m) :: pairBy width frames ms
    else pairBy width (m :: f :: frames) ms

theorem pairsFrom_eq (frames ms : List Mark) :
    pairsFrom frames ms = pairBy Mark.width frames ms := by
  induction ms generalizing frames with
  | nil => cases frames <;> rfl
  | cons m ms ih =>
    cases frames with
    | nil => exact ih [m]
    | cons f frames => rw [pairsFrom, pairBy, ih, ih]

section

variable {α β : Type*} {width : α → Nat} {frames ms : List α}

/-- Pairing asks for widths only. -/
theorem pairBy_map (g : α → β) (width : β → Nat) (frames ms : List α) :
    pairBy width (frames.map g) (ms.map g) =
      (pairBy (fun a => width (g a)) frames ms).map (Prod.map g g) := by
  induction ms generalizing frames with
  | nil => cases frames <;> rfl
  | cons m ms ih =>
    cases frames with
    | nil => exact ih [m]
    | cons f frames =>
      rw [List.map_cons, List.map_cons, pairBy, pairBy]
      split_ifs
      · rw [ih, List.map_cons]
        rfl
      · exact ih (m :: f :: frames)

/-- **The first of a pair stands in front of the second**, which is as wide. -/
theorem sublist_of_mem_pairBy {f m : α} (h : (f, m) ∈ pairBy width frames ms) :
    width f = width m ∧ [f, m].Sublist (frames.reverse ++ ms) := by
  induction ms generalizing frames with
  | nil => cases frames <;> cases h
  | cons x ms ih =>
    cases frames with
    | nil => exact ih (show (f, m) ∈ pairBy width [x] ms from h)
    | cons y frames =>
      rw [pairBy] at h
      rw [List.reverse_cons]
      split_ifs at h with hwidth
      · rcases List.mem_cons.mp h with heq | h
        · -- The new mark closes the top of the stack, the last one of those in front that are open.
          cases heq
          refine ⟨beq_iff_eq.mp hwidth, ?_⟩
          rw [List.append_assoc]
          exact (((List.nil_sublist ms).cons_cons m).cons_cons f).trans
            (List.sublist_append_right ..)
        · obtain ⟨heq, hsub⟩ := ih h
          refine ⟨heq, hsub.trans ?_⟩
          exact (List.sublist_append_left ..).append (List.sublist_cons_self ..)
      · obtain ⟨heq, hsub⟩ := ih h
        exact ⟨heq, by simpa using hsub⟩

/-- The second of a pair is new, and the first is new or was open before. -/
theorem mem_of_mem_pairBy {pair : α × α} (h : pair ∈ pairBy width frames ms) :
    (pair.1 ∈ frames ∨ pair.1 ∈ ms) ∧ pair.2 ∈ ms := by
  induction ms generalizing frames with
  | nil => cases frames <;> cases h
  | cons x ms ih =>
    cases frames with
    | nil =>
      obtain ⟨hfst, hsnd⟩ := ih (show pair ∈ pairBy width [x] ms from h)
      simp only [List.mem_cons, List.not_mem_nil, or_false] at hfst ⊢
      exact ⟨.inr hfst, .inr hsnd⟩
    | cons y frames =>
      rw [pairBy] at h
      simp only [List.mem_cons]
      split_ifs at h
      · rcases List.mem_cons.mp h with rfl | h
        · exact ⟨.inl (.inl rfl), .inl rfl⟩
        · obtain ⟨hfst, hsnd⟩ := ih h
          exact ⟨hfst.imp .inr .inr, .inr hsnd⟩
      · obtain ⟨hfst, hsnd⟩ := ih h
        simp only [List.mem_cons] at hfst
        refine ⟨?_, .inr hsnd⟩
        rcases hfst with (hx | hold) | hnew
        · exact .inr (.inl hx)
        · exact .inl hold
        · exact .inr (.inr hnew)

/-- **Pairs come in the order in which they are closed, and of two pairs, the later one starts behind
the other or lies around it.** Induction on the marks that are still to be read, and what is open lies in
front of them. -/
theorem pairwise_pairBy {R : α → α → Prop} (h : (frames.reverse ++ ms).Pairwise R) :
    (pairBy width frames ms).Pairwise fun p q => R p.2 q.2 ∧ (R p.2 q.1 ∨ R q.1 p.1) := by
  induction ms generalizing frames with
  | nil => cases frames <;> exact .nil
  | cons m ms ih =>
    cases frames with
    | nil => exact ih (show ([m].reverse ++ ms).Pairwise R from h)
    | cons f frames =>
      rw [pairBy]
      split_ifs
      · rw [List.reverse_cons, List.append_assoc, List.singleton_append] at h
        obtain ⟨hframes, hrest, hcross⟩ := List.pairwise_append.mp h
        obtain ⟨-, hms⟩ := List.pairwise_cons.mp hrest
        obtain ⟨hbehind, hms⟩ := List.pairwise_cons.mp hms
        have hopen : (frames.reverse ++ ms).Pairwise R :=
          List.pairwise_append.mpr ⟨hframes, hms, fun a ha b hb => hcross a ha b (by simp [hb])⟩
        refine .cons (fun q hq => ?_) (ih hopen)
        obtain ⟨hfst, hsnd⟩ := mem_of_mem_pairBy hq
        refine ⟨hbehind q.2 hsnd, ?_⟩
        -- A later pair was opened in front of this one, and lies around it, or behind it.
        rcases hfst with hold | hnew
        · exact .inr (hcross q.1 (List.mem_reverse.mpr hold) f (by simp))
        · exact .inl (hbehind q.1 hnew)
      · refine ih ?_
        rwa [List.reverse_cons, List.append_assoc, List.singleton_append]

end

theorem pairsFrom_map {g : Mark → Mark} (hg : ∀ m, (g m).width = m.width)
    (frames ms : List Mark) :
    pairsFrom (frames.map g) (ms.map g) = (pairsFrom frames ms).map (Prod.map g g) := by
  rw [pairsFrom_eq, pairsFrom_eq, pairBy_map, funext hg]

theorem sublist_of_mem_pairsFrom {frames ms : List Mark} {f m : Mark}
    (h : (f, m) ∈ pairsFrom frames ms) :
    f.width = m.width ∧ [f, m].Sublist (frames.reverse ++ ms) := by
  rw [pairsFrom_eq] at h
  exact sublist_of_mem_pairBy h

/-- The two marks of every pair. -/
def ends (pairs : List (Mark × Mark)) : List Mark := pairs.flatMap fun pair => [pair.1, pair.2]

/-- Every mark is used up by one pair, or left over. -/
theorem exists_perm_ends (frames ms : List Mark) :
    ∃ left, (ends (pairsFrom frames ms) ++ left).Perm (frames ++ ms) := by
  induction ms generalizing frames with
  | nil => exact ⟨frames, by cases frames <;> simp [pairsFrom, ends]⟩
  | cons m ms ih =>
    cases frames with
    | nil => exact ih [m]
    | cons f frames =>
      rw [pairsFrom]
      split_ifs
      -- Either both marks leave the stack for a pair, or the new one joins it.
      · obtain ⟨left, hperm⟩ := ih frames
        exact ⟨left, .cons f ((hperm.cons m).trans List.perm_middle.symm)⟩
      · obtain ⟨left, hperm⟩ := ih (m :: f :: frames)
        exact ⟨left, hperm.trans List.perm_middle.symm⟩

/-- **No mark belongs to two pairs**, or to one of them twice. -/
theorem nodup_ends {ms : List Mark} (h : ms.Nodup) : (ends (pairsFrom [] ms)).Nodup := by
  obtain ⟨left, hperm⟩ := exists_perm_ends [] ms
  exact (List.nodup_append.mp (hperm.nodup_iff.mpr h)).1

end Hint

end EmphasisSpacing
