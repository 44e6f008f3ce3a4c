import EmphasisSpacing.Proofs.HintPlaces

/-!
# Marks around a new blank

A blank that is put at one end of a mark changes what this mark sees on that side, and moves every
mark behind it on by one place. This module follows such a change from the marks of a line to its
hints, without looking at the line: when what the mark sees there settles the hint at that end, the
hints are the ones from before without it, each in its new place
(`Ordered.exists_split_of_settles`).

Marks are only ever compared by their widths, so their pairs stay the same (`pairsFrom_map`); every
mark is in at most one pair (`nodup_ends`), so no other hint sees the new blank.
-/

namespace EmphasisSpacing

namespace Hint

/-! ### Marks around a new blank -/

/-- A hint after one space was put at byte `i` of the document, which lies in line `number`. -/
def moved (i number : Int) (h : Hint) : Hint where
  line := h.line
  column := if h.line = number ∧ i ≤ h.offset then h.column + 1 else h.column
  offset := if i ≤ h.offset then h.offset + 1 else h.offset
  side := h.side
  width := h.width
  span := ⟨if i ≤ h.span.start then h.span.start + 1 else h.span.start,
    if i < h.span.stop then h.span.stop + 1 else h.span.stop⟩

/-- A mark before and after one blank was put at byte `i` of its line. -/
structure Slid (i : Nat) (x y : Mark) : Prop where
  width : y.width = x.width
  start : y.start = if i ≤ x.start.offset then x.start.next else x.start
  stop : y.stop.offset = if i < x.stop.offset then x.stop.offset + 1 else x.stop.offset

theorem Slid.before {m : Mark} (hpos : m.start.offset < m.stop.offset) :
    Slid m.start.offset m { m.next with before := some ' ' } :=
  ⟨rfl, (if_pos (Nat.le_refl _)).symm, (if_pos hpos).symm⟩

theorem Slid.after {m : Mark} (hpos : m.start.offset < m.stop.offset) :
    Slid m.stop.offset m { m with after := some ' ' } :=
  ⟨rfl, (if_neg (Nat.not_le_of_lt hpos)).symm, (if_neg (Nat.lt_irrefl _)).symm⟩

/-- The hints at marks move as the marks do. -/
theorem moved_atMark {i : Nat} {f m x f' m' x' : Mark} (hf : Slid i f f') (hm : Slid i m m')
    (hx : Slid i x x') (number base : Nat) (side : Side) :
    (atMark number base (f, m) x side).moved (base + i : Nat) number =
      atMark number base (f', m') x' side := by
  have hle : ∀ k : Nat, ((base + i : Nat) : Int) ≤ (base + k : Nat) ↔ i ≤ k := by omega
  have hlt : ∀ k : Nat, ((base + i : Nat) : Int) < (base + k : Nat) ↔ i < k := by omega
  simp only [moved, atMark, hle, hlt, hx.width, hx.start, hf.start, hm.stop, true_and,
    Hint.mk.injEq, Stretch.mk.injEq]
  refine ⟨?_, ?_, ?_, ?_⟩
  all_goals
    split_ifs
    all_goals rfl

/-- What becomes of the marks of a line when the mark `o` becomes `o'` and the marks behind it move
on by one place. -/
def slide (o o' x : Mark) : Mark :=
  if x = o then o' else if x.start.offset < o.start.offset then x else x.next

theorem slide_self (o o' : Mark) : slide o o' o = o' := if_pos rfl

theorem width_slide {o o' : Mark} (h : o'.width = o.width) (x : Mark) :
    (slide o o' x).width = x.width := by
  rw [slide]
  split_ifs with heq
  · rw [heq, h]
  · rfl
  · rfl

theorem faces_slide {o x : Mark} (hx : x ≠ o) (o' : Mark) :
    (slide o o' x).before = x.before ∧ (slide o o' x).after = x.after := by
  rw [slide, if_neg hx]
  split_ifs <;> exact ⟨rfl, rfl⟩

/-- Marks of a line in their order. -/
structure Ordered (ms : List Mark) : Prop where
  apart : ms.Pairwise fun a b => a.stop.offset < b.start.offset
  pos : ∀ x ∈ ms, x.start.offset < x.stop.offset

namespace Ordered

variable {ms : List Mark} (h : Ordered ms)

include h

theorem cases {x o : Mark} (hx : x ∈ ms) (ho : o ∈ ms) :
    x = o ∨ x.stop.offset < o.start.offset ∨ o.stop.offset < x.start.offset :=
  List.Pairwise.forall_of_forall_of_flip
    (R := fun a b => a = b ∨ a.stop.offset < b.start.offset ∨ b.stop.offset < a.start.offset)
    (fun _ _ => .inl rfl) (h.apart.imp fun hab => .inr (.inl hab))
    (h.apart.imp fun hab => Or.inr (.inr hab)) hx ho

theorem nodup : ms.Nodup := by
  refine h.apart.imp_of_mem fun ha _ hab heq => ?_
  have := h.pos _ ha
  rw [← heq] at hab
  omega

theorem start_injective {x o : Mark} (hx : x ∈ ms) (ho : o ∈ ms)
    (heq : x.start.offset = o.start.offset) : x = o := by
  have hxpos := h.pos x hx
  have hopos := h.pos o ho
  rcases h.cases hx ho with h | h | h
  · exact h
  · omega
  · omega

/-- When a blank is put at one end of a mark, all marks slide. -/
theorem slid_slide {o o' x : Mark} {i : Nat} (ho : o ∈ ms) (hslid : Slid i o o')
    (hi : o.start.offset ≤ i ∧ i ≤ o.stop.offset) (hx : x ∈ ms) : Slid i x (slide o o' x) := by
  have hpos := h.pos x hx
  rw [slide]
  split_ifs with heq hlt
  · rwa [heq]
  · have hbefore : x.stop.offset < o.start.offset := by
      rcases h.cases hx ho with h | h | h
      · exact absurd h heq
      · exact h
      · omega
    exact ⟨rfl, by rw [if_neg (by omega)], by rw [if_neg (by omega)]⟩
  · have hbehind : o.stop.offset < x.start.offset := by
      rcases h.cases hx ho with h | h | h
      · exact absurd h heq
      · omega
      · exact h
    exact ⟨rfl, by rw [if_pos (by omega)]; rfl, by rw [if_pos (by omega)]; rfl⟩

end Ordered

theorem map_slide {A B : List Mark} {o : Mark} (h : Ordered (A ++ o :: B)) (o' : Mark) :
    (A ++ o :: B).map (slide o o') = A ++ o' :: B.map Mark.next := by
  have hapart := List.pairwise_append.mp h.apart
  have hA : A.map (slide o o') = A := by
    conv_rhs => rw [← List.map_id A]
    refine List.map_congr_left fun x hx => ?_
    have hlt := hapart.2.2 x hx o (List.mem_cons_self ..)
    have hxpos := h.pos x (List.mem_append_left _ hx)
    have hne : x ≠ o := by
      rintro rfl
      omega
    rw [slide, if_neg hne, if_pos (by omega)]
    rfl
  have hB : B.map (slide o o') = B.map Mark.next := by
    refine List.map_congr_left fun x hx => ?_
    have hlt := (List.pairwise_cons.mp hapart.2.1).1 x hx
    have hopos := h.pos o (by simp)
    have hne : x ≠ o := by
      rintro rfl
      omega
    rw [slide, if_neg hne, if_neg (by omega)]
  rw [List.map_append, List.map_cons, hA, hB, slide_self]

/-! ### Hints around a new blank -/

theorem mem_ends_iff {x : Mark} {pairs : List (Mark × Mark)} :
    x ∈ ends pairs ↔ ∃ pair ∈ pairs, x = pair.1 ∨ x = pair.2 := by
  simp [ends, List.mem_flatMap]

theorem ends_subset (ms : List Mark) : ∀ x ∈ ends (pairsFrom [] ms), x ∈ ms := by
  obtain ⟨left, hperm⟩ := exists_perm_ends [] ms
  exact fun x hx => hperm.subset (List.mem_append_left _ hx)

/-- That the mark `o` of a pair needs a hint on the given side, and `o'` in its place would not. -/
inductive Settles (o o' : Mark) : (pair : Mark × Mark) → Side → Prop
  | before (m : Mark) (needed : isNeeded o.before o.after = true)
      (settled : isNeeded o'.before o'.after = false) : Settles o o' (o, m) .before
  | after (f : Mark) (needed : isNeeded o.after o.before = true)
      (settled : isNeeded o'.after o'.before = false) : Settles o o' (f, o) .after

namespace Ordered

variable {ms : List Mark} (h : Ordered ms) {o o' : Mark} {i : Nat} (ho : o ∈ ms)
  (hslid : Slid i o o') (hi : o.start.offset ≤ i ∧ i ≤ o.stop.offset) (number base : Nat)

include h ho

/-- A hint at a mark comes from the pair of the mark only. -/
theorem atMark_notMem {pairs : List (Mark × Mark)} (hsub : ∀ x ∈ ends pairs, x ∈ ms)
    (hne : o ∉ ends pairs) (pair : Mark × Mark) (side : Side) :
    atMark number base pair o side ∉ pairs.flatMap (ofPair number base) := by
  intro hmem
  obtain ⟨⟨f, m⟩, hpair, hmem⟩ := List.mem_flatMap.mp hmem
  have heq : ∀ x, x ∈ ends pairs → (atMark number base pair o side).offset =
      (base + x.start.offset : Nat) → False := by
    intro x hx hoffset
    have hstart : o.start.offset = x.start.offset := by
      have : ((base + o.start.offset : Nat) : Int) = (base + x.start.offset : Nat) := hoffset
      omega
    exact hne (h.start_injective ho (hsub x hx) hstart ▸ hx)
  rcases mem_ofPair_iff.mp hmem with ⟨-, hmem⟩ | ⟨-, hmem⟩
  · exact heq f (mem_ends_iff.mpr ⟨_, hpair, .inl rfl⟩) (congrArg Hint.offset hmem)
  · exact heq m (mem_ends_iff.mpr ⟨_, hpair, .inr rfl⟩) (congrArg Hint.offset hmem)

include hslid hi

/-- The hints of a pair that does not touch the new blank. -/
theorem ofPair_slide {f m : Mark} (hf : f ∈ ms ∧ f ≠ o) (hm : m ∈ ms ∧ m ≠ o) :
    ofPair number base (slide o o' f, slide o o' m) =
      (ofPair number base (f, m)).map (moved (base + i : Nat) number) := by
  have hslide : ∀ {x}, x ∈ ms → Slid i x (slide o o' x) := h.slid_slide ho hslid hi
  obtain ⟨hfb, hfa⟩ := faces_slide hf.2 o'
  obtain ⟨hmb, hma⟩ := faces_slide hm.2 o'
  rw [ofPair_eq, ofPair_eq, hfb, hfa, hmb, hma, List.map_append,
    ← moved_atMark (hslide hf.1) (hslide hm.1) (hslide hf.1),
    ← moved_atMark (hslide hf.1) (hslide hm.1) (hslide hm.1)]
  split_ifs <;> rfl

theorem flatMap_ofPair_slide {pairs : List (Mark × Mark)} (hsub : ∀ x ∈ ends pairs, x ∈ ms)
    (hne : o ∉ ends pairs) :
    (pairs.map (Prod.map (slide o o') (slide o o'))).flatMap (ofPair number base) =
      (pairs.flatMap (ofPair number base)).map (moved (base + i : Nat) number) := by
  rw [List.flatMap_map, List.map_flatMap]
  refine List.flatMap_congr fun pair hpair => ?_
  have hends : ∀ {x}, x = pair.1 ∨ x = pair.2 → x ∈ ms ∧ x ≠ o := by
    intro x hx
    have hmem := mem_ends_iff.mpr ⟨pair, hpair, hx⟩
    exact ⟨hsub x hmem, fun heq => hne (heq ▸ hmem)⟩
  exact h.ofPair_slide ho hslid hi number base (hends (.inl rfl)) (hends (.inr rfl))

/-- The hints of the pair at the new blank: the hint there is settled, and the other one stays. -/
theorem ofPair_settles {pair : Mark × Mark} {side : Side} (hset : Settles o o' pair side)
    (hsub : ∀ x ∈ ends [pair], x ∈ ms) (hne : pair.1 ≠ pair.2) :
    ∃ L R, ofPair number base pair = L ++ atMark number base pair o side :: R ∧
      atMark number base pair o side ∉ L ∧
      ofPair number base (Prod.map (slide o o') (slide o o') pair) =
        (L ++ R).map (moved (base + i : Nat) number) := by
  have hslide : ∀ {x}, x ∈ ms → Slid i x (slide o o' x) := h.slid_slide ho hslid hi
  cases hset with
  | before m needed settled =>
    have hm : m ∈ ms := hsub m (by simp [ends])
    -- The other mark only moves: what stands around it is the same.
    obtain ⟨hmb, hma⟩ := faces_slide (Ne.symm hne) o'
    refine ⟨[], if isNeeded m.after m.before then [atMark number base (o, m) m .after] else [],
      ?_, by simp, ?_⟩
    · rw [ofPair_eq, if_pos needed]
      rfl
    · rw [Prod.map_apply, ofPair_eq, hmb, hma, ← moved_atMark (hslide ho) (hslide hm) (hslide hm),
        slide_self, settled, if_neg Bool.false_ne_true]
      split_ifs <;> rfl
  | after f needed settled =>
    have hf : f ∈ ms := hsub f (by simp [ends])
    obtain ⟨hfb, hfa⟩ := faces_slide (show f ≠ o from hne) o'
    refine ⟨if isNeeded f.before f.after then [atMark number base (f, o) f .before] else [], [],
      ?_, ?_, ?_⟩
    · rw [ofPair_eq, if_pos needed]
    · intro hmem
      split_ifs at hmem
      · have hside := congrArg Hint.side (List.mem_singleton.mp hmem)
        cases hside
      · cases hmem
    · rw [Prod.map_apply, ofPair_eq, hfb, hfa, ← moved_atMark (hslide hf) (hslide ho) (hslide hf),
        slide_self, settled, if_neg Bool.false_ne_true]
      split_ifs <;> rfl

/-- **One blank settles one hint.** -/
theorem exists_split_of_settles {pair : Mark × Mark} {side : Side}
    (hpair : pair ∈ pairsFrom [] ms) (hset : Settles o o' pair side) :
    ∃ P Q, (pairsFrom [] ms).flatMap (ofPair number base) =
        P ++ atMark number base pair o side :: Q ∧
      atMark number base pair o side ∉ P ∧
      (pairsFrom [] (ms.map (slide o o'))).flatMap (ofPair number base) =
        (P ++ Q).map (moved (base + i : Nat) number) := by
  have hmap := pairsFrom_map (width_slide (o := o) hslid.width) [] ms
  have hsub := ends_subset ms
  have hnodup := nodup_ends h.nodup
  obtain ⟨X, Y, hsplit⟩ := List.append_of_mem hpair
  have hends : ends (pairsFrom [] ms) = ends X ++ (ends [pair] ++ ends Y) := by
    rw [hsplit]
    simp [ends]
  -- The mark is in this pair only, so the other pairs do not see the blank.
  rw [hends] at hsub hnodup
  obtain ⟨-, hnodup, hX⟩ := List.nodup_append.mp hnodup
  obtain ⟨hone, -, hY⟩ := List.nodup_append.mp hnodup
  have hmem : o ∈ ends [pair] := by
    cases hset <;> simp [ends]
  have hoX : o ∉ ends X := fun hx => hX o hx o (List.mem_append_left _ hmem) rfl
  have hoY : o ∉ ends Y := fun hy => hY o hmem o hy rfl
  have hsubX : ∀ x ∈ ends X, x ∈ ms := fun x hx => hsub x (by simp [hx])
  have hsubY : ∀ x ∈ ends Y, x ∈ ms := fun x hx => hsub x (by simp [hx])
  obtain ⟨L, R, hpairHints, hL, hpairHints'⟩ := h.ofPair_settles ho hslid hi number base hset
    (fun x hx => hsub x (by simp [hx])) (by simpa [ends] using hone)
  refine ⟨X.flatMap (ofPair number base) ++ L, R ++ Y.flatMap (ofPair number base), ?_, ?_, ?_⟩
  · rw [hsplit, List.flatMap_append, List.flatMap_cons, hpairHints]
    simp
  · rw [List.mem_append, not_or]
    exact ⟨h.atMark_notMem ho number base hsubX hoX pair side, hL⟩
  · rw [List.map_nil] at hmap
    rw [hmap, hsplit, List.map_append, List.map_cons, List.flatMap_append, List.flatMap_cons,
      h.flatMap_ofPair_slide ho hslid hi number base hsubX hoX, hpairHints',
      h.flatMap_ofPair_slide ho hslid hi number base hsubY hoY]
    simp

end Ordered

end Hint

end EmphasisSpacing
