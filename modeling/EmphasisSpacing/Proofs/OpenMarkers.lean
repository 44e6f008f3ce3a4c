import Mathlib.Data.List.Chain
import EmphasisSpacing.Proofs.Marks

/-!
# Marks that stay open

`Hint.openBy` is the stack that pairing leaves behind. A mark either belongs to a pair or is left on
the stack (`Hint.mem_openBy_or_isPaired`, `Hint.not_isPaired_of_mem_openBy`), and neighbours on the
stack have different widths (`Hint.isChain_openBy`).

So the first mark of a line, if the last one is as wide, can be kept from its partner only by a mark of
another width that stays open above it: `Hint.exists_closer_iff`.
-/

namespace EmphasisSpacing

namespace Hint

/-- The marks that pairing leaves open, innermost first. -/
def openBy {α : Type*} (width : α → Nat) : (frames : List α) → List α → List α
  | frames, [] => frames
  | [], m :: ms => openBy width [m] ms
  | f :: frames, m :: ms =>
    if width f == width m then openBy width frames ms
    else openBy width (m :: f :: frames) ms

/-- Whether a mark is one of the two of a pair. -/
def IsPaired {α : Type*} (pairs : List (α × α)) (m : α) : Prop := ∃ p ∈ pairs, m = p.1 ∨ m = p.2

section

variable {α : Type*} {width : α → Nat} {frames ms : List α}

/-! ### One run after the other -/

theorem openBy_append (ms' : List α) :
    openBy width frames (ms ++ ms') = openBy width (openBy width frames ms) ms' := by
  induction ms generalizing frames with
  | nil => rw [List.nil_append, openBy]
  | cons m ms ih =>
    cases frames with
    | nil => exact ih
    | cons f frames =>
      rw [List.cons_append, openBy, openBy]
      split_ifs
      · exact ih
      · exact ih

theorem pairBy_append (ms' : List α) :
    pairBy width frames (ms ++ ms') =
      pairBy width frames ms ++ pairBy width (openBy width frames ms) ms' := by
  induction ms generalizing frames with
  | nil => rw [List.nil_append, pairBy, openBy, List.nil_append]
  | cons m ms ih =>
    cases frames with
    | nil => exact ih
    | cons f frames =>
      rw [List.cons_append, pairBy, pairBy, openBy]
      split_ifs
      · rw [ih, List.cons_append]
      · exact ih

/-! ### What is left on the stack -/

/-- The stack holds marks in the order in which they came, the last one on top. -/
theorem sublist_openBy : (openBy width frames ms).reverse.Sublist (frames.reverse ++ ms) := by
  induction ms generalizing frames with
  | nil => rw [openBy, List.append_nil]
  | cons m ms ih =>
    cases frames with
    | nil => exact ih
    | cons f frames =>
      rw [openBy]
      split_ifs
      · refine ih.trans ?_
        rw [List.reverse_cons, List.append_assoc]
        exact ((List.sublist_cons_self m ms).cons f).append_left frames.reverse
      · have hpush : (openBy width (m :: f :: frames) ms).reverse.Sublist
            ((m :: f :: frames).reverse ++ ms) := ih
        rwa [List.reverse_cons, List.append_assoc] at hpush

/-- **Neighbours on the stack have different widths.** -/
theorem isChain_openBy (h : frames.IsChain fun a b => width a ≠ width b) :
    (openBy width frames ms).IsChain fun a b => width a ≠ width b := by
  induction ms generalizing frames with
  | nil => rwa [openBy]
  | cons m ms ih =>
    cases frames with
    | nil => exact ih (List.isChain_singleton m)
    | cons f frames =>
      rw [openBy]
      split_ifs with hwidth
      · exact ih h.tail
      · have hne : width m ≠ width f := fun heq => hwidth (beq_iff_eq.mpr heq.symm)
        exact ih (List.isChain_cons_cons.mpr ⟨hne, h⟩)

theorem IsPaired.cons {pairs : List (α × α)} {r : α} (h : IsPaired pairs r) (p : α × α) :
    IsPaired (p :: pairs) r := by
  obtain ⟨q, hq, hr⟩ := h
  exact ⟨q, List.mem_cons_of_mem p hq, hr⟩

/-- A mark that is not left on the stack belongs to a pair. -/
theorem mem_openBy_or_isPaired {r : α} (h : r ∈ frames ∨ r ∈ ms) :
    r ∈ openBy width frames ms ∨ IsPaired (pairBy width frames ms) r := by
  induction ms generalizing frames with
  | nil =>
    rw [openBy]
    exact .inl (h.resolve_right List.not_mem_nil)
  | cons m ms ih =>
    cases frames with
    | nil =>
      have hm : r ∈ [m] ∨ r ∈ ms := by simpa using h
      exact ih hm
    | cons f frames =>
      rw [openBy, pairBy]
      split_ifs
      · -- The two that close each other are the first pair; all others go on.
        by_cases hr : r = f ∨ r = m
        · exact .inr ⟨(f, m), List.mem_cons_self .., hr⟩
        · rw [not_or] at hr
          have hrest : r ∈ frames ∨ r ∈ ms := by simpa [hr.1, hr.2] using h
          exact (ih hrest).imp_right fun hpaired => hpaired.cons (f, m)
      · refine ih ?_
        simp only [List.mem_cons] at h ⊢
        tauto

/-- A mark that is left on the stack belongs to none. -/
theorem not_isPaired_of_mem_openBy (hms : (frames.reverse ++ ms).Nodup) {r : α}
    (h : r ∈ openBy width frames ms) : ¬ IsPaired (pairBy width frames ms) r := by
  induction ms generalizing frames with
  | nil =>
    rw [pairBy]
    rintro ⟨p, hp, -⟩
    cases hp
  | cons m ms ih =>
    cases frames with
    | nil => exact ih hms h
    | cons f frames =>
      rw [List.reverse_cons, List.append_assoc, List.singleton_append] at hms
      rw [openBy] at h
      rw [pairBy]
      split_ifs at h ⊢
      · -- The marks of the new pair have left the stack, and do not come again.
        obtain ⟨hf, hms⟩ := List.nodup_cons.mp (List.nodup_middle.mp hms)
        obtain ⟨hm, hms⟩ := List.nodup_cons.mp (List.nodup_middle.mp hms)
        have hr : r ∈ frames.reverse ++ ms := sublist_openBy.subset (List.mem_reverse.mpr h)
        rintro ⟨p, hp, heq⟩
        rcases List.mem_cons.mp hp with rfl | hp
        · rcases heq with rfl | rfl
          · exact hf (((List.sublist_cons_self m ms).append_left frames.reverse).subset hr)
          · exact hm hr
        · exact ih hms h ⟨p, hp, heq⟩
      · refine ih ?_ h
        rwa [List.reverse_cons, List.reverse_cons, List.append_assoc, List.append_assoc]

end

/-! ### The first mark of a line -/

section

variable {α : Type*} {width : α → Nat} {R : α → α → Prop} {lead last : α} {mid : List α}

/-- A mark closes the one on top of the stack. -/
theorem head?_of_mem_pairBy {frames ms : List α} {f m : α} (hm : m ∉ ms)
    (h : (f, m) ∈ pairBy width frames (m :: ms)) : frames.head? = some f := by
  cases frames with
  | nil => exact absurd (mem_of_mem_pairBy (show (f, m) ∈ pairBy width [m] ms from h)).2 hm
  | cons g frames =>
    rw [pairBy] at h
    split_ifs at h
    · rcases List.mem_cons.mp h with heq | h
      · rw [(Prod.mk.inj heq).1]
        rfl
      · exact absurd (mem_of_mem_pairBy h).2 hm
    · exact absurd (mem_of_mem_pairBy h).2 hm

/-- While it is open, the first mark is at the bottom of the stack. -/
theorem exists_above (hms : (lead :: mid).Nodup) (h : lead ∈ openBy width [] (lead :: mid)) :
    ∃ above, openBy width [] (lead :: mid) = above ++ [lead] ∧ lead ∉ above := by
  have hsub : (openBy width [] (lead :: mid)).reverse.Sublist (lead :: mid) := sublist_openBy
  rcases List.sublist_cons_iff.mp hsub with hsub | ⟨above, hsplit, habove⟩
  · exact absurd (hsub.subset (List.mem_reverse.mpr h)) (List.nodup_cons.mp hms).1
  · refine ⟨above.reverse, ?_, fun hmem => ?_⟩
    · rw [← List.reverse_cons, ← hsplit, List.reverse_reverse]
    · exact (List.nodup_cons.mp hms).1 (habove.subset (List.mem_reverse.mp hmem))

theorem nodup_of_pairwise (hR : ∀ a b, R a b → ¬ R b a) {ms : List α} (h : ms.Pairwise R) :
    ms.Nodup := by
  refine h.imp fun {a b} hab heq => ?_
  subst heq
  exact hR a a hab hab

/-- When the first mark is closed, nothing is left open above it. -/
theorem isPaired_of_closer (hR : ∀ a b, R a b → ¬ R b a) {ms : List α} {r closer : α}
    (hms : (lead :: ms).Pairwise R) (h : (lead, closer) ∈ pairBy width [] (lead :: ms))
    (hr : r ∈ lead :: ms) (hne : r ≠ lead) (hbefore : R r closer) :
    IsPaired (pairBy width [] (lead :: ms)) r := by
  have hnodup := nodup_of_pairwise hR hms
  have hahead : R lead r := (List.pairwise_cons.mp hms).1 r ((List.mem_cons.mp hr).resolve_left hne)
  obtain ⟨front, post, hsplit⟩ := List.append_of_mem (mem_of_mem_pairBy h).2
  cases front with
  | nil =>
    obtain ⟨rfl, -⟩ := List.cons.inj hsplit
    exact absurd hbefore (hR _ _ hahead)
  | cons first front =>
    obtain ⟨rfl, -⟩ := List.cons.inj hsplit
    rw [hsplit] at hms hnodup hr h ⊢
    obtain ⟨hfront, hpost, hapart⟩ := List.nodup_append.mp hnodup
    have hcloser : closer ∉ lead :: front := fun hmem =>
      hapart closer hmem closer (List.mem_cons_self ..) rfl
    have hmem : r ∈ lead :: front := by
      refine (List.mem_append.mp hr).resolve_right fun hr => ?_
      rcases List.mem_cons.mp hr with rfl | hr
      · exact hR _ _ hbefore hbefore
      · have hbehind : R closer r :=
          (List.pairwise_cons.mp (List.pairwise_append.mp hms).2.1).1 r hr
        exact hR _ _ hbefore hbehind
    rw [pairBy_append] at h ⊢
    -- Where the closer comes, the first mark is on top of the stack and at its bottom.
    have hclosed : (lead, closer) ∈ pairBy width (openBy width [] (lead :: front)) (closer :: post) :=
      (List.mem_append.mp h).resolve_left fun h => hcloser (mem_of_mem_pairBy h).2
    have htop := head?_of_mem_pairBy (List.nodup_cons.mp hpost).1 hclosed
    obtain ⟨above, habove, hnotMem⟩ := exists_above hfront (List.mem_of_mem_head? htop)
    have hstack : openBy width [] (lead :: front) = [lead] := by
      rw [habove] at htop ⊢
      cases above with
      | nil => rfl
      | cons top above =>
        rw [Option.some.inj htop] at hnotMem
        exact absurd (List.mem_cons_self ..) hnotMem
    have hopen : r ∉ openBy width [] (lead :: front) := by
      rw [hstack]
      simpa using hne
    obtain ⟨p, hp, heq⟩ := (mem_openBy_or_isPaired (.inr hmem)).resolve_left hopen
    exact ⟨p, List.mem_append_left _ hp, heq⟩

/-- A first mark that nothing closes has a mark of another width above it that stays open, too. -/
theorem exists_open_of_not_closed (hnodup : (lead :: (mid ++ [last])).Nodup)
    (hwidth : width last = width lead)
    (h : ∀ closer, (lead, closer) ∉ pairBy width [] (lead :: (mid ++ [last]))) :
    ∃ r ∈ openBy width [] (lead :: (mid ++ [last])), width r ≠ width lead := by
  have hmid : (lead :: mid).Nodup :=
    hnodup.sublist ((List.sublist_append_left mid [last]).cons_cons lead)
  rw [← List.cons_append, pairBy_append] at h
  -- Nothing closes the first mark, and it closes nothing, so it is open in front of the last one.
  have hlead : lead ∈ openBy width [] (lead :: mid) := by
    refine (mem_openBy_or_isPaired (.inr (List.mem_cons_self ..))).resolve_right ?_
    rintro ⟨⟨f, m⟩, hp, rfl | rfl⟩
    · exact h m (List.mem_append_left _ hp)
    · obtain ⟨-, hsub⟩ := sublist_of_mem_pairBy hp
      have hbehind : lead ∈ mid := by
        rcases List.sublist_cons_iff.mp hsub with hsub | ⟨tail, htail, hsub⟩
        · exact hsub.subset (by simp)
        · obtain ⟨-, rfl⟩ := List.cons.inj htail
          exact hsub.subset (by simp)
      exact (List.nodup_cons.mp hmid).1 hbehind
  obtain ⟨above, habove, -⟩ := exists_above hmid hlead
  -- Neighbours on the stack differ in width, or the upper one would have closed the lower one.
  have hchain : (above ++ [lead]).IsChain fun a b => width a ≠ width b := by
    rw [← habove]
    exact isChain_openBy List.isChain_nil
  rw [← List.cons_append, openBy_append, habove]
  rw [habove] at h
  rcases List.eq_nil_or_concat' above with rfl | ⟨top, x, rfl⟩
  · -- With nothing above it, the first mark is closed by the last one.
    refine absurd (List.mem_append_right _ ?_) (h last)
    rw [List.nil_append, pairBy, if_pos (beq_iff_eq.mpr hwidth.symm)]
    exact List.mem_cons_self ..
  · have hx : width x ≠ width lead := by
      rw [List.append_assoc, List.isChain_append] at hchain
      exact (List.isChain_cons_cons.mp hchain.2.1).1
    refine ⟨x, ?_, hx⟩
    cases top with
    | nil =>
      have hne : ¬ (width x == width last) = true := by simpa [hwidth] using hx
      rw [List.nil_append, List.singleton_append, openBy, if_neg hne, openBy]
      simp
    | cons y top =>
      rw [List.cons_append, List.cons_append, openBy]
      split_ifs
      · rw [openBy]
        simp
      · rw [openBy]
        simp

/-- **What keeps the first mark open.** If the last mark is as wide as the first, the first is closed
exactly if every mark of another width that stands in front of its partner belongs to a pair. -/
theorem exists_closer_iff (hR : ∀ a b, R a b → ¬ R b a)
    (hms : (lead :: (mid ++ [last])).Pairwise R) (hwidth : width last = width lead) :
    (∃ closer, (lead, closer) ∈ pairBy width [] (lead :: (mid ++ [last]))) ↔
      ∀ r ∈ lead :: (mid ++ [last]), width r ≠ width lead →
        (∀ closer, (lead, closer) ∈ pairBy width [] (lead :: (mid ++ [last])) → R r closer) →
        IsPaired (pairBy width [] (lead :: (mid ++ [last]))) r := by
  constructor
  · rintro ⟨closer, hcloser⟩ r hr hne hbefore
    exact isPaired_of_closer hR hms hcloser hr (fun heq => hne (heq ▸ rfl)) (hbefore closer hcloser)
  · intro hpaired
    by_contra hopen
    rw [not_exists] at hopen
    have hnodup := nodup_of_pairwise hR hms
    obtain ⟨r, hr, hne⟩ := exists_open_of_not_closed hnodup hwidth hopen
    have hmem : r ∈ lead :: (mid ++ [last]) := sublist_openBy.subset (List.mem_reverse.mpr hr)
    exact not_isPaired_of_mem_openBy hnodup hr
      (hpaired r hmem hne fun closer hcloser => absurd hcloser (hopen closer))

end

end Hint

end EmphasisSpacing
