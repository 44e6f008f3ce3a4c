import Mathlib.Logic.Relation
import Mathlib.Tactic.Common
import EmphasisSpacing.Proofs.Utf8

/-!
# Moving blanks next to stars

Formatting may only put blanks next to runs of stars, or take them away there. `Shift` is one such
step: a single blank is put behind or in front of a run. It is never put inside a run, and, read
backwards, never taken from between two runs when it is the last one there. `Respaced` is what any
number of steps, forwards and backwards, can do.

A line is looked at on four levels: as characters, as bytes, as bytes with numbered holes, and as
bytes with regions. So the relation is defined for every type whose elements can be stars and blanks
(`LineSymbol`), and `Respaced.flatMap` carries it from one level to another.
-/

namespace EmphasisSpacing

/-- What spacing asks about an element of a line. -/
class LineSymbol (α : Type) where
  /-- Whether it is a star of a marker. -/
  isStar : α → Bool
  /-- Whether it is a space or a tab. -/
  isBlank : α → Bool
  /-- Nothing is both. -/
  isBlank_of_isStar : ∀ a, isStar a = true → isBlank a = false

instance : LineSymbol UInt8 where
  isStar b := b == Bytes.star
  isBlank := Bytes.isBlank
  isBlank_of_isStar a h := by
    rw [beq_iff_eq] at h
    rw [h]
    rfl

namespace LineSymbol

variable {α β : Type} [LineSymbol α] [LineSymbol β]

theorem isStar_of_isBlank {a : α} (h : isBlank a = true) : isStar a = false := by
  cases hs : isStar a with
  | false => rfl
  | true => rw [isBlank_of_isStar a hs] at h; cases h

/-- Whether a list starts with a star. -/
def starsAhead (l : List α) : Bool := l.head?.any isStar

/-- Whether a list ends with a star. -/
def starsBehind (l : List α) : Bool := l.getLast?.any isStar

@[simp]
theorem starsAhead_nil : starsAhead ([] : List α) = false := rfl

@[simp]
theorem starsAhead_cons (a : α) (l : List α) : starsAhead (a :: l) = isStar a := rfl

@[simp]
theorem starsBehind_nil : starsBehind ([] : List α) = false := rfl

@[simp]
theorem starsBehind_concat (l : List α) (a : α) : starsBehind (l ++ [a]) = isStar a := by
  simp [starsBehind]

/-- In front of more text, only the empty list lets a star through. -/
theorem starsAhead_append (l m : List α) :
    starsAhead (l ++ m) = if l = [] then starsAhead m else starsAhead l := by
  cases l <;> simp

theorem starsBehind_append (l m : List α) :
    starsBehind (l ++ m) = if m = [] then starsBehind l else starsBehind m := by
  rcases List.eq_nil_or_concat m with rfl | ⟨m', a, rfl⟩
  · simp
  · rw [List.concat_eq_append, ← List.append_assoc, starsBehind_concat, starsBehind_concat,
      if_neg (by simp)]

end LineSymbol

open LineSymbol

/-! ### Steps -/

section

variable {α β : Type} [LineSymbol α] [LineSymbol β]

/-- One blank more next to a run of stars. -/
inductive Shift : List α → List α → Prop
  /-- A blank behind a run. -/
  | behind (u v : List α) (s b : α) (hs : isStar s = true) (hb : isBlank b = true)
      (hv : starsAhead v = false) : Shift (u ++ s :: v) (u ++ s :: b :: v)
  /-- A blank in front of a run. -/
  | before (u v : List α) (s b : α) (hs : isStar s = true) (hb : isBlank b = true)
      (hu : starsBehind u = false) : Shift (u ++ s :: v) (u ++ b :: s :: v)

/-- The same line but for blanks next to runs of stars. -/
def Respaced : List α → List α → Prop := Relation.EqvGen Shift

theorem Shift.append_left {w l l' : List α} (hw : starsBehind w = false) (h : Shift l l') :
    Shift (w ++ l) (w ++ l') := by
  cases h with
  | behind u v s b hs hb hv =>
    rw [← List.append_assoc, ← List.append_assoc]
    exact .behind (w ++ u) v s b hs hb hv
  | before u v s b hs hb hu =>
    rw [← List.append_assoc, ← List.append_assoc]
    refine .before (w ++ u) v s b hs hb ?_
    rw [starsBehind_append]
    split
    · exact hw
    · exact hu

theorem Shift.append_right {w l l' : List α} (hw : starsAhead w = false) (h : Shift l l') :
    Shift (l ++ w) (l' ++ w) := by
  cases h with
  | behind u v s b hs hb hv =>
    rw [List.append_assoc, List.append_assoc]
    refine .behind u (v ++ w) s b hs hb ?_
    rw [starsAhead_append]
    split
    · exact hw
    · exact hv
  | before u v s b hs hb hu =>
    rw [List.append_assoc, List.append_assoc]
    exact .before u (v ++ w) s b hs hb hu

/-- A way to spell each symbol of a line with symbols of another kind, in which stars and blanks are
written as such, and everything else neither starts with one of them nor ends with a star. -/
structure Spelling (f : α → List β) : Prop where
  star : ∀ a, isStar a = true → ∃ s, f a = [s] ∧ isStar s = true
  blank : ∀ a, isBlank a = true → ∃ b, f a = [b] ∧ isBlank b = true
  solid : ∀ a, isStar a = false → isBlank a = false → ∃ x t, f a = x :: t ∧
    isStar x = false ∧ isBlank x = false ∧ starsBehind (x :: t) = false

theorem starsAhead_flatMap {f : α → List β} {l : List α}
    (hf : ∀ a ∈ l, f a ≠ [] ∧ starsAhead (f a) = isStar a) :
    starsAhead (l.flatMap f) = starsAhead l := by
  cases l with
  | nil => rfl
  | cons a l =>
    obtain ⟨hne, ha⟩ := hf a (List.mem_cons_self ..)
    rw [List.flatMap_cons, starsAhead_append, if_neg hne, ha, starsAhead_cons]

theorem starsBehind_flatMap {f : α → List β} {l : List α}
    (hf : ∀ a ∈ l, f a ≠ [] ∧ starsBehind (f a) = isStar a) :
    starsBehind (l.flatMap f) = starsBehind l := by
  rcases List.eq_nil_or_concat l with rfl | ⟨l, a, rfl⟩
  · rfl
  · rw [List.concat_eq_append] at hf ⊢
    obtain ⟨hne, ha⟩ := hf a (by simp)
    rw [List.flatMap_append, List.flatMap_singleton, starsBehind_append, if_neg hne, ha,
      starsBehind_concat]

/-- A symbol is spelled with a star at an end only if it is one. -/
theorem Spelling.sides {f : α → List β} (hf : Spelling f) (a : α) :
    f a ≠ [] ∧ starsAhead (f a) = isStar a ∧ starsBehind (f a) = isStar a := by
  cases hstar : isStar a with
  | true =>
    obtain ⟨s, hfa, hs⟩ := hf.star a hstar
    rw [hfa]
    exact ⟨by simp, hs, hs⟩
  | false =>
    cases hblank : isBlank a with
    | true =>
      obtain ⟨b, hfa, hb⟩ := hf.blank a hblank
      rw [hfa]
      exact ⟨by simp, isStar_of_isBlank hb, isStar_of_isBlank hb⟩
    | false =>
      obtain ⟨x, t, hfa, hx, -, hlast⟩ := hf.solid a hstar hblank
      rw [hfa]
      exact ⟨by simp, hx, hlast⟩

/-- A spelling carries a step over. -/
theorem Shift.flatMap {f : α → List β} (hf : Spelling f) {l l' : List α}
    (h : Shift l l') : Shift (l.flatMap f) (l'.flatMap f) := by
  have hsides := hf.sides
  cases h with
  | behind u v s b hs hb hv =>
    obtain ⟨s', hfs, hs'⟩ := hf.star s hs
    obtain ⟨b', hfb, hb'⟩ := hf.blank b hb
    simp only [List.flatMap_append, List.flatMap_cons, hfs, hfb, List.singleton_append]
    refine .behind _ _ s' b' hs' hb' ?_
    rw [starsAhead_flatMap fun a _ => ⟨(hsides a).1, (hsides a).2.1⟩, hv]
  | before u v s b hs hb hu =>
    obtain ⟨s', hfs, hs'⟩ := hf.star s hs
    obtain ⟨b', hfb, hb'⟩ := hf.blank b hb
    simp only [List.flatMap_append, List.flatMap_cons, hfs, hfb, List.singleton_append]
    refine .before _ _ s' b' hs' hb' ?_
    rw [starsBehind_flatMap fun a _ => ⟨(hsides a).1, (hsides a).2.2⟩, hu]

/-! ### Any number of steps -/

namespace Respaced

theorem refl (l : List α) : Respaced l l := Relation.EqvGen.refl l

theorem symm {l l' : List α} (h : Respaced l l') : Respaced l' l := Relation.EqvGen.symm _ _ h

theorem trans {l l' l'' : List α} (h : Respaced l l') (h' : Respaced l' l'') : Respaced l l'' :=
  Relation.EqvGen.trans _ _ _ h h'

theorem of_shift {l l' : List α} (h : Shift l l') : Respaced l l' := Relation.EqvGen.rel _ _ h

/-- What no step changes is the same for respaced lines. -/
theorem value {γ : Sort*} (f : List α → γ) (hf : ∀ l l' : List α, Shift l l' → f l = f l')
    {l l' : List α} (h : Respaced l l') : f l = f l' := by
  induction h with
  | rel l l' h => exact hf l l' h
  | refl l => rfl
  | symm l l' _ ih => exact ih.symm
  | trans l l' l'' _ _ ih ih' => exact ih.trans ih'

/-- A translation that carries single steps over carries any number of them over. -/
theorem lift (f : List α → List β) (hf : ∀ l l' : List α, Shift l l' → Shift (f l) (f l'))
    {l l' : List α} (h : Respaced l l') : Respaced (f l) (f l') := by
  induction h with
  | rel l l' h => exact of_shift (hf l l' h)
  | refl l => exact refl _
  | symm l l' _ ih => exact symm ih
  | trans l l' l'' _ _ ih ih' => exact trans ih ih'

theorem append_left {w l l' : List α} (hw : starsBehind w = false) (h : Respaced l l') :
    Respaced (w ++ l) (w ++ l') :=
  h.lift (w ++ ·) fun _ _ => Shift.append_left hw

theorem append_right {w l l' : List α} (hw : starsAhead w = false) (h : Respaced l l') :
    Respaced (l ++ w) (l' ++ w) :=
  h.lift (· ++ w) fun _ _ => Shift.append_right hw

theorem flatMap {f : α → List β} (hf : Spelling f) {l l' : List α} (h : Respaced l l') :
    Respaced (l.flatMap f) (l'.flatMap f) :=
  h.lift (·.flatMap f) fun _ _ => Shift.flatMap hf

/-! ### Whole blank runs -/

/-- Blanks may come and go behind a run of stars, unless another run follows at once. -/
theorem gap_behind {u v : List α} (g : List α) (hg : ∀ b ∈ g, isBlank b = true)
    (hu : starsBehind u = true) (hv : starsAhead v = false) :
    Respaced (u ++ v) (u ++ (g ++ v)) := by
  rcases List.eq_nil_or_concat u with rfl | ⟨u, s, rfl⟩
  · cases hu
  rw [List.concat_eq_append, starsBehind_concat] at hu
  rw [List.concat_eq_append, List.append_assoc, List.append_assoc]
  induction g with
  | nil => exact refl _
  | cons b g ih =>
    have hb := hg b (List.mem_cons_self ..)
    have hg' : ∀ b ∈ g, isBlank b = true := fun x hx => hg x (List.mem_cons_of_mem _ hx)
    refine (ih hg').trans (of_shift (.behind u (g ++ v) s b hu hb ?_))
    rw [starsAhead_append]
    split
    · exact hv
    · cases g with
      | nil => rfl
      | cons a g => exact isStar_of_isBlank (hg' a (List.mem_cons_self ..))

/-- Blanks may come and go in front of a run of stars, unless another run stands right before. -/
theorem gap_before {u v : List α} (g : List α) (hg : ∀ b ∈ g, isBlank b = true)
    (hu : starsBehind u = false) (hv : starsAhead v = true) :
    Respaced (u ++ v) (u ++ (g ++ v)) := by
  cases v with
  | nil => cases hv
  | cons s v =>
    -- The blanks are put in from left to right, so `u` grows by those that are in place.
    induction g generalizing u with
    | nil => exact refl _
    | cons b g ih =>
      have hb := hg b (List.mem_cons_self ..)
      have hg' : ∀ b ∈ g, isBlank b = true := fun x hx => hg x (List.mem_cons_of_mem _ hx)
      have hub : starsBehind (u ++ [b]) = false := by
        rw [starsBehind_concat]
        exact isStar_of_isBlank hb
      have hstep := ih hg' hub
      rw [List.append_assoc, List.append_assoc] at hstep
      exact (of_shift (.before u v s b hv hb hu)).trans hstep

/-- **One blank run can become any other**, if a run of stars stands on exactly one side of it. -/
theorem gap {u v : List α} (g g' : List α) (hg : ∀ b ∈ g, isBlank b = true)
    (hg' : ∀ b ∈ g', isBlank b = true) (h : starsBehind u ≠ starsAhead v) :
    Respaced (u ++ (g ++ v)) (u ++ (g' ++ v)) := by
  cases hu : starsBehind u with
  | true =>
    have hv : starsAhead v = false := by
      rw [hu] at h
      simpa using h.symm
    exact (gap_behind g hg hu hv).symm.trans (gap_behind g' hg' hu hv)
  | false =>
    have hv : starsAhead v = true := by
      rw [hu] at h
      simpa using h.symm
    exact (gap_before g hg hu hv).symm.trans (gap_before g' hg' hu hv)

/-! ### What moving blanks keeps -/

/-- All but the blanks is the same. -/
theorem filter_eq {l l' : List α} (h : Respaced l l') :
    l.filter (fun a => !isBlank a) = l'.filter fun a => !isBlank a := by
  refine h.value (List.filter fun a => !isBlank a) fun l l' hshift => ?_
  cases hshift with
  | behind u v s b hs hb hv => simp [List.filter_cons, hb]
  | before u v s b hs hb hu => simp [hb]

theorem mem_iff {l l' : List α} (h : Respaced l l') {a : α} (ha : isBlank a = false) :
    a ∈ l ↔ a ∈ l' := by
  have hmem : ∀ m : List α, a ∈ m ↔ a ∈ m.filter fun a => !isBlank a := fun m => by
    simp [List.mem_filter, ha]
  rw [hmem l, hmem l', h.filter_eq]

/-- A last element that is neither a star nor a blank stays the last one. -/
theorem getLast?_eq_some_iff {l l' : List α} (h : Respaced l l') {a : α} (hstar : isStar a = false)
    (hblank : isBlank a = false) : l.getLast? = some a ↔ l'.getLast? = some a := by
  have hne : ∀ {x : α}, isStar x = true ∨ isBlank x = true → x ≠ a := by
    rintro x hx rfl
    rcases hx with hx | hx
    · exact absurd hx (by rw [hstar]; decide)
    · exact absurd hx (by rw [hblank]; decide)
  refine iff_of_eq (h.value (fun m => m.getLast? = some a) fun l l' hshift => ?_)
  cases hshift with
  | behind u v s b hs hb hv =>
    rcases List.eq_nil_or_concat v with rfl | ⟨v, c, rfl⟩
    · simp [List.getLast?_append, hne (.inl hs), hne (.inr hb)]
    · simp [List.getLast?_append, List.getLast?_cons]
  | before u v s b hs hb hu =>
    rcases List.eq_nil_or_concat v with rfl | ⟨v, c, rfl⟩
    · simp [List.getLast?_append, hne (.inl hs)]
    · simp [List.getLast?_append, List.getLast?_cons]

/-- A beginning without stars ends before the first star. -/
theorem isPrefix_of_star {w u v : List α} {s : α} (hw : ∀ a ∈ w, isStar a = false)
    (hs : isStar s = true) : w <+: u ++ s :: v ↔ w <+: u := by
  refine ⟨fun h => ?_, fun h => h.trans (List.prefix_append ..)⟩
  obtain ⟨t, ht⟩ := h
  rcases List.append_eq_append_iff.mp ht with ⟨r, hr, -⟩ | ⟨r, rfl, hr⟩
  · exact ⟨r, hr.symm⟩
  · cases r with
    | nil => simp
    | cons x r =>
      rw [(List.cons.inj hr).1, hw x (by simp)] at hs
      cases hs

/-- **A beginning without stars stays**, if its last element is no blank. -/
theorem isPrefix_iff {w : List α} (hw : ∀ a ∈ w, isStar a = false)
    (hlast : ∀ a ∈ w.getLast?, isBlank a = false) {l l' : List α} (h : Respaced l l') :
    w <+: l ↔ w <+: l' := by
  refine iff_of_eq (h.value (w <+: ·) fun l l' hshift => propext ?_)
  cases hshift with
  | behind u v s b hs hb hv => rw [isPrefix_of_star hw hs, isPrefix_of_star hw hs]
  | before u v s b hs hb hu =>
    rw [isPrefix_of_star hw hs, show u ++ b :: s :: v = (u ++ [b]) ++ s :: v by simp,
      isPrefix_of_star hw hs]
    refine ⟨fun h => h.trans (List.prefix_append ..), fun h => ?_⟩
    -- The beginning cannot end with the new blank.
    rcases List.prefix_concat_iff.mp h with rfl | h
    · rw [hlast b (by simp)] at hb
      cases hb
    · exact h

end Respaced

end

end EmphasisSpacing
