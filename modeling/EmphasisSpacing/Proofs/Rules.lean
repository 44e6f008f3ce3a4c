import EmphasisSpacing.Proofs.Gaps

/-!
# What rules can do to a line

The rules of a stage say what it does to each gap. Two things follow from them.

* Every rule other than keeping belongs to a gap with a run of stars on exactly one side (`Local`),
  so a stage moves blanks next to stars only (`respaced_chars`).
* The first gap is always kept, so text without stars in front of a line does not matter
  (`chars_behind_plain`).
-/

namespace EmphasisSpacing

open LineSymbol

namespace Scan

/-! ### Rules apply next to stars -/

/-- Whether every rule other than keeping belongs to a gap with a run of stars on exactly one side.
`afterStars` tells that a run stands in front of the first gap. -/
def Local : (afterStars : Bool) → List Rule → List Piece → Prop
  | afterStars, r :: rs, s :: ss => (r ≠ .keep → afterStars ≠ s.isStars) ∧ Local s.isStars rs ss
  | afterStars, [r], [] => r ≠ .keep → afterStars = true
  | _, _, _ => False

/-- There is one rule for each gap. -/
theorem Local.length_eq {afterStars : Bool} {rs : List Rule} {solids : List Piece}
    (h : Local afterStars rs solids) : rs.length = solids.length + 1 := by
  induction solids generalizing afterStars rs with
  | nil =>
    cases rs with
    | nil => exact h.elim
    | cons r rs =>
      cases rs with
      | nil => rfl
      | cons r' rs => exact h.elim
  | cons s solids ih =>
    cases rs with
    | nil => exact h.elim
    | cons r rs => rw [List.length_cons, List.length_cons, ih h.2]

theorem local_trimRules : ∀ (solids : List Piece) (frames : List Nat) (left : Left),
    Local (decide (left ≠ .other)) (trimRules frames left solids) solids := by
  intro solids
  induction solids with
  | nil =>
    intro frames left
    cases left <;> simp [trimRules, Local]
  | cons s solids ih =>
    intro frames left
    cases s with
    | char c =>
      refine ⟨?_, ih frames .other⟩
      cases left <;> simp [Piece.isStars]
    | stars n =>
      rw [trimRules]
      split_ifs with hwide hcloses hother
      · exact ⟨fun h => absurd rfl h, ih frames .run⟩
      · exact ⟨fun _ => by simp [hother, Piece.isStars], ih frames.tail .run⟩
      · exact ⟨fun h => absurd rfl h, ih frames.tail .run⟩
      · exact ⟨fun h => absurd rfl h, ih (n :: frames) .opener⟩

theorem local_spaceRules (takes : Nat → Bool) (wants : Int → Bool) :
    ∀ (solids : List Piece) (frames : List Nat) (afterStars behind : Bool) (before : Option Char),
      (behind = true → afterStars = true) → (before.isSome = true → afterStars = false) →
      Local afterStars (spaceRules takes wants frames behind before solids) solids := by
  intro solids
  induction solids with
  | nil =>
    intro frames afterStars behind before _ _ h
    exact absurd rfl h
  | cons s solids ih =>
    intro frames afterStars behind before hbehind hbefore
    cases s with
    | char c =>
      refine ⟨?_, ih frames false false (some c) (by simp) (by simp)⟩
      cases behind with
      | false => intro h; exact absurd rfl h
      | true => intro _; simp [hbehind rfl, Piece.isStars]
    | stars n =>
      rw [spaceRules]
      split_ifs with hskip hcloses hasks
      · exact ⟨fun h => absurd rfl h, ih frames true false none (by simp) (by simp)⟩
      · exact ⟨fun h => absurd rfl h, ih frames.tail true true none (by simp) (by simp)⟩
      · -- A space is asked for only behind a character, where no stars stand.
        have hsome : before.isSome = true := by
          cases before with
          | none => cases hasks
          | some c => rfl
        refine ⟨fun _ => ?_, ih (n :: frames) true false none (by simp) (by simp)⟩
        simp [hbefore hsome, Piece.isStars]
      · exact ⟨fun h => absurd rfl h, ih (n :: frames) true false none (by simp) (by simp)⟩

theorem local_rules (stage : Stage) (settings : Settings) (solids : List Piece) :
    Local false (rules stage settings solids) solids := by
  cases stage with
  | trim => exact local_trimRules solids [] .other
  | bold => exact local_spaceRules _ _ solids [] false false none (by simp) (by simp)
  | italic => exact local_spaceRules _ _ solids [] false false none (by simp) (by simp)

/-- A treated gap holds blanks only. -/
theorem Rule.apply_blank (r : Rule) {g : List Char} (hg : ∀ b ∈ g, isBlank b = true) :
    ∀ b ∈ r.apply g, isBlank b = true := by
  cases r with
  | keep => exact hg
  | clear => simp [Rule.apply]
  | fill =>
    unfold Rule.apply
    dsimp only
    split_ifs
    · intro b hb
      rw [List.mem_singleton.mp hb]
      rfl
    · exact hg

/-- **Treated gaps make up a line with the same solids.** Between two runs of stars the gap is kept,
so runs do not come to touch. -/
theorem woven_treat {gaps : List (List Char)} {solids : List Piece} {afterStars : Bool}
    {rs : List Rule} (hw : Woven gaps solids) (hl : Local afterStars rs solids) :
    Woven (treat rs gaps) solids := by
  induction hw using Woven.induction generalizing afterStars rs with
  | last g hg =>
    obtain ⟨r, rfl⟩ := List.length_eq_one_iff.mp hl.length_eq
    exact r.apply_blank hg
  | cons g gaps s solids hg hs hapart hrest ih =>
    obtain ⟨r, rs, rfl⟩ := List.exists_cons_of_length_eq_add_one hl.length_eq
    rw [treat_cons]
    refine ⟨r.apply_blank hg, hs, ?_, ih hl.2⟩
    intro hstars hsol
    have hgap := hapart hstars hsol
    obtain ⟨g', gaps, rfl⟩ := List.exists_cons_of_length_eq_add_one hrest.length_eq
    obtain ⟨r', rs, rfl⟩ := List.exists_cons_of_length_eq_add_one hl.2.length_eq
    cases solids with
    | nil => cases hsol
    | cons s' solids =>
      -- The rule between two runs is to keep the gap, for no other one is local there.
      have hkeep : r' = .keep := by
        by_contra hne
        refine hl.2.1 hne ?_
        rw [hstars]
        exact hsol.symm
      rw [treat_cons, hkeep]
      exact hgap

/-- A solid shows stars to the left exactly when it is a run of them. -/
theorem starsAhead_chars {s : Piece} (hs : s.isSolid = true) (cs : List Char) :
    starsAhead (s.chars ++ cs) = s.isStars := by
  cases s with
  | char c =>
    simp only [Piece.isSolid, Bool.and_eq_true, bne_iff_ne] at hs
    exact beq_eq_false_iff_ne.mpr hs.2
  | stars n =>
    cases n with
    | zero => cases hs
    | succ n => rfl

/-- A solid shows stars to the right exactly when it is a run of them. -/
theorem starsBehind_chars {s : Piece} (hs : s.isSolid = true) (cs : List Char) :
    starsBehind (cs ++ s.chars) = s.isStars := by
  cases s with
  | char c =>
    simp only [Piece.isSolid, Bool.and_eq_true, bne_iff_ne] at hs
    rw [Piece.chars, starsBehind_concat]
    exact beq_eq_false_iff_ne.mpr hs.2
  | stars n =>
    cases n with
    | zero => cases hs
    | succ n =>
      rw [Piece.chars, List.replicate_succ', ← List.append_assoc, starsBehind_concat]
      rfl

/-- A rule moves blanks next to stars, if it keeps the gaps that have stars on both sides or on none. -/
theorem Rule.respaced_apply (r : Rule) {g u v : List Char} (hg : ∀ b ∈ g, isBlank b = true)
    (hr : r ≠ .keep → starsBehind u ≠ starsAhead v) :
    Respaced (u ++ (g ++ v)) (u ++ (r.apply g ++ v)) := by
  by_cases hkeep : r = .keep
  · rw [hkeep]
    exact Respaced.refl _
  · exact Respaced.gap g (r.apply g) hg (r.apply_blank hg) (hr hkeep)

/-- **Treating gaps moves blanks next to stars only.** Here `u` is the part of the line whose gaps are
treated already. -/
theorem respaced_treat {gaps : List (List Char)} {solids : List Piece} {rs : List Rule}
    {u : List Char} (hw : Woven gaps solids) (hl : Local (starsBehind u) rs solids) :
    Respaced (u ++ spell (weave gaps solids)) (u ++ spell (weave (treat rs gaps) solids)) := by
  induction hw using Woven.induction generalizing rs u with
  | last g hg =>
    obtain ⟨r, rfl⟩ := List.length_eq_one_iff.mp hl.length_eq
    rw [treat_singleton, weave, weave, spell_plain, spell_plain]
    have hgap := r.respaced_apply (v := []) hg fun hr => by rw [hl hr]; simp
    simpa using hgap
  | cons g gaps s solids hg hs hapart hrest ih =>
    obtain ⟨r, rs, rfl⟩ := List.exists_cons_of_length_eq_add_one hl.length_eq
    rw [treat_cons, weave, weave, spell_append, spell_append, spell_plain, spell_plain,
      spell_cons, spell_cons]
    have hfirst := r.respaced_apply (v := s.chars ++ spell (weave gaps solids)) hg fun hr => by
      rw [starsAhead_chars hs]
      exact hl.1 hr
    have hlater := ih (u := u ++ r.apply g ++ s.chars) (by rw [starsBehind_chars hs]; exact hl.2)
    simp only [List.append_assoc] at hlater
    exact hfirst.trans hlater

/-- **A stage moves blanks next to stars only.** -/
theorem respaced_chars (stage : Stage) (settings : Settings) (cs : List Char) :
    Respaced cs (chars stage settings cs) := by
  obtain ⟨gaps, solids, hw, rfl⟩ := exists_woven cs
  rw [chars_weave stage settings hw]
  have h := respaced_treat (u := []) hw (local_rules stage settings solids)
  simpa using h

/-! ### Text in front of the markers -/

/-- In front of the first marker nothing is trimmed. -/
theorem trimRules_first (solids : List Piece) : ∃ rs, trimRules [] .other solids = .keep :: rs := by
  cases solids with
  | nil => exact ⟨[], rfl⟩
  | cons s solids =>
    cases s with
    | char c => exact ⟨_, rfl⟩
    | stars n =>
      have hcloses : ¬ closes n [] = true := by simp [closes]
      rw [trimRules, if_neg hcloses]
      split_ifs
      · exact ⟨_, rfl⟩
      · exact ⟨_, rfl⟩

/-- The character in front of the first gap matters to the rule of that gap only, and there only as
long as the gap is empty. -/
theorem spaceRules_first (takes : Nat → Bool) (wants : Int → Bool) (before : Option Char)
    (solids : List Piece) : ∃ r rs, spaceRules takes wants [] false before solids = r :: rs ∧
      spaceRules takes wants [] false none solids = .keep :: rs ∧ r ≠ .clear := by
  cases solids with
  | nil => exact ⟨.keep, [], rfl, rfl, by decide⟩
  | cons s solids =>
    cases s with
    | char c => exact ⟨.keep, _, rfl, rfl, by decide⟩
    | stars n =>
      rw [spaceRules, spaceRules]
      by_cases hskip : (maxWidth < n || !takes n) = true
      · rw [if_pos hskip, if_pos hskip]
        exact ⟨.keep, _, rfl, rfl, by decide⟩
      · rw [if_neg hskip, if_neg hskip]
        refine ⟨_, _, rfl, rfl, ?_⟩
        split_ifs <;> decide

/-- A gap that is not empty is kept by every rule but clearing. -/
theorem Rule.apply_of_ne_clear {r : Rule} (hr : r ≠ .clear) {g : List Char} (hg : g ≠ []) :
    r.apply g = g := by
  cases r with
  | keep => rfl
  | clear => exact absurd rfl hr
  | fill =>
    cases g with
    | nil => exact absurd rfl hg
    | cons b g => rfl

/-- Spacing behind a text `w` and a blank. The first gap is not empty, so nothing is put into it
whatever `w` ends with. -/
theorem spaceFrom_behind_plain (takes : Nat → Bool) {wants : Int → Bool}
    (hwants : IgnoresSpacing wants) (w : List Char) {b : Char} {g : List Char}
    {gaps : List (List Char)} {solids : List Piece} (hw : Woven ((b :: g) :: gaps) solids) :
    spaceFrom takes wants [] w.reverse (weave ((b :: g) :: gaps) solids) =
      (w ++ b :: spell (weave (treat (spaceRules takes wants [] false none solids) (g :: gaps))
        solids)).reverse := by
  obtain ⟨r, rs, hrs, hnone, hr⟩ := spaceRules_first takes wants w.getLast? solids
  have h := spaceFrom_weave takes hwants hw [] false w.getLast? w.reverse (by simp)
  rw [hrs, treat_cons, Rule.apply_of_ne_clear hr (by simp), spell_weave_cons, Bool.false_and,
    putSpace_false] at h
  rw [h, hnone]
  simp [Rule.apply]

/-- **Text without stars, and the blank behind it, stay in front of the line.** The line is scanned
as if they were not there. -/
theorem chars_behind_plain (stage : Stage) (settings : Settings) {w : List Char}
    (hw : ∀ c ∈ w, c ≠ '*') (hlast : ∀ c ∈ w.getLast?, isBlank c = false) {b : Char}
    (hb : isBlank b = true) (cs : List Char) :
    chars stage settings (w ++ b :: cs) = w ++ b :: chars stage settings cs := by
  obtain ⟨gaps, solids, hcs, rfl⟩ := exists_woven cs
  obtain ⟨g, gaps, rfl, hg⟩ := hcs.exists_cons
  have hbcs := hcs.cons_blank hb
  have hpieces : pieces (w ++ b :: spell (weave (g :: gaps) solids)) =
      plain w ++ weave ((b :: g) :: gaps) solids := by
    rw [pieces_plain hw, ← spell_weave_cons, pieces_spell_weave hbcs]
  -- The text ends with a solid character that is no star, so a closing marker may trim up to it.
  have hfits : Left.other.Fits w.reverse := by
    intro c hc
    rw [List.head?_reverse] at hc
    exact ⟨hlast c hc, hw c (List.mem_of_getLast? hc)⟩
  rw [chars_weave stage settings hcs]
  cases stage with
  | trim =>
    rw [chars_trim, hpieces]
    obtain ⟨rs, hrs⟩ := trimRules_first solids
    have h := trimUnmarked_weave hbcs [] .other w.reverse hfits
    dsimp only [rules]
    rw [trimUnmarked_keep, List.append_nil]
    rw [hrs, treat_cons] at h ⊢
    rw [show (Rule.keep.apply (b :: g)) = b :: g from rfl, spell_weave_cons] at h
    simp only [reduceCtorEq, decide_false, Bool.false_and] at h
    rw [h]
    simp [Rule.apply]
  | bold =>
    dsimp only [rules, chars]
    rw [hpieces, spaceFrom_plain, List.append_nil,
      spaceFrom_behind_plain _ (ignoresSpacing_boldSpace settings) w hbcs, List.reverse_reverse]
  | italic =>
    dsimp only [rules, chars]
    rw [hpieces, spaceFrom_plain, List.append_nil,
      spaceFrom_behind_plain _ ignoresSpacing_italicSpace w hbcs, List.reverse_reverse]

end Scan

end EmphasisSpacing
