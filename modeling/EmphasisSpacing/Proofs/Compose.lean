import EmphasisSpacing.Emphasis.Format
import EmphasisSpacing.Proofs.Rules

/-!
# Stages one after the other

No stage changes the solids of a line, and the rules of a stage depend on the solids only. So the
stages that are turned on, one after the other, treat every gap by a list of rules that is known
beforehand (`foldl_chars_weave`).

Trimming keeps or clears and spacing keeps or fills. Hence a gap that went through all stages stays
as it is when it goes through them again (`foldl_chars_foldl_chars`), although trimming alone may
clear what spacing has filled: this happens exactly at a gap that has both rules (`clashes`).
-/

namespace EmphasisSpacing

namespace Scan

/-! ### The kinds of rules -/

theorem ne_fill_of_mem_trimRules (solids : List Piece) :
    ∀ (frames : List Nat) (left : Left), ∀ r ∈ trimRules frames left solids, r ≠ .fill := by
  -- Where trimming decides at all, it decides between these two.
  have hclear : ∀ p : Prop, ∀ [Decidable p], (if p then Rule.clear else .keep) ≠ .fill := by
    intro p _
    split_ifs <;> decide
  induction solids with
  | nil =>
    intro frames left r hr
    rw [trimRules, List.mem_singleton] at hr
    rw [hr]
    exact hclear _
  | cons s solids ih =>
    intro frames left r hr
    cases s with
    | char c =>
      rcases List.mem_cons.mp hr with rfl | hr
      · exact hclear _
      · exact ih _ _ r hr
    | stars n =>
      rw [trimRules] at hr
      split_ifs at hr with hwide hcloses hother
      all_goals
        rcases List.mem_cons.mp hr with rfl | hr
        · decide
        · exact ih _ _ r hr

theorem ne_clear_of_mem_spaceRules (takes : Nat → Bool) (wants : Int → Bool) (solids : List Piece) :
    ∀ (frames : List Nat) (behind : Bool) (before : Option Char),
      ∀ r ∈ spaceRules takes wants frames behind before solids, r ≠ .clear := by
  -- Where spacing decides at all, it decides between these two.
  have hfill : ∀ p : Prop, ∀ [Decidable p], (if p then Rule.fill else .keep) ≠ .clear := by
    intro p _
    split_ifs <;> decide
  induction solids with
  | nil =>
    intro frames behind before r hr
    rw [spaceRules, List.mem_singleton] at hr
    rw [hr]
    decide
  | cons s solids ih =>
    intro frames behind before r hr
    cases s with
    | char c =>
      rcases List.mem_cons.mp hr with rfl | hr
      · exact hfill _
      · exact ih _ _ _ r hr
    | stars n =>
      rw [spaceRules] at hr
      split_ifs at hr with hskip hcloses hasks
      all_goals
        rcases List.mem_cons.mp hr with rfl | hr
        · decide
        · exact ih _ _ _ r hr

/-- Only trimming clears gaps. -/
theorem ne_clear_of_mem_rules (settings : Settings) (solids : List Piece) {stage : Stage}
    (hstage : stage ≠ .trim) : ∀ r ∈ rules stage settings solids, r ≠ .clear := by
  cases stage with
  | trim => exact absurd rfl hstage
  | bold => exact ne_clear_of_mem_spaceRules _ _ solids [] false none
  | italic => exact ne_clear_of_mem_spaceRules _ _ solids [] false none

/-! ### Rules of stages that may be turned off -/

/-- The rules of a stage, which keeps everything when it is turned off. -/
def activeRules (settings : Settings) (solids : List Piece) (stage : Stage) : List Rule :=
  if stage.enabled settings then rules stage settings solids
  else List.replicate (solids.length + 1) .keep

section

variable (settings : Settings) (solids : List Piece)

theorem length_activeRules (stage : Stage) :
    (activeRules settings solids stage).length = solids.length + 1 := by
  unfold activeRules
  split_ifs
  · exact (local_rules stage settings solids).length_eq
  · exact List.length_replicate

theorem ne_fill_of_mem_activeRules : ∀ r ∈ activeRules settings solids .trim, r ≠ .fill := by
  intro r hr
  unfold activeRules at hr
  split_ifs at hr
  · exact ne_fill_of_mem_trimRules solids [] .other r hr
  · rw [List.eq_of_mem_replicate hr]
    decide

theorem ne_clear_of_mem_activeRules {stage : Stage} (hstage : stage ≠ .trim) :
    ∀ r ∈ activeRules settings solids stage, r ≠ .clear := by
  intro r hr
  unfold activeRules at hr
  split_ifs at hr
  · exact ne_clear_of_mem_rules settings solids hstage r hr
  · rw [List.eq_of_mem_replicate hr]
    decide

end

theorem treat_replicate_keep (gaps : List (List Char)) :
    treat (List.replicate gaps.length .keep) gaps = gaps := by
  induction gaps with
  | nil => rfl
  | cons g gaps ih =>
    rw [List.length_cons, List.replicate_succ, treat_cons, ih]
    rfl

/-- A stage treats the gaps by its active rules, whether or not it is turned on. -/
theorem enabled_chars_weave (settings : Settings) (stage : Stage) {gaps : List (List Char)}
    {solids : List Piece} (hw : Woven gaps solids) :
    (if stage.enabled settings then chars stage settings (spell (weave gaps solids))
      else spell (weave gaps solids)) =
        spell (weave (treat (activeRules settings solids stage) gaps) solids) ∧
      Woven (treat (activeRules settings solids stage) gaps) solids := by
  unfold activeRules
  split_ifs with hon
  · exact ⟨chars_weave stage settings hw, woven_treat hw (local_rules stage settings solids)⟩
  · rw [← hw.length_eq, treat_replicate_keep]
    exact ⟨rfl, hw⟩

/-! ### All stages -/

/-- Gaps after the rules of all stages. -/
def treatAll (settings : Settings) (solids : List Piece) (gaps : List (List Char)) :
    List (List Char) :=
  Stage.all.foldl (fun gaps stage => treat (activeRules settings solids stage) gaps) gaps

/-- **The stages that are turned on treat every gap by its rules, one after the other.** -/
theorem foldl_chars_weave (settings : Settings) {gaps : List (List Char)} {solids : List Piece}
    (hw : Woven gaps solids) :
    (Stage.all.filter (Stage.enabled settings)).foldl (fun cs stage => chars stage settings cs)
        (spell (weave gaps solids)) =
      spell (weave (treatAll settings solids gaps) solids) ∧
    Woven (treatAll settings solids gaps) solids := by
  -- Induction on the stages that are still to run, with the gaps that those before have left.
  have hrun : ∀ (stages : List Stage) (gaps : List (List Char)), Woven gaps solids →
      (stages.filter (Stage.enabled settings)).foldl (fun cs stage => chars stage settings cs)
          (spell (weave gaps solids)) =
        spell (weave (stages.foldl (fun gaps stage =>
          treat (activeRules settings solids stage) gaps) gaps) solids) ∧
      Woven (stages.foldl (fun gaps stage => treat (activeRules settings solids stage) gaps) gaps)
        solids := by
    intro stages
    induction stages with
    | nil =>
      intro gaps hw
      exact ⟨rfl, hw⟩
    | cons stage stages ih =>
      intro gaps hw
      obtain ⟨heq, hw'⟩ := enabled_chars_weave settings stage hw
      have hnext := ih _ hw'
      rw [← heq] at hnext
      rw [List.foldl_cons]
      refine ⟨?_, hnext.2⟩
      rw [← hnext.1, List.filter_cons]
      split_ifs
      · rfl
      · rfl
  exact hrun Stage.all gaps hw

/-- What trimming, bold spacing and italic spacing make of a gap by these rules. -/
def settle (t b i : Rule) (g : List Char) : List Char := i.apply (b.apply (t.apply g))

/-- Once a gap is settled, it stays. -/
theorem settle_settle {t b i : Rule} (ht : t ≠ .fill) (hb : b ≠ .clear) (hi : i ≠ .clear)
    (g : List Char) : settle t b i (settle t b i g) = settle t b i g := by
  cases t with
  | fill => exact absurd rfl ht
  | clear => rfl
  | keep =>
    cases b with
    | clear => exact absurd rfl hb
    | keep | fill =>
      cases i with
      | clear => exact absurd rfl hi
      | keep | fill => cases g <;> rfl

/-- Trimming changes a settled gap when it clears what spacing has filled, and only then. -/
theorem apply_settle_iff {t b i : Rule} (ht : t ≠ .fill) (hb : b ≠ .clear) (hi : i ≠ .clear)
    (g : List Char) :
    t.apply (settle t b i g) = settle t b i g ↔ ¬ (t = .clear ∧ (b = .fill ∨ i = .fill)) := by
  cases t with
  | fill => exact absurd rfl ht
  | keep => simp [Rule.apply]
  | clear =>
    cases b with
    | clear => exact absurd rfl hb
    | keep | fill =>
      cases i with
      | clear => exact absurd rfl hi
      | keep | fill => simp [settle, Rule.apply]

theorem treat_treat_settled : ∀ {ts bs is : List Rule} {gaps : List (List Char)},
    (∀ r ∈ ts, r ≠ .fill) → (∀ r ∈ bs, r ≠ .clear) → (∀ r ∈ is, r ≠ .clear) →
    treat is (treat bs (treat ts (treat is (treat bs (treat ts gaps))))) =
      treat is (treat bs (treat ts gaps))
  | [], _, _, _, _, _, _ => by simp [treat]
  | _, [], _, _, _, _, _ => by simp [treat]
  | _, _, [], _, _, _, _ => by simp [treat]
  | _, _, _, [], _, _, _ => by simp [treat]
  | t :: ts, b :: bs, i :: is, g :: gaps, ht, hb, hi => by
    rw [List.forall_mem_cons] at ht hb hi
    have hfirst := settle_settle ht.1 hb.1 hi.1 g
    have hlater : treat is (treat bs (treat ts (treat is (treat bs (treat ts gaps))))) =
        treat is (treat bs (treat ts gaps)) := treat_treat_settled ht.2 hb.2 hi.2
    simp only [treat_cons, List.cons.injEq]
    exact ⟨hfirst, hlater⟩

/-- **All stages together change nothing more on a second run.** -/
theorem foldl_chars_foldl_chars (settings : Settings) (cs : List Char) :
    (Stage.all.filter (Stage.enabled settings)).foldl (fun cs stage => chars stage settings cs)
        ((Stage.all.filter (Stage.enabled settings)).foldl
          (fun cs stage => chars stage settings cs) cs) =
      (Stage.all.filter (Stage.enabled settings)).foldl
        (fun cs stage => chars stage settings cs) cs := by
  obtain ⟨gaps, solids, hw, rfl⟩ := exists_woven cs
  obtain ⟨honce, hw'⟩ := foldl_chars_weave settings hw
  obtain ⟨htwice, -⟩ := foldl_chars_weave settings hw'
  have hsettled : treatAll settings solids (treatAll settings solids gaps) =
      treatAll settings solids gaps :=
    treat_treat_settled (ne_fill_of_mem_activeRules settings solids)
      (ne_clear_of_mem_activeRules settings solids (by decide))
      (ne_clear_of_mem_activeRules settings solids (by decide))
  rw [honce, htwice, hsettled]

/-! ### Trimming what was spaced -/

/-- Whether some gap is cleared by the first rules and filled by one of the others. -/
def clash : (ts bs is : List Rule) → Bool
  | t :: ts, b :: bs, i :: is =>
    (t == .clear && (b == .fill || i == .fill)) || clash ts bs is
  | _, _, _ => false

theorem treat_settled_iff {gaps : List (List Char)} : ∀ {ts bs is : List Rule},
    ts.length = gaps.length → bs.length = gaps.length → is.length = gaps.length →
    (∀ r ∈ ts, r ≠ .fill) → (∀ r ∈ bs, r ≠ .clear) → (∀ r ∈ is, r ≠ .clear) →
    (treat ts (treat is (treat bs (treat ts gaps))) = treat is (treat bs (treat ts gaps)) ↔
      clash ts bs is = false) := by
  induction gaps with
  | nil =>
    intro ts bs is hts _ _ _ _ _
    rw [List.eq_nil_of_length_eq_zero hts]
    simp [treat, clash]
  | cons g gaps ih =>
    intro ts bs is hts hbs his ht hb hi
    obtain ⟨t, ts, rfl⟩ := List.exists_cons_of_length_eq_add_one hts
    obtain ⟨b, bs, rfl⟩ := List.exists_cons_of_length_eq_add_one hbs
    obtain ⟨i, is, rfl⟩ := List.exists_cons_of_length_eq_add_one his
    rw [List.forall_mem_cons] at ht hb hi
    have hfirst := apply_settle_iff ht.1 hb.1 hi.1 g
    have hlater := ih (Nat.succ.inj hts) (Nat.succ.inj hbs) (Nat.succ.inj his) ht.2 hb.2 hi.2
    simp only [treat_cons, List.cons.injEq]
    rw [hlater, clash, Bool.or_eq_false_iff]
    refine and_congr_left fun _ => hfirst.trans ?_
    rw [← Bool.not_eq_true, Bool.and_eq_true, Bool.or_eq_true, beq_iff_eq, beq_iff_eq, beq_iff_eq]

/-- A gap ends where a solid starts. -/
theorem plain_cons_inj {s : Piece} (hs : s.isSolid = true) {ps ps' : List Piece} :
    ∀ {g g' : List Char}, (∀ b ∈ g, isBlank b = true) → (∀ b ∈ g', isBlank b = true) →
      plain g ++ s :: ps = plain g' ++ s :: ps' → g = g' ∧ ps = ps'
  | [], [], _, _, h => ⟨rfl, (List.cons.inj h).2⟩
  | b :: g, [], hg, _, h => by
    rw [← (List.cons.inj h).1, Piece.isSolid, hg b (List.mem_cons_self ..)] at hs
    cases hs
  | [], b :: g', _, hg', h => by
    rw [(List.cons.inj h).1, Piece.isSolid, hg' b (List.mem_cons_self ..)] at hs
    cases hs
  | b :: g, b' :: g', hg, hg', h => by
    rw [List.forall_mem_cons] at hg hg'
    obtain ⟨hb, hrest⟩ := List.cons.inj h
    obtain ⟨hgg, hps⟩ := plain_cons_inj hs hg.2 hg'.2 hrest
    exact ⟨by rw [Piece.char.inj hb, hgg], hps⟩

/-- A line has its gaps to itself. -/
theorem weave_inj : ∀ {solids : List Piece} {gaps gaps' : List (List Char)}, Woven gaps solids →
    Woven gaps' solids → weave gaps solids = weave gaps' solids → gaps = gaps'
  | [], [g], [g'], _, _, h => by
    have hg : g = g' := by
      have hspell := congrArg spell h
      rwa [weave, weave, spell_plain, spell_plain] at hspell
    rw [hg]
  | s :: solids, g :: gaps, g' :: gaps', hw, hw', h => by
    obtain ⟨hg, hrest⟩ := plain_cons_inj hw.2.1 hw.1 hw'.1 h
    rw [hg, weave_inj hw.2.2.2 hw'.2.2.2 hrest]

/-- The solids of a line. -/
def solids (cs : List Char) : List Piece := (pieces cs).filter Piece.isSolid

theorem filter_plain {g : List Char} (hg : ∀ b ∈ g, isBlank b = true) :
    (plain g).filter Piece.isSolid = [] := by
  rw [List.filter_eq_nil_iff]
  intro p hp
  obtain ⟨b, hb, rfl⟩ := List.mem_map.mp hp
  simp [Piece.isSolid, hg b hb]

theorem filter_weave {gaps : List (List Char)} {ss : List Piece} (h : Woven gaps ss) :
    (weave gaps ss).filter Piece.isSolid = ss := by
  induction h using Woven.induction with
  | last g hg => exact filter_plain hg
  | cons g gaps s ss hg hs hapart hrest ih =>
    rw [weave, List.filter_append, filter_plain hg, List.nil_append,
      List.filter_cons_of_pos hs, ih]

/-- Whether some gap of a line is cleared by trimming and filled by a stage that puts spaces. -/
def clashes (settings : Settings) (cs : List Char) : Bool :=
  clash (activeRules settings (solids cs) .trim) (activeRules settings (solids cs) .bold)
    (activeRules settings (solids cs) .italic)

/-- **Trimming changes a line that went through all stages exactly when some gap of it is cleared by
trimming and filled by spacing.** -/
theorem chars_trim_foldl_chars_iff {settings : Settings} (hon : settings.trimInside = true)
    (cs : List Char) :
    chars .trim settings ((Stage.all.filter (Stage.enabled settings)).foldl
        (fun cs stage => chars stage settings cs) cs) =
      (Stage.all.filter (Stage.enabled settings)).foldl
        (fun cs stage => chars stage settings cs) cs ↔
    clashes settings cs = false := by
  obtain ⟨gaps, ss, hw, rfl⟩ := exists_woven cs
  have hsolids : solids (spell (weave gaps ss)) = ss := by
    rw [solids, pieces_spell_weave hw, filter_weave hw]
  obtain ⟨hall, hw'⟩ := foldl_chars_weave settings hw
  have htrim : activeRules settings ss .trim = rules .trim settings ss := if_pos hon
  have hw'' := woven_treat hw' (local_rules .trim settings ss)
  have hlength : ∀ stage, (activeRules settings ss stage).length = gaps.length := fun stage =>
    (length_activeRules settings ss stage).trans hw.length_eq.symm
  rw [clashes, hsolids, hall, chars_weave .trim settings hw', ← treat_settled_iff (hlength .trim)
    (hlength .bold) (hlength .italic) (ne_fill_of_mem_activeRules settings ss)
    (ne_clear_of_mem_activeRules settings ss (by decide))
    (ne_clear_of_mem_activeRules settings ss (by decide)), ← htrim]
  rw [← htrim] at hw''
  constructor
  · -- Different gaps would show in the pieces.
    intro h
    have hpieces := congrArg pieces h
    rw [pieces_spell_weave hw'', pieces_spell_weave hw'] at hpieces
    exact weave_inj hw'' hw' hpieces
  · intro h
    exact congrArg (fun gaps => spell (weave gaps ss)) h

end Scan

end EmphasisSpacing
