import Mathlib.Data.List.Basic
import EmphasisSpacing.Proofs.Stretches

/-!
# What spacing does to a line

Bold and italic spacing keep the runs of stars and change each stretch between them on its own
(`spaceStretch`): a space comes in front of the stretch if the run before it closes a span and the
first character of the stretch asks for it, and one comes behind the stretch if the run after it opens
a span and the last character asks for it. Nothing else changes.

Afterwards no marker of the stage has a neighbour outside its span that asks for a space (`IsSpaced`).
A later stage cannot spoil that, because all it puts next to a run is a space, which asks for nothing.
-/

namespace EmphasisSpacing

open StarSplit

/-- Whether a stage keeps a space between its spans and a neighbour. -/
def Stage.wants (settings : Settings) : Stage → Char → Bool
  | .trim, _ => false
  | .bold, c =>
    (CodePoint.isIdeograph (codeOf c) && settings.spaceCjkBold) ||
      (CodePoint.isAlnum (codeOf c) && settings.spaceAsciiBold)
  | .italic, c => CodePoint.isIdeograph (codeOf c)

theorem Stage.wants_space (settings : Settings) (stage : Stage) :
    stage.wants settings ' ' = false := by
  cases stage with
  | trim => rfl
  | bold => rfl
  | italic => rfl

namespace Scan

/-- The space that comes between a closing marker and the stretch behind it. -/
def leadSpace (wants : Char → Bool) (before : Option Role) (g : List Char) : List Char :=
  if before = some .closes ∧ g.head?.any wants = true then [' '] else []

/-- The space that comes between a stretch and the opening marker behind it. -/
def tailSpace (wants : Char → Bool) (behind : Option Role) (g : List Char) : List Char :=
  if behind = some .opens ∧ g.getLast?.any wants = true then [' '] else []

/-- What spacing makes of a stretch between runs with the given roles, where `wants` says which
characters ask for a space. -/
def spaceStretch (wants : Char → Bool) (before behind : Option Role) (g : List Char) : List Char :=
  leadSpace wants before g ++ g ++ tailSpace wants behind g

/-! ### The ends of a stretch -/

section

variable (wants : Char → Bool) (before behind : Option Role) (g : List Char)

theorem leadSpace_nil : leadSpace wants before [] = [] := if_neg (by simp)

theorem tailSpace_nil : tailSpace wants behind [] = [] := if_neg (by simp)

theorem tailSpace_of_ne (h : behind ≠ some .opens) : tailSpace wants behind g = [] :=
  if_neg fun hcond => h hcond.1

theorem reverse_leadSpace : (leadSpace wants before g).reverse = leadSpace wants before g := by
  unfold leadSpace
  split_ifs
  · rfl
  · rfl

theorem star_notMem_spaceStretch (hg : '*' ∉ g) : '*' ∉ spaceStretch wants before behind g := by
  unfold spaceStretch leadSpace tailSpace
  split_ifs <;> simp [hg]

theorem spaceStretch_ne_nil (hg : g ≠ []) : spaceStretch wants before behind g ≠ [] := by
  unfold spaceStretch
  intro hnil
  rw [List.append_eq_nil_iff, List.append_eq_nil_iff] at hnil
  exact hg hnil.1.2

/-- A stretch starts as before, unless a space came in front. -/
theorem head?_spaceStretch : (spaceStretch wants before behind g).head? =
    if before = some .closes ∧ g.head?.any wants = true then some ' ' else g.head? := by
  cases g with
  | nil =>
    unfold spaceStretch
    rw [leadSpace_nil, tailSpace_nil, if_neg (by simp)]
    rfl
  | cons c g =>
    unfold spaceStretch leadSpace
    split_ifs
    · rfl
    · rfl

/-- A stretch ends as before, unless a space came behind. -/
theorem getLast?_spaceStretch : (spaceStretch wants before behind g).getLast? =
    if behind = some .opens ∧ g.getLast?.any wants = true then some ' ' else g.getLast? := by
  by_cases hg : g = []
  · subst hg
    unfold spaceStretch
    rw [leadSpace_nil, tailSpace_nil, if_neg (by simp)]
    rfl
  · unfold spaceStretch tailSpace
    split_ifs
    · exact List.getLast?_concat
    · rw [List.append_nil, List.getLast?_append_of_ne_nil _ hg]

end

/-! ### The machine on a line -/

theorem asks_eq (wants : Int → Bool) (o : Option Char) :
    asks wants o = o.any fun c => wants (codeOf c) := by
  cases o with
  | none => rfl
  | some c => rfl

/-- The character at the front of a line of pieces is that of the stretch, unless the stretch is empty
and a run follows. -/
theorem frontChar?_stretch {g : List Char} {runs : List (Nat × List Char)} (h : runs ≠ [] → g ≠ []) :
    frontChar? (plain g ++ runPieces runs) = g.head? := by
  cases g with
  | cons c g => rfl
  | nil =>
    cases runs with
    | nil => rfl
    | cons r runs => exact absurd rfl (h (by simp))

/-- The space that a closing marker writes. -/
theorem putSpace_closing (wants : Int → Bool) (before : Option Role) (g out : List Char) :
    putSpace (decide (before = some .closes) && asks wants g.head?) out =
      leadSpace (fun c => wants (codeOf c)) before g ++ out := by
  unfold putSpace leadSpace
  rw [asks_eq]
  by_cases hspace : before = some .closes ∧ g.head?.any (fun c => wants (codeOf c)) = true
  · rw [if_pos hspace, if_pos (by simpa using hspace)]
    rfl
  · rw [if_neg hspace, if_neg (by simpa using hspace)]
    rfl

/-- The space that an opening marker writes. It looks at the last character written, which is that of
the stretch; in front of an empty stretch nothing was written. -/
theorem putSpace_opening (wants : Int → Bool) (before : Option Role) {g out : List Char}
    (hfirst : g = [] → out = []) :
    putSpace (asks wants
          (g.reverse ++ (leadSpace (fun c => wants (codeOf c)) before g ++ out)).head?)
        (g.reverse ++ (leadSpace (fun c => wants (codeOf c)) before g ++ out)) =
      (spaceStretch (fun c => wants (codeOf c)) before (some .opens) g).reverse ++ out := by
  have hlast : (g.reverse ++ (leadSpace (fun c => wants (codeOf c)) before g ++ out)).head? =
      g.getLast? := by
    by_cases hg : g = []
    · rw [hfirst hg, hg, leadSpace_nil]
      rfl
    · rw [List.head?_append_of_ne_nil _ (by simpa using hg), List.head?_reverse]
  rw [hlast]
  unfold putSpace spaceStretch tailSpace
  rw [asks_eq, List.reverse_append, List.reverse_append, reverse_leadSpace]
  by_cases hspace : g.getLast?.any (fun c => wants (codeOf c)) = true
  · rw [if_pos hspace, if_pos ⟨rfl, hspace⟩]
    simp
  · rw [if_neg hspace, if_neg fun h => hspace h.2]
    simp

/-- In front of any other run, no space is written. -/
theorem reverse_spaceStretch (wants : Char → Bool) (before : Option Role) {behind : Option Role}
    (hbehind : behind ≠ some .opens) (g out : List Char) :
    g.reverse ++ (leadSpace wants before g ++ out) =
      (spaceStretch wants before behind g).reverse ++ out := by
  unfold spaceStretch
  rw [tailSpace_of_ne wants behind g hbehind, List.append_nil, List.reverse_append,
    reverse_leadSpace, List.append_assoc]

/-- **The spacing machine changes the stretches one by one.** Induction on the runs: `before` is the
run that was just written, and `g` the stretch that comes next. A closing marker writes its space
before the stretch is read, so the space is counted to the stretch here. -/
theorem spaceFrom_runs {stage : Stage} {takes : Nat → Bool}
    (htakes : ∀ n, stage.takes n = true ↔ ¬ (maxWidth < n || !takes n) = true)
    (wants : Int → Bool) (runs : List (Nat × List Char)) :
    ∀ (frames : List Nat) (before : Option Role) (out g : List Char), ProperRuns runs →
      (before = none → out = []) → (before ≠ none → runs ≠ [] → g ≠ []) →
      spaceFrom takes wants frames
          (putSpace (decide (before = some .closes) &&
            asks wants (frontChar? (plain g ++ runPieces runs))) out)
          (plain g ++ runPieces runs) =
        (spaceStretch (fun c => wants (codeOf c)) before
            (stage.rolesFrom frames (runs.map Prod.fst)).head? g ++
          joinRuns (changeRuns (spaceStretch fun c => wants (codeOf c))
            (stage.rolesFrom frames (runs.map Prod.fst)) runs)).reverse ++ out := by
  induction runs with
  | nil =>
    intro frames before out g _ _ _
    rw [spaceFrom_plain, frontChar?_stretch (by simp), putSpace_closing,
      reverse_spaceStretch _ before (show none ≠ some Role.opens by simp)]
    simp [spaceFrom, Stage.rolesFrom, changeRuns]
  | cons run runs ih =>
    intro frames before out g hproper hfirst hapart
    obtain ⟨n, h⟩ := run
    obtain ⟨hn, -, hnextApart, hruns⟩ := hproper
    -- The stretch may be empty in front of the first run only, and there nothing is asked for.
    have hspace : (decide (before = some .closes) &&
        asks wants (frontChar? (plain g ++ runPieces ((n, h) :: runs)))) =
          (decide (before = some .closes) && asks wants g.head?) := by
      by_cases hnone : before = none
      · rw [hnone]
        rfl
      · rw [frontChar?_stretch fun _ => hapart hnone (by simp)]
    -- What is left to do behind the run, whatever its role.
    have hnext : ∀ (r : Role) (frames' : List Nat) (t : List Char),
        spaceFrom takes wants frames'
            (putSpace (decide (some r = some .closes) &&
              asks wants (frontChar? (plain h ++ runPieces runs))) (putStars n (t.reverse ++ out)))
            (plain h ++ runPieces runs) =
          (t ++ joinRuns (changeRuns (spaceStretch fun c => wants (codeOf c))
            (r :: stage.rolesFrom frames' (runs.map Prod.fst)) ((n, h) :: runs))).reverse ++
              out := by
      intro r frames' t
      rw [ih frames' (some r) _ h hruns (by simp) fun _ => hnextApart]
      simp [changeRuns, putStars]
    rw [hspace, putSpace_closing, spaceFrom_plain, runPieces_cons, spaceFrom, List.map_cons,
      Stage.rolesFrom]
    by_cases htake : stage.takes n = true
    · rw [if_neg ((htakes n).mp htake), if_pos htake]
      by_cases hcloses : frames.head? = some n
      · rw [if_pos hcloses, if_pos (closes_iff.mpr hcloses), List.head?_cons,
          reverse_spaceStretch _ before (show some Role.closes ≠ some .opens by simp)]
        exact hnext .closes frames.tail _
      · have hstart : g = [] → out = [] := by
          intro hnil
          apply hfirst
          by_contra hsome
          exact hapart hsome (by simp) hnil
        rw [if_neg hcloses, if_neg (closes_iff.not.mpr hcloses), List.head?_cons,
          putSpace_opening wants before hstart]
        exact hnext .opens (n :: frames) _
    · rw [if_pos (not_not.mp ((htakes n).not.mp htake)), if_neg htake, List.head?_cons,
        reverse_spaceStretch _ before (show some Role.inert ≠ some .opens by simp)]
      exact hnext .inert frames _

/-! ### The stages -/

theorem spaceFrom_eq {stage : Stage} {takes : Nat → Bool}
    (htakes : ∀ n, stage.takes n = true ↔ ¬ (maxWidth < n || !takes n) = true)
    (wants : Int → Bool) (w : List Char) :
    (spaceFrom takes wants [] [] (pieces w)).reverse =
      ((ofChars w).change (spaceStretch fun c => wants (codeOf c)) ((ofChars w).roles stage)).join := by
  have hrun := spaceFrom_runs htakes wants (ofChars w).runs [] none [] (ofChars w).front
    (proper_ofChars w).runs (fun _ => rfl) fun h => absurd rfl h
  rw [← pieces_eq] at hrun
  have hnone : putSpace (decide ((none : Option Role) = some .closes) &&
      asks wants (frontChar? (pieces w))) [] = [] := rfl
  rw [hnone] at hrun
  rw [hrun, List.append_nil, List.reverse_reverse]
  rfl

theorem takes_bold (n : Nat) :
    Stage.bold.takes n = true ↔ ¬ (maxWidth < n || !decide (2 ≤ n)) = true := by
  simp only [Stage.takes, Bool.or_eq_true, beq_iff_eq, decide_eq_true_eq, Bool.not_eq_true',
    decide_eq_false_iff_not]
  unfold maxWidth
  omega

theorem takes_italic (n : Nat) :
    Stage.italic.takes n = true ↔ ¬ (maxWidth < n || !(n == 1)) = true := by
  simp only [Stage.takes, Bool.or_eq_true, beq_iff_eq, decide_eq_true_eq, Bool.not_eq_true',
    beq_eq_false_iff_ne]
  unfold maxWidth
  omega

/-- No ideograph is an ASCII letter or digit, so the two settings of bold spacing do not get in each
other's way. -/
theorem boldSpace_eq (settings : Settings) (c : Char) :
    boldSpace settings (codeOf c) = Stage.bold.wants settings c := by
  unfold boldSpace Stage.wants
  by_cases hcjk : CodePoint.isIdeograph (codeOf c) = true
  · have halnum : CodePoint.isAlnum (codeOf c) = false := by
      simp only [CodePoint.isIdeograph, CodePoint.isAlnum, Bool.and_eq_true, decide_eq_true_eq,
        Bool.or_eq_false_iff, Bool.and_eq_false_iff, decide_eq_false_iff_not] at hcjk ⊢
      omega
    rw [if_pos hcjk]
    simp [hcjk, halnum]
  · rw [Bool.not_eq_true] at hcjk
    cases halnum : CodePoint.isAlnum (codeOf c) with
    | false => simp [hcjk, halnum]
    | true => simp [hcjk, halnum]

/-- **Spacing, as a change of stretches.** -/
theorem chars_space_eq (settings : Settings) {stage : Stage} (hstage : stage ≠ .trim)
    (w : List Char) :
    chars stage settings w =
      ((ofChars w).change (spaceStretch (stage.wants settings)) ((ofChars w).roles stage)).join := by
  cases stage with
  | trim => exact absurd rfl hstage
  | bold =>
    have hbold : Stage.bold.wants settings = fun c => boldSpace settings (codeOf c) :=
      funext fun c => (boldSpace_eq settings c).symm
    rw [hbold]
    exact spaceFrom_eq takes_bold _ w
  | italic => exact spaceFrom_eq takes_italic italicSpace w

theorem ofChars_space (settings : Settings) {stage : Stage} (hstage : stage ≠ .trim)
    (w : List Char) :
    ofChars (chars stage settings w) =
      (ofChars w).change (spaceStretch (stage.wants settings)) ((ofChars w).roles stage) := by
  rw [chars_space_eq settings hstage, ofChars_join]
  exact (proper_ofChars w).change (star_notMem_spaceStretch _)
    (fun r r' g hg => spaceStretch_ne_nil _ (some r) (some r') g hg) stage

/-! ### What is left to ask for -/

/-- Whether no marker of a stage has a neighbour outside its span that asks for a space: neither the
character behind a closing marker nor the one in front of an opening marker. -/
def IsSpaced (settings : Settings) (stage : Stage) (s : StarSplit) : Prop :=
  ∀ (i : Nat) (g : List Char), s.stretches[i]? = some g →
    (s.roleBefore stage i = some .closes → g.head?.any (stage.wants settings) = false) ∧
      (s.roleBehind stage i = some .opens → g.getLast?.any (stage.wants settings) = false)

section

variable (settings : Settings) (s : StarSplit)

/-- The pairing depends on the runs alone. -/
theorem roles_change (f : Option Role → Option Role → List Char → List Char) (stage stage' : Stage) :
    (s.change f (s.roles stage)).roles stage' = s.roles stage' := by
  show stage'.rolesFrom [] (s.change f (s.roles stage)).widths = _
  rw [widths_change]
  rfl

theorem roleBefore_change (f : Option Role → Option Role → List Char → List Char)
    (stage stage' : Stage) (i : Nat) :
    (s.change f (s.roles stage)).roleBefore stage' i = s.roleBefore stage' i := by
  cases i with
  | zero => rfl
  | succ i =>
    unfold roleBefore
    rw [roles_change]

theorem roleBehind_change (f : Option Role → Option Role → List Char → List Char)
    (stage stage' : Stage) (i : Nat) :
    (s.change f (s.roles stage)).roleBehind stage' i = s.roleBehind stage' i := by
  unfold roleBehind
  rw [roles_change]

/-- Spacing leaves nothing to ask for. -/
theorem isSpaced_change (stage : Stage) :
    IsSpaced settings stage (s.change (spaceStretch (stage.wants settings)) (s.roles stage)) := by
  intro i g hg
  rw [getElem?_stretches_change, Option.map_eq_some_iff] at hg
  obtain ⟨g, -, rfl⟩ := hg
  rw [roleBefore_change, roleBehind_change, head?_spaceStretch, getLast?_spaceStretch]
  constructor
  · intro hbefore
    split_ifs with hspace
    · exact stage.wants_space settings
    · simpa [hbefore] using hspace
  · intro hbehind
    split_ifs with hspace
    · exact stage.wants_space settings
    · simpa [hbehind] using hspace

/-- Spacing for another stage leaves it so: next to a run it puts spaces and nothing else. -/
theorem IsSpaced.change {settings : Settings} {s : StarSplit} {stage : Stage}
    (h : IsSpaced settings stage s) (wants : Char → Bool) (stage' : Stage) :
    IsSpaced settings stage (s.change (spaceStretch wants) (s.roles stage')) := by
  intro i g hg
  rw [getElem?_stretches_change, Option.map_eq_some_iff] at hg
  obtain ⟨g, hget, rfl⟩ := hg
  rw [roleBefore_change, roleBehind_change, head?_spaceStretch, getLast?_spaceStretch]
  obtain ⟨hhead, hlast⟩ := h i g hget
  constructor
  · intro hbefore
    split_ifs
    · exact stage.wants_space settings
    · exact hhead hbefore
  · intro hbehind
    split_ifs
    · exact stage.wants_space settings
    · exact hlast hbehind

end

/-- Whether a line is another one with a space in front of some stretches and behind some, where a
stage asks for them, and no other change. -/
def SpacedFrom (settings : Settings) (stage : Stage) (w out : List Char) : Prop :=
  (ofChars out).join = out ∧ (ofChars out).widths = (ofChars w).widths ∧
    ∀ i : Nat, (ofChars out).stretches[i]? = (ofChars w).stretches[i]?.map
      (spaceStretch (stage.wants settings) ((ofChars w).roleBefore stage i)
        ((ofChars w).roleBehind stage i))

theorem spacedFrom_chars (settings : Settings) {stage : Stage} (hstage : stage ≠ .trim)
    (w : List Char) : SpacedFrom settings stage w (chars stage settings w) := by
  refine ⟨join_ofChars _, ?_, fun i => ?_⟩
  · rw [ofChars_space settings hstage, widths_change]
  · rw [ofChars_space settings hstage, getElem?_stretches_change]

/-- **Bold and italic spacing put exactly the spaces that are needed.** Each of them puts one space in
front of every opening marker whose neighbour on the left asks for it, and one behind every closing
marker whose neighbour on the right does, and changes nothing else. After both, no marker of either
kind has such a neighbour left. -/
theorem stretches_space (settings : Settings) (w : List Char) :
    (ofChars w).join = w ∧ (ofChars w).Proper ∧
      SpacedFrom settings .bold w (chars .bold settings w) ∧
      SpacedFrom settings .italic w (chars .italic settings w) ∧
      IsSpaced settings .bold (ofChars (chars .italic settings (chars .bold settings w))) ∧
      IsSpaced settings .italic (ofChars (chars .italic settings (chars .bold settings w))) := by
  have hitalic := ofChars_space settings (show Stage.italic ≠ .trim by decide)
    (chars .bold settings w)
  refine ⟨join_ofChars w, proper_ofChars w, spacedFrom_chars settings (by decide) w,
    spacedFrom_chars settings (by decide) w, ?_, ?_⟩
  · rw [hitalic]
    apply IsSpaced.change
    rw [ofChars_space settings (by decide)]
    exact isSpaced_change settings (ofChars w) .bold
  · rw [hitalic]
    exact isSpaced_change settings _ .italic

end Scan

end EmphasisSpacing
