import Mathlib.Data.List.DropRight
import EmphasisSpacing.Proofs.Stretches

/-!
# What trimming does to a line

Trimming keeps the runs of stars and changes each stretch between them on its own (`trimStretch`).
The blanks at the start of a stretch go if the run in front of it opens a span, and those at its end
go if the run behind it closes one. A stretch of nothing but blanks is kept between two runs, because
they would fuse without it; behind the last run there is nothing to fuse with.

The machine writes one output from left to right and trims it backwards at a closing marker. What
keeps this from reaching into an earlier stretch is that a star stands just in front of the stretch
that is being written: that is the invariant of `trimUnmarked_runs`.
-/

namespace EmphasisSpacing

namespace Scan

open StarSplit

/-- Whether a stretch holds anything but blanks. -/
def hasSolid (g : List Char) : Bool := g.any fun c => !isBlank c

/-- A stretch after the run in front of it was looked at. -/
def trimLead (before behind : Option Role) (g : List Char) : List Char :=
  if before = some .opens ∧ (behind = none ∨ hasSolid g = true) then g.dropWhile isBlank else g

/-- What trimming makes of a stretch between runs with the given roles. There is no run in front of
the first stretch and none behind the last. -/
def trimStretch (before behind : Option Role) (g : List Char) : List Char :=
  if behind = some .closes ∧ hasSolid g = true then (trimLead before behind g).rdropWhile isBlank
  else trimLead before behind g

/-! ### Blanks at the ends of a stretch -/

theorem hasSolid_iff {g : List Char} : hasSolid g = true ↔ ∃ c ∈ g, ¬ isBlank c = true := by
  simp [hasSolid]

theorem hasSolid_dropWhile (g : List Char) : hasSolid (g.dropWhile isBlank) = hasSolid g := by
  induction g with
  | nil => rfl
  | cons c g ih =>
    by_cases hc : isBlank c = true
    · rw [List.dropWhile_cons, if_pos hc, ih]
      simp [hasSolid, hc]
    · rw [List.dropWhile_cons, if_neg hc]

theorem hasSolid_trimLead (before behind : Option Role) (g : List Char) :
    hasSolid (trimLead before behind g) = hasSolid g := by
  unfold trimLead
  split_ifs
  · exact hasSolid_dropWhile g
  · rfl

theorem trimLead_subset (before behind : Option Role) (g : List Char) :
    trimLead before behind g ⊆ g := by
  unfold trimLead
  split_ifs
  · exact (List.dropWhile_sublist _).subset
  · exact fun _ h => h

theorem star_notMem_trimStretch (before behind : Option Role) (g : List Char) (hg : '*' ∉ g) :
    '*' ∉ trimStretch before behind g := by
  intro hmem
  apply hg
  apply trimLead_subset before behind
  unfold trimStretch at hmem
  split_ifs at hmem
  · exact (List.rdropWhile_prefix _ _).subset hmem
  · exact hmem

/-- Between two runs, something of a stretch is left. -/
theorem trimStretch_ne_nil (r r' : Role) (g : List Char) (hg : g ≠ []) :
    trimStretch (some r) (some r') g ≠ [] := by
  by_cases hsolid : hasSolid g = true
  · have hlead : hasSolid (trimLead (some r) (some r') g) = true := by
      rw [hasSolid_trimLead, hsolid]
    obtain ⟨c, hc, hblank⟩ := hasSolid_iff.mp hlead
    unfold trimStretch
    split_ifs
    · intro hnil
      exact hblank (List.rdropWhile_eq_nil_iff.mp hnil c hc)
    · exact List.ne_nil_of_mem hc
  · unfold trimStretch trimLead
    rw [if_neg (by simp [hsolid]), if_neg (by simp [hsolid])]
    exact hg

/-! ### The machine on one stretch -/

theorem dropsBlanks_stretch (g : List Char) (runs : List (Nat × List Char)) :
    dropsBlanks (plain g ++ runPieces runs) = (runs.isEmpty || hasSolid g) := by
  induction g with
  | nil =>
    cases runs with
    | nil => rfl
    | cons r runs => rfl
  | cons c g ih =>
    show (if isBlank c = true then dropsBlanks (plain g ++ runPieces runs) else true) = _
    by_cases hc : isBlank c = true
    · rw [if_pos hc, ih]
      simp [hasSolid, hc]
    · rw [if_neg hc]
      simp [hasSolid, hc]

/-- Where a stretch ends, blanks are dropped no longer. -/
theorem trimUnmarked_dropping (frames : List Nat) (out g : List Char) (runs : List (Nat × List Char)) :
    trimUnmarked true frames out (plain g ++ runPieces runs) =
      trimUnmarked false frames ((g.dropWhile isBlank).reverse ++ out) (runPieces runs) := by
  induction g with
  | nil =>
    cases runs with
    | nil => rfl
    | cons r runs => rfl
  | cons c g ih =>
    show (if (true && isBlank c) = true then _ else _) = _
    rw [Bool.true_and, List.dropWhile_cons]
    by_cases hc : isBlank c = true
    · rw [if_pos hc, if_pos hc]
      exact ih
    · rw [if_neg hc, if_neg hc, List.reverse_cons, List.append_assoc]
      exact trimUnmarked_keep frames (c :: out) g (runPieces runs)

/-- A stretch is written without the blanks at its start, if an opening marker stands in front and
they may be dropped. -/
theorem trimUnmarked_stretch (before behind : Option Role) (frames : List Nat) (out g : List Char)
    {runs : List (Nat × List Char)} (hbehind : behind = none ↔ runs = []) :
    trimUnmarked (decide (before = some .opens) && dropsBlanks (plain g ++ runPieces runs)) frames out
        (plain g ++ runPieces runs) =
      trimUnmarked false frames ((trimLead before behind g).reverse ++ out) (runPieces runs) := by
  rw [dropsBlanks_stretch]
  unfold trimLead
  by_cases hdrop : before = some .opens ∧ (behind = none ∨ hasSolid g = true)
  · have hflag : (decide (before = some .opens) && (runs.isEmpty || hasSolid g)) = true := by
      simpa [hbehind] using hdrop
    rw [if_pos hdrop, hflag, trimUnmarked_dropping]
  · have hflag : (decide (before = some .opens) && (runs.isEmpty || hasSolid g)) = false := by
      rw [← Bool.not_eq_true]
      simpa [hbehind] using hdrop
    rw [if_neg hdrop, hflag, trimUnmarked_keep]

/-- At a closing marker, what was written is trimmed back to the last solid of the stretch. If the
stretch has none, the star in front of it stops that. -/
theorem trimEnd_stretch {out g : List Char} (hout : out.head? = some '*') (hg : '*' ∉ g) :
    trimEnd (g.reverse ++ out) =
      (if hasSolid g = true then g.rdropWhile isBlank else g).reverse ++ out := by
  unfold trimEnd
  dsimp only
  by_cases hsolid : hasSolid g = true
  · obtain ⟨c, hc, hblank⟩ := hasSolid_iff.mp hsolid
    have hdrop : (g.reverse ++ out).dropWhile isBlank = (g.rdropWhile isBlank).reverse ++ out := by
      rw [List.dropWhile_append, List.rdropWhile, List.reverse_reverse, if_neg]
      rw [List.isEmpty_iff, List.dropWhile_eq_nil_iff]
      intro hall
      exact hblank (hall c (List.mem_reverse.mpr hc))
    -- The stretch holds no star, so the look behind the blanks finds its last solid.
    have hhead : ((g.rdropWhile isBlank).reverse ++ out).head? ≠ some '*' := by
      have hne : g.rdropWhile isBlank ≠ [] := fun hnil =>
        hblank (List.rdropWhile_eq_nil_iff.mp hnil c hc)
      rw [List.head?_append_of_ne_nil _ (by simpa using hne), List.head?_reverse]
      intro hlast
      exact hg ((List.rdropWhile_prefix _ _).subset (List.mem_of_getLast? hlast))
    rw [hdrop, if_neg (by simpa using hhead), if_pos hsolid]
  · have hall : ∀ c ∈ g.reverse, isBlank c = true := by
      intro c hc
      by_contra hblank
      exact hsolid (hasSolid_iff.mpr ⟨c, List.mem_reverse.mp hc, hblank⟩)
    -- All of the stretch is dropped, and the star in front of it then calls that off.
    have hdrop : (g.reverse ++ out).dropWhile isBlank = out := by
      rw [List.dropWhile_append_of_pos hall]
      cases out with
      | nil => rfl
      | cons c out =>
        obtain rfl : c = '*' := Option.some.inj hout
        rfl
    rw [hdrop, if_pos (by simpa using hout), if_neg hsolid]

/-- A run that takes no part in trimming is a wide one. -/
theorem takes_trim {n : Nat} (hn : n ≠ 0) : Stage.trim.takes n = true ↔ ¬ maxWidth < n := by
  simp only [Stage.takes, maxWidth, Bool.and_eq_true, decide_eq_true_eq]
  omega

/-! ### The machine on a line -/

/-- **The trimming machine changes the stretches one by one.** Induction on the runs: `before` is the
run that was just written, and `g` the stretch that comes next. A star is the last character written,
except in front of the first run, where no span is open yet. -/
theorem trimUnmarked_runs (runs : List (Nat × List Char)) :
    ∀ (frames : List Nat) (before : Option Role) (out g : List Char), ProperRuns runs → '*' ∉ g →
      (before = none → frames = []) → (before ≠ none → out.head? = some '*') →
      trimUnmarked (decide (before = some .opens) && dropsBlanks (plain g ++ runPieces runs)) frames out
          (plain g ++ runPieces runs) =
        (trimStretch before (Stage.trim.rolesFrom frames (runs.map Prod.fst)).head? g ++
          joinRuns (changeRuns trimStretch (Stage.trim.rolesFrom frames (runs.map Prod.fst))
            runs)).reverse ++ out := by
  induction runs with
  | nil =>
    intro frames before out g _ _ _ _
    rw [trimUnmarked_stretch before none frames out g (by simp)]
    simp [trimUnmarked, Stage.rolesFrom, changeRuns, trimStretch]
  | cons run runs ih =>
    intro frames before out g hproper hg hfirst hout
    obtain ⟨n, h⟩ := run
    obtain ⟨hn, hh, -, hruns⟩ := hproper
    -- What is left to do behind the run, whatever its role.
    have hnext : ∀ (r : Role) (frames' : List Nat) (t : List Char),
        trimUnmarked (decide (some r = some .opens) && dropsBlanks (plain h ++ runPieces runs)) frames'
            (putStars n (t.reverse ++ out)) (plain h ++ runPieces runs) =
          (t ++ joinRuns (changeRuns trimStretch
            (r :: Stage.trim.rolesFrom frames' (runs.map Prod.fst)) ((n, h) :: runs))).reverse ++
              out := by
      intro r frames' t
      rw [ih frames' (some r) _ h hruns hh (by simp) fun _ => head?_putStars hn _]
      simp [changeRuns, putStars]
    rw [trimUnmarked_stretch before (Stage.trim.rolesFrom frames (n :: runs.map Prod.fst)).head? frames
      out g (by rw [List.head?_eq_none_iff, ← List.length_eq_zero_iff, Stage.length_rolesFrom]; simp)]
    rw [runPieces_cons, trimUnmarked, List.map_cons, Stage.rolesFrom]
    by_cases htakes : Stage.trim.takes n = true
    · rw [if_neg ((takes_trim hn).mp htakes), if_pos htakes]
      by_cases hcloses : frames.head? = some n
      · -- An open span has its marker in front, so a star was written before the stretch.
        have hstar : out.head? = some '*' := by
          apply hout
          intro hnone
          rw [hfirst hnone] at hcloses
          cases hcloses
        have htrim : trimEnd ((trimLead before (some .closes) g).reverse ++ out) =
            (trimStretch before (some .closes) g).reverse ++ out := by
          rw [trimEnd_stretch hstar fun hmem => hg (trimLead_subset _ _ _ hmem),
            hasSolid_trimLead]
          unfold trimStretch
          simp only [true_and]
        rw [if_pos hcloses, if_pos (closes_iff.mpr hcloses), List.head?_cons, htrim]
        exact hnext .closes frames.tail _
      · have hcopy : trimStretch before (some .opens) g = trimLead before (some .opens) g :=
          if_neg (by simp)
        rw [if_neg hcloses, if_neg (closes_iff.not.mpr hcloses), List.head?_cons, hcopy]
        exact hnext .opens (n :: frames) _
    · have hcopy : trimStretch before (some .inert) g = trimLead before (some .inert) g :=
        if_neg (by simp)
      rw [if_pos (by simpa using (takes_trim hn).not.mp htakes), if_neg htakes, List.head?_cons,
        hcopy]
      exact hnext .inert frames _

/-- Trimming, as a change of stretches. -/
theorem chars_trim_eq (settings : Settings) (w : List Char) :
    chars .trim settings w =
      ((ofChars w).change trimStretch ((ofChars w).roles .trim)).join := by
  have hproper := proper_ofChars w
  have hrun := trimUnmarked_runs (ofChars w).runs [] none [] (ofChars w).front hproper.runs
    hproper.front (fun _ => rfl) fun h => absurd rfl h
  rw [← pieces_eq] at hrun
  have hflag : (decide ((none : Option Role) = some .opens) && dropsBlanks (pieces w)) = false := rfl
  rw [hflag] at hrun
  rw [chars_trim, hrun, List.append_nil, List.reverse_reverse]
  rfl

theorem proper_trim (w : List Char) :
    ((ofChars w).change trimStretch ((ofChars w).roles .trim)).Proper :=
  (proper_ofChars w).change star_notMem_trimStretch trimStretch_ne_nil .trim

/-- **Trimming keeps the runs of stars and trims every stretch between them on its own.** Both lines
are cut at their runs, `w` and what trimming makes of it. The runs are the same, and a stretch loses
the blanks at its start exactly if the run in front of it opens a span and the stretch is the last one
or holds more than blanks, and those at its end exactly if the run behind it closes a span and the
stretch holds more than blanks. -/
theorem stretches_trim (settings : Settings) (w : List Char) :
    (ofChars w).join = w ∧ (ofChars w).Proper ∧
      (ofChars (chars .trim settings w)).join = chars .trim settings w ∧
      (ofChars (chars .trim settings w)).widths = (ofChars w).widths ∧
      ∀ i : Nat, (ofChars (chars .trim settings w)).stretches[i]? = (ofChars w).stretches[i]?.map
        (trimStretch ((ofChars w).roleBefore .trim i) ((ofChars w).roleBehind .trim i)) := by
  have hcut : ofChars (chars .trim settings w) =
      (ofChars w).change trimStretch ((ofChars w).roles .trim) := by
    rw [chars_trim_eq, ofChars_join (proper_trim w)]
  refine ⟨join_ofChars w, proper_ofChars w, join_ofChars _, ?_, fun i => ?_⟩
  · rw [hcut, widths_change]
  · rw [hcut, getElem?_stretches_change]

-- Two nested spans with padding, and blanks between two runs, which stay.
example : chars .trim .standard "** a * b * c ** **".toList = "**a *b* c** **".toList := by decide

end Scan

end EmphasisSpacing
