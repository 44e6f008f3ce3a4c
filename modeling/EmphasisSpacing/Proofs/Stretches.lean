import EmphasisSpacing.Proofs.Gaps

/-!
# Runs of stars and the stretches between them

A line is cut at its runs of stars: a *stretch* of text without stars, a run, a stretch, and so on,
with a stretch at both ends (`StarSplit`). Every line can be cut in exactly one way such that runs are
maximal (`join_ofChars`, `proper_ofChars`, `ofChars_join`).

The runs that take part in a stage are paired by one rule (`roles`): a run closes the innermost open
one if both have the same width, and opens a span otherwise. The stages are described later on as
changes of the stretches, each of which depends on the stretch and on the roles of the runs on its
two sides, and on nothing else (`change`).
-/

namespace EmphasisSpacing

/-- A line, cut at its runs of stars. -/
structure StarSplit where
  /-- The stretch in front of the first run. -/
  front : List Char
  /-- The runs in order, each with the stretch behind it. -/
  runs : List (Nat × List Char)
  deriving DecidableEq, Repr

namespace StarSplit

/-- The widths of the runs. -/
def widths (s : StarSplit) : List Nat := s.runs.map Prod.fst

/-- The stretches, from the one in front of the first run to the one behind the last. -/
def stretches (s : StarSplit) : List (List Char) := s.front :: s.runs.map Prod.snd

/-- Runs, with the stretches behind them, as text. -/
def joinRuns (runs : List (Nat × List Char)) : List Char :=
  runs.flatMap fun r => List.replicate r.1 '*' ++ r.2

/-- The line that was cut. -/
def join (s : StarSplit) : List Char := s.front ++ joinRuns s.runs

/-- A character put in front of a line. A star joins a run that starts the line. -/
def push (c : Char) (s : StarSplit) : StarSplit :=
  if c = '*' then
    match s with
    | ⟨[], (n, g) :: runs⟩ => ⟨[], (n + 1, g) :: runs⟩
    | ⟨front, runs⟩ => ⟨[], (1, front) :: runs⟩
  else ⟨c :: s.front, s.runs⟩

/-- Cuts a line at its runs of stars. -/
def ofChars (w : List Char) : StarSplit := w.foldr push ⟨[], []⟩

/-- Whether runs and the stretches behind them stand as in a line: runs hold stars, stretches hold
none, and two runs do not touch. -/
def ProperRuns : List (Nat × List Char) → Prop
  | [] => True
  | (n, g) :: runs => n ≠ 0 ∧ '*' ∉ g ∧ (runs ≠ [] → g ≠ []) ∧ ProperRuns runs

/-- Whether the runs are those of the line, each in its full width. -/
structure Proper (s : StarSplit) : Prop where
  front : '*' ∉ s.front
  runs : ProperRuns s.runs

@[simp]
theorem joinRuns_nil : joinRuns [] = [] := rfl

@[simp]
theorem joinRuns_cons (n : Nat) (g : List Char) (runs : List (Nat × List Char)) :
    joinRuns ((n, g) :: runs) = List.replicate n '*' ++ (g ++ joinRuns runs) := by
  unfold joinRuns
  rw [List.flatMap_cons, List.append_assoc]

/-! ### Cutting and joining -/

theorem push_of_ne {c : Char} (hc : c ≠ '*') (s : StarSplit) :
    push c s = ⟨c :: s.front, s.runs⟩ := if_neg hc

theorem push_star_run (n : Nat) (g : List Char) (runs : List (Nat × List Char)) :
    push '*' ⟨[], (n, g) :: runs⟩ = ⟨[], (n + 1, g) :: runs⟩ := rfl

/-- A star in front of a character, or alone, is a run of its own. -/
theorem push_star {front : List Char} {runs : List (Nat × List Char)} (h : runs ≠ [] → front ≠ []) :
    push '*' ⟨front, runs⟩ = ⟨[], (1, front) :: runs⟩ := by
  cases front with
  | cons c front => rfl
  | nil =>
    cases runs with
    | nil => rfl
    | cons r runs => exact absurd rfl (h (by simp))

/-- What a character in front can do: start a stretch or go on with one, make a run longer, or start
a run. -/
theorem push_cases (c : Char) (s : StarSplit) :
    (c ≠ '*' ∧ push c s = ⟨c :: s.front, s.runs⟩) ∨
    (c = '*' ∧ ∃ n g runs, s = ⟨[], (n, g) :: runs⟩ ∧ push c s = ⟨[], (n + 1, g) :: runs⟩) ∨
    (c = '*' ∧ (s.runs ≠ [] → s.front ≠ []) ∧ push c s = ⟨[], (1, s.front) :: s.runs⟩) := by
  by_cases hc : c = '*'
  · subst hc
    obtain ⟨front, runs⟩ := s
    by_cases hfront : runs ≠ [] → front ≠ []
    · exact .inr (.inr ⟨rfl, hfront, push_star hfront⟩)
    · obtain ⟨hruns, rfl⟩ : runs ≠ [] ∧ front = [] := by simpa using hfront
      obtain ⟨⟨n, g⟩, runs, rfl⟩ := List.exists_cons_of_ne_nil hruns
      exact .inr (.inl ⟨rfl, n, g, runs, rfl, push_star_run n g runs⟩)
  · exact .inl ⟨hc, push_of_ne hc s⟩

/-- **Joining what was cut gives the line back.** -/
theorem join_ofChars (w : List Char) : (ofChars w).join = w := by
  induction w with
  | nil => rfl
  | cons c w ih =>
    have hpush : ofChars (c :: w) = push c (ofChars w) := rfl
    have hjoin : (push c (ofChars w)).join = c :: (ofChars w).join := by
      rcases push_cases c (ofChars w) with
        ⟨-, heq⟩ | ⟨rfl, n, g, runs, hs, heq⟩ | ⟨rfl, -, heq⟩
      · rw [heq]
        rfl
      · rw [heq, hs]
        simp [join, List.replicate_succ]
      · rw [heq]
        simp [join]
    rw [hpush, hjoin, ih]

/-- **Cutting finds whole runs.** -/
theorem proper_ofChars (w : List Char) : (ofChars w).Proper := by
  induction w with
  | nil => exact ⟨by simp [ofChars], trivial⟩
  | cons c w ih =>
    show (push c (ofChars w)).Proper
    rcases push_cases c (ofChars w) with
      ⟨hc, heq⟩ | ⟨-, n, g, runs, hs, heq⟩ | ⟨-, hfront, heq⟩
    · rw [heq]
      refine ⟨?_, ih.runs⟩
      rw [List.mem_cons, not_or]
      exact ⟨Ne.symm hc, ih.front⟩
    · rw [heq]
      rw [hs] at ih
      obtain ⟨-, hg, hapart, hruns⟩ := ih.runs
      exact ⟨by simp, Nat.succ_ne_zero n, hg, hapart, hruns⟩
    · rw [heq]
      exact ⟨by simp, Nat.one_ne_zero, ih.front, hfront, ih.runs⟩

/-- Text without stars goes in front of the first stretch. -/
theorem foldr_push_starless {w : List Char} (hw : '*' ∉ w) (s : StarSplit) :
    w.foldr push s = ⟨w ++ s.front, s.runs⟩ := by
  induction w with
  | nil => rfl
  | cons c w ih =>
    rw [List.mem_cons, not_or] at hw
    rw [List.foldr_cons, ih hw.2, push_of_ne (Ne.symm hw.1)]
    rfl

/-- Stars in front of a line that starts with none are one run. -/
theorem foldr_push_stars (n : Nat) {front : List Char} {runs : List (Nat × List Char)}
    (h : runs ≠ [] → front ≠ []) :
    (List.replicate (n + 1) '*').foldr push ⟨front, runs⟩ = ⟨[], (n + 1, front) :: runs⟩ := by
  induction n with
  | zero => exact push_star h
  | succ n ih => rw [List.replicate_succ, List.foldr_cons, ih, push_star_run]

theorem foldr_push_runs {runs : List (Nat × List Char)} (h : ProperRuns runs) :
    (joinRuns runs).foldr push ⟨[], []⟩ = ⟨[], runs⟩ := by
  induction runs with
  | nil => rfl
  | cons r runs ih =>
    obtain ⟨n, g⟩ := r
    obtain ⟨hn, hg, hapart, hruns⟩ := h
    obtain ⟨n, rfl⟩ := Nat.exists_eq_succ_of_ne_zero hn
    rw [joinRuns_cons, List.foldr_append, List.foldr_append, ih hruns, foldr_push_starless hg,
      List.append_nil]
    exact foldr_push_stars n hapart

/-- **A line is cut in one way only.** -/
theorem ofChars_join {s : StarSplit} (h : s.Proper) : ofChars s.join = s := by
  unfold ofChars join
  rw [List.foldr_append, foldr_push_runs h.runs, foldr_push_starless h.front, List.append_nil]

/-! ### The pieces of a line -/

/-- Runs, with the stretches behind them, as pieces. -/
def runPieces (runs : List (Nat × List Char)) : List Piece :=
  runs.flatMap fun r => .stars r.1 :: Scan.plain r.2

@[simp]
theorem runPieces_nil : runPieces [] = [] := rfl

@[simp]
theorem runPieces_cons (n : Nat) (g : List Char) (runs : List (Nat × List Char)) :
    runPieces ((n, g) :: runs) = .stars n :: (Scan.plain g ++ runPieces runs) := rfl

/-- **The pieces that a stage reads are the stretches and the runs.** -/
theorem pieces_eq (w : List Char) :
    Scan.pieces w = Scan.plain (ofChars w).front ++ runPieces (ofChars w).runs := by
  induction w with
  | nil => rfl
  | cons c w ih =>
    have hpush : ofChars (c :: w) = push c (ofChars w) := rfl
    rw [hpush, Scan.pieces, ih]
    rcases push_cases c (ofChars w) with
      ⟨hc, heq⟩ | ⟨rfl, n, g, runs, hs, heq⟩ | ⟨rfl, hfront, heq⟩
    · rw [heq]
      unfold Scan.pushPiece
      rw [if_neg (by simpa using hc)]
      rfl
    · rw [heq, hs]
      rfl
    · -- The line starts with a character, or is empty.
      rw [heq]
      apply Scan.pushPiece_star
      cases hw : (ofChars w).front with
      | cons c' front => rfl
      | nil =>
        have hruns : (ofChars w).runs = [] := by
          by_contra hne
          exact hfront hne hw
        rw [hruns]
        rfl

end StarSplit

/-! ### Pairing the runs -/

/-- What a run is to a stage. -/
inductive Role where
  /-- It opens a span. -/
  | opens
  /-- It closes the span that was opened last. -/
  | closes
  /-- It takes no part. -/
  | inert
  deriving DecidableEq, Repr

/-- The widths of the runs that take part in a stage. -/
def Stage.takes : Stage → Nat → Bool
  | .trim, n => 1 ≤ n && n ≤ 3
  | .bold, n => n == 2 || n == 3
  | .italic, n => n == 1

/-- The roles of runs with the given widths, where the widths in `frames` are open, the innermost
first. -/
def Stage.rolesFrom (stage : Stage) : (frames : List Nat) → (widths : List Nat) → List Role
  | _, [] => []
  | frames, n :: ns =>
    if stage.takes n then
      if frames.head? = some n then .closes :: stage.rolesFrom frames.tail ns
      else .opens :: stage.rolesFrom (n :: frames) ns
    else .inert :: stage.rolesFrom frames ns

theorem Scan.closes_iff {n : Nat} {frames : List Nat} :
    Scan.closes n frames = true ↔ frames.head? = some n := beq_iff_eq

theorem Stage.length_rolesFrom (stage : Stage) (frames widths : List Nat) :
    (stage.rolesFrom frames widths).length = widths.length := by
  induction widths generalizing frames with
  | nil => rfl
  | cons n ns ih =>
    rw [rolesFrom]
    split_ifs
    · rw [List.length_cons, List.length_cons, ih]
    · rw [List.length_cons, List.length_cons, ih]
    · rw [List.length_cons, List.length_cons, ih]

namespace StarSplit

/-- The roles of the runs of a line. -/
def roles (stage : Stage) (s : StarSplit) : List Role := stage.rolesFrom [] s.widths

theorem length_roles (stage : Stage) (s : StarSplit) : (s.roles stage).length = s.runs.length := by
  rw [roles, Stage.length_rolesFrom, widths, List.length_map]

/-- The role of the run just in front of stretch `i`. -/
def roleBefore (stage : Stage) (s : StarSplit) : (i : Nat) → Option Role
  | 0 => none
  | i + 1 => (s.roles stage)[i]?

/-- The role of the run just behind stretch `i`. -/
def roleBehind (stage : Stage) (s : StarSplit) (i : Nat) : Option Role := (s.roles stage)[i]?

/-! ### Changing the stretches -/

/-- The stretches behind runs with the given roles, changed by `f`, which sees the roles of the run
in front of a stretch and of the run behind it. -/
def changeRuns (f : Option Role → Option Role → List Char → List Char) :
    List Role → List (Nat × List Char) → List (Nat × List Char)
  | r :: rs, (n, g) :: runs => (n, f (some r) rs.head? g) :: changeRuns f rs runs
  | _, _ => []

/-- A line whose stretches are changed one by one. -/
def change (f : Option Role → Option Role → List Char → List Char) (rs : List Role)
    (s : StarSplit) : StarSplit :=
  ⟨f none rs.head? s.front, changeRuns f rs s.runs⟩

section

variable {f : Option Role → Option Role → List Char → List Char}

theorem map_fst_changeRuns {rs : List Role} {runs : List (Nat × List Char)}
    (h : rs.length = runs.length) : (changeRuns f rs runs).map Prod.fst = runs.map Prod.fst := by
  induction rs generalizing runs with
  | nil =>
    rw [List.length_eq_zero_iff.mp h.symm]
    rfl
  | cons r rs ih =>
    cases runs with
    | nil => simp at h
    | cons run runs =>
      obtain ⟨n, g⟩ := run
      rw [changeRuns, List.map_cons, List.map_cons, ih (by simpa using h)]

/-- The runs stay. -/
theorem widths_change (f : Option Role → Option Role → List Char → List Char) (stage : Stage)
    (s : StarSplit) : (s.change f (s.roles stage)).widths = s.widths :=
  map_fst_changeRuns (length_roles stage s)

theorem getElem?_changeRuns {rs : List Role} {runs : List (Nat × List Char)}
    (h : rs.length = runs.length) (i : Nat) :
    ((changeRuns f rs runs).map Prod.snd)[i]? =
      (runs.map Prod.snd)[i]?.map (f rs[i]? rs[i + 1]?) := by
  induction rs generalizing runs i with
  | nil =>
    rw [List.length_eq_zero_iff.mp h.symm]
    rfl
  | cons r rs ih =>
    cases runs with
    | nil => simp at h
    | cons run runs =>
      obtain ⟨n, g⟩ := run
      cases i with
      | zero =>
        rw [changeRuns, List.map_cons, List.map_cons, List.head?_eq_getElem?]
        rfl
      | succ i => exact ih (by simpa using h) i

/-- **Each stretch is changed on its own**, by the roles of the runs on its two sides. -/
theorem getElem?_stretches_change (f : Option Role → Option Role → List Char → List Char)
    (stage : Stage) (s : StarSplit) (i : Nat) :
    (s.change f (s.roles stage)).stretches[i]? =
      s.stretches[i]?.map (f (s.roleBefore stage i) (s.roleBehind stage i)) := by
  have hlength := length_roles stage s
  cases i with
  | zero =>
    show some (f none (s.roles stage).head? s.front) = some (f none (s.roles stage)[0]? s.front)
    rw [List.head?_eq_getElem?]
  | succ i => exact getElem?_changeRuns hlength i

theorem properRuns_changeRuns (hstar : ∀ before behind g, '*' ∉ g → '*' ∉ f before behind g)
    (hne : ∀ r r' g, g ≠ [] → f (some r) (some r') g ≠ []) {rs : List Role}
    {runs : List (Nat × List Char)} (hlength : rs.length = runs.length) (h : ProperRuns runs) :
    ProperRuns (changeRuns f rs runs) := by
  induction rs generalizing runs with
  | nil => exact trivial
  | cons r rs ih =>
    cases runs with
    | nil => simp at hlength
    | cons run runs =>
      obtain ⟨n, g⟩ := run
      obtain ⟨hn, hg, hapart, hruns⟩ := h
      refine ⟨hn, hstar _ _ g hg, fun hmore => ?_, ih (by simpa using hlength) hruns⟩
      -- A stretch with a run behind it lies between two runs.
      cases rs with
      | nil => exact absurd rfl hmore
      | cons r' rs =>
        apply hne
        apply hapart
        rintro rfl
        simp at hlength

/-- Runs stay apart when no stretch between two of them is emptied. -/
theorem Proper.change (hstar : ∀ before behind g, '*' ∉ g → '*' ∉ f before behind g)
    (hne : ∀ r r' g, g ≠ [] → f (some r) (some r') g ≠ []) (stage : Stage) {s : StarSplit}
    (h : s.Proper) : (s.change f (s.roles stage)).Proper :=
  ⟨hstar _ _ _ h.front, properRuns_changeRuns hstar hne (length_roles stage s) h.runs⟩

end

end StarSplit

end EmphasisSpacing
