import EmphasisSpacing.Proofs.HintPlaces

/-!
# Hints speak of the spans that trimming finds

The markers of a line are paired twice: by the stack of a stage, which knows the widths of the open
markers and nothing else, and once more for hints, where a marker also has neighbours and a place. Both
find the same spans (`Hint.ofLine_trimPairs`).

`Scan.trimPairsFrom` is the trimming machine with runs of stars on its stack, next to its own records of them,
and with a record of the pairs that it makes. It writes what the trimming machine writes
(`Scan.fst_trimPairsFrom`), so its record is that of the stack of trimming. The runs are told by the
characters in front of them, and everything that a hint asks of a marker can be looked up in the line
from there (`Hint.marksFrom_eq`).
-/

namespace EmphasisSpacing

/-! ### The stack of trimming, with a record -/

namespace Scan

/-- A run of stars of a line: the number of characters in front of it, and how many stars it has. -/
structure StarRun where
  start : Nat
  width : Nat
  deriving DecidableEq, Repr

/-- The number of characters up to the end of a run. -/
def StarRun.stop (r : StarRun) : Nat := r.start + r.width

/-- The runs of stars among pieces that start behind `i` characters. -/
def runsFrom : (i : Nat) → List Piece → List StarRun
  | _, [] => []
  | i, .char _ :: ps => runsFrom (i + 1) ps
  | i, .stars n :: ps => ⟨i, n⟩ :: runsFrom (i + n) ps

/-- An open run of stars, as the trimming machine keeps it. -/
structure OpenRun where
  start : Nat
  marker : OpenMarker
  deriving DecidableEq, Repr

/-- The run that is open. -/
def OpenRun.run (r : OpenRun) : StarRun := ⟨r.start, r.marker.width⟩

/-- The trimming machine on pieces that start behind `i` characters, with the pairs of runs that it
makes, by closing run. -/
def trimPairsFrom : (i : Nat) → (dropping : Bool) → (frames : List OpenRun) → (out : List Char) →
    List Piece → List Char × List (StarRun × StarRun)
  | _, _, _, out, [] => (out, [])
  | i, dropping, frames, out, .char c :: ps =>
    if dropping && isBlank c then trimPairsFrom (i + 1) true frames out ps
    else trimPairsFrom (i + 1) false frames (c :: out) ps
  | i, _, frames, out, .stars n :: ps =>
    if maxWidth < n then trimPairsFrom (i + n) false frames (putStars n out) ps
    else
      match closed? n (frames.map OpenRun.marker) with
      | some (f, _) =>
        let (out, pairs) := trimPairsFrom (i + n) false frames.tail (putStars n (trimTo f.mark out)) ps
        (out, frames.head?.toList.map (fun opener => (opener.run, ⟨i, n⟩)) ++ pairs)
      | none =>
        let written := putStars n out
        trimPairsFrom (i + n) (dropsBlanks ps) (⟨i, n, written.length⟩ :: frames) written ps

/-- The spans that trimming finds in a line, by closing run. -/
def trimPairs (line : List Char) : List (StarRun × StarRun) :=
  (trimPairsFrom 0 false [] [] (pieces line)).2

theorem closed?_eq_some_iff {n : Nat} {frames rest : List OpenMarker} {f : OpenMarker} :
    closed? n frames = some (f, rest) ↔ frames = f :: rest ∧ f.width = n := by
  cases frames with
  | nil => simp [closed?]
  | cons g frames =>
    rw [closed?]
    split_ifs with h
    · rw [beq_iff_eq] at h
      simp only [Option.some.injEq, Prod.mk.injEq, List.cons.injEq]
      constructor
      · rintro ⟨rfl, rfl⟩
        exact ⟨⟨rfl, rfl⟩, h⟩
      · exact And.left
    · rw [beq_iff_eq] at h
      simp only [List.cons.injEq, false_iff, not_and]
      rintro ⟨rfl, rfl⟩
      exact h

/-- **The record changes nothing**: without it, and with open markers in the place of runs, the machine is the
trimming machine. -/
theorem fst_trimPairsFrom (i : Nat) (dropping : Bool) (frames : List OpenRun) (out : List Char)
    (ps : List Piece) :
    (trimPairsFrom i dropping frames out ps).1 =
      trimFrom dropping (frames.map OpenRun.marker) out ps := by
  induction ps generalizing i dropping frames out with
  | nil => rfl
  | cons p ps ih =>
    cases p with
    | char c =>
      rw [trimPairsFrom, trimFrom]
      split_ifs
      · exact ih ..
      · exact ih ..
    | stars n =>
      rw [trimPairsFrom, trimFrom]
      split_ifs
      · exact ih ..
      · cases hclosed : closed? n (frames.map OpenRun.marker) with
        | none => exact ih ..
        | some closed =>
          have hrest : closed.2 = frames.tail.map OpenRun.marker := by
            rw [List.map_tail, (closed?_eq_some_iff.mp hclosed).1]
            rfl
          simp only [hrest]
          exact ih ..

/-- **The record is the pairing of the runs that are markers.** -/
theorem snd_trimPairsFrom (i : Nat) (dropping : Bool) (frames : List OpenRun) (out : List Char)
    (ps : List Piece) :
    (trimPairsFrom i dropping frames out ps).2 =
      Hint.pairBy StarRun.width (frames.map OpenRun.run)
        ((runsFrom i ps).filter fun r => decide (r.width ≤ maxWidth)) := by
  induction ps generalizing i dropping frames out with
  | nil => cases frames <;> rfl
  | cons p ps ih =>
    cases p with
    | char c =>
      -- Characters are dropped or written, and the stack stays as it is.
      rw [trimPairsFrom, runsFrom]
      split_ifs
      · exact ih ..
      · exact ih ..
    | stars n =>
      rw [trimPairsFrom, runsFrom]
      split_ifs with hwide
      · -- A run that is too wide for a marker.
        rw [List.filter_cons_of_neg (by simpa using hwide)]
        exact ih ..
      · rw [List.filter_cons_of_pos (by simpa using hwide)]
        cases frames with
        | nil => exact ih ..
        | cons f frames =>
          by_cases hwidth : f.marker.width = n
          · have hclosed : closed? n ((f :: frames).map OpenRun.marker) =
                some (f.marker, frames.map OpenRun.marker) :=
              closed?_eq_some_iff.mpr ⟨rfl, hwidth⟩
            have hrun : (f.run.width == n) = true := beq_iff_eq.mpr hwidth
            simp only [hclosed]
            rw [List.map_cons, Hint.pairBy, if_pos hrun, ← ih]
            rfl
          · have hnone : closed? n ((f :: frames).map OpenRun.marker) = none := by
              simp [closed?, hwidth]
            have hrun : ¬ (f.run.width == n) = true := fun h => hwidth (beq_iff_eq.mp h)
            simp only [hnone]
            rw [List.map_cons, Hint.pairBy, if_neg hrun]
            exact ih ..

theorem trimPairs_eq (line : List Char) :
    trimPairs line = Hint.pairBy StarRun.width []
      ((runsFrom 0 (pieces line)).filter fun r => decide (r.width ≤ maxWidth)) :=
  snd_trimPairsFrom ..

/-! ### Runs follow one another -/

theorem le_start_of_mem_runsFrom {i : Nat} {ps : List Piece} {r : StarRun} (h : r ∈ runsFrom i ps) :
    i ≤ r.start := by
  induction ps generalizing i with
  | nil => cases h
  | cons p ps ih =>
    cases p with
    | char c =>
      have hle := ih (i := i + 1) h
      omega
    | stars n =>
      rcases List.mem_cons.mp h with rfl | h
      · exact Nat.le_refl i
      · have hle := ih h
        omega

theorem pairwise_runsFrom (i : Nat) (ps : List Piece) :
    (runsFrom i ps).Pairwise fun a b => a.stop ≤ b.start := by
  induction ps generalizing i with
  | nil => exact .nil
  | cons p ps ih =>
    cases p with
    | char c => exact ih (i + 1)
    | stars n => exact .cons (fun r hr => le_start_of_mem_runsFrom hr) (ih (i + n))

/-- The markers of a line follow one another. -/
theorem pairwise_markers (line : List Char) :
    ((runsFrom 0 (pieces line)).filter fun r => decide (r.width ≤ maxWidth)).Pairwise
      fun a b => a.stop ≤ b.start :=
  (pairwise_runsFrom 0 _).filter _

/-- Both runs of a span have the same width, and one stands in front of the other. -/
theorem of_mem_trimPairs {line : List Char} {pair : StarRun × StarRun} (h : pair ∈ trimPairs line) :
    pair.1.width = pair.2.width ∧ pair.1.stop ≤ pair.2.start := by
  rw [trimPairs_eq] at h
  obtain ⟨hwidth, hsub⟩ := Hint.sublist_of_mem_pairBy (f := pair.1) (m := pair.2) h
  have hpair : [pair.1, pair.2].Pairwise fun a b => a.stop ≤ b.start :=
    (pairwise_markers line).sublist hsub
  exact ⟨hwidth, (List.pairwise_cons.mp hpair).1 pair.2 (by simp)⟩

/-- **Spans are nested or apart**, and come in the order of their closing runs. -/
theorem pairwise_trimPairs (line : List Char) :
    (trimPairs line).Pairwise fun p q => p.2.stop ≤ q.2.start ∧
      (p.2.stop ≤ q.1.start ∨ q.1.stop ≤ p.1.start) := by
  have hmarkers : (([] : List StarRun).reverse ++ (runsFrom 0 (pieces line)).filter
      fun r => decide (r.width ≤ maxWidth)).Pairwise fun a b => a.stop ≤ b.start :=
    pairwise_markers line
  rw [trimPairs_eq]
  exact Hint.pairwise_pairBy hmarkers

/-- Italics in bold text, and a marker that nothing closes. -/
example : trimPairs "a **b *c* d** *e".toList = [(⟨6, 1⟩, ⟨8, 1⟩), (⟨2, 2⟩, ⟨11, 2⟩)] := by
  decide

/-! ### Runs of one more character -/

theorem runsFrom_pieces_cons {c : Char} (hc : c ≠ '*') (i : Nat) (cs : List Char) :
    runsFrom i (pieces (c :: cs)) = runsFrom (i + 1) (pieces cs) := by
  rw [pieces_cons_char hc, runsFrom]

/-- A star in front of something else is a run of its own. -/
theorem runsFrom_pieces_star {d : Char} (hd : d ≠ '*') (i : Nat) (cs : List Char) :
    runsFrom i (pieces ('*' :: d :: cs)) = ⟨i, 1⟩ :: runsFrom (i + 1) (pieces (d :: cs)) := by
  rw [pieces, pieces_cons_char hd]
  rfl

/-- A star in front of a run makes it longer. -/
theorem exists_runsFrom_pieces (i : Nat) (cs : List Char) :
    ∃ n later, runsFrom (i + 1) (pieces ('*' :: cs)) = ⟨i + 1, n⟩ :: later ∧
      runsFrom i (pieces ('*' :: '*' :: cs)) = ⟨i, n + 1⟩ :: later := by
  obtain ⟨n, ps, hps⟩ : ∃ n ps, pieces ('*' :: cs) = .stars n :: ps := by
    rw [pieces]
    cases pieces cs with
    | nil => exact ⟨1, [], rfl⟩
    | cons p ps =>
      cases p with
      | char c => exact ⟨1, .char c :: ps, rfl⟩
      | stars n => exact ⟨n + 1, ps, rfl⟩
  refine ⟨n, runsFrom (i + 1 + n) ps, by rw [hps, runsFrom], ?_⟩
  rw [pieces, hps, pushPiece_star_stars, runsFrom]
  have hstop : i + (n + 1) = i + 1 + n := by omega
  rw [hstop]

end Scan

/-! ### Marks, looked up in the line -/

namespace Hint

open Scan

theorem map_fst_placesFrom (regions : List Bytes) (reading : Option Nat) (p : Place)
    (cs : List Char) : (placesFrom regions reading p cs).1.map Prod.fst = cs := by
  induction cs generalizing reading p with
  | nil => cases reading <;> rfl
  | cons c cs ih =>
    cases reading with
    | none =>
      rw [placesFrom]
      split_ifs
      · exact congrArg (c :: ·) (ih ..)
      · exact congrArg (c :: ·) (ih ..)
    | some n =>
      rw [placesFrom]
      split_ifs
      · exact congrArg (c :: ·) (ih ..)
      · exact congrArg (c :: ·) (ih ..)

/-- What a hint asks of a run of stars, in a line of placed characters that ends at `stop`. -/
def markOf (placed : List (Char × Place)) (stop : Place) (r : StarRun) : Mark where
  width := r.width
  before := (placed.take r.start).getLast?.map Prod.fst
  after := (placed.drop r.stop).head?.map Prod.fst
  start := ((placed.drop r.start).head?.map Prod.snd).getD stop
  stop := ((placed.drop r.stop).head?.map Prod.snd).getD stop

section

variable {stop : Place} (before : Option Char) (p q : Place) (rest : List (Char × Place))

theorem marksFrom_star {d : Char} (hd : d ≠ '*') :
    marksFrom stop before (('*', p) :: (d, q) :: rest) =
      ⟨1, before, some d, p, q⟩ :: marksFrom stop (some '*') ((d, q) :: rest) := by
  rw [marksFrom.eq_def]
  simp [hd]

theorem marksFrom_star_star {m : Mark} {ms : List Mark}
    (h : marksFrom stop (some '*') (('*', q) :: rest) = m :: ms) :
    marksFrom stop before (('*', p) :: ('*', q) :: rest) =
      { m with width := m.width + 1, before := before, start := p } :: ms := by
  rw [marksFrom.eq_def]
  dsimp only
  rw [h]
  rfl

end

/-- **The marks of a line are its runs of stars.** Induction on the characters that are still to be
read; `pre` are those in front of them. -/
theorem marksFrom_eq (stop : Place) (pre placed : List (Char × Place)) :
    marksFrom stop (pre.getLast?.map Prod.fst) placed =
      (runsFrom pre.length (pieces (placed.map Prod.fst))).map (markOf (pre ++ placed) stop) := by
  induction placed generalizing pre with
  | nil => rfl
  | cons x rest ih =>
    obtain ⟨c, p⟩ := x
    have hlater : marksFrom stop (some c) rest =
        (runsFrom (pre.length + 1) (pieces (rest.map Prod.fst))).map
          (markOf (pre ++ (c, p) :: rest) stop) := by
      have hmore := ih (pre ++ [(c, p)])
      rwa [List.getLast?_concat, List.length_append, List.length_singleton, List.append_assoc,
        List.singleton_append] at hmore
    by_cases hc : c = '*'
    · subst hc
      cases rest with
      | nil => simp [marksFrom, pieces, pushPiece, runsFrom, markOf, StarRun.stop]
      | cons y rest =>
        obtain ⟨d, q⟩ := y
        rw [List.map_cons] at hlater
        rw [List.map_cons, List.map_cons]
        by_cases hd : d = '*'
        · subst hd
          obtain ⟨n, later, hshort, hlong⟩ := exists_runsFrom_pieces pre.length (rest.map Prod.fst)
          rw [hshort, List.map_cons] at hlater
          rw [marksFrom_star_star _ _ _ _ hlater, hlong, List.map_cons]
          -- The longer run ends where the shorter one does.
          have hstop : pre.length + (n + 1) = pre.length + 1 + n := by omega
          simp [markOf, StarRun.stop, hstop]
        · rw [marksFrom_star _ _ _ _ hd, hlater, runsFrom_pieces_star hd, List.map_cons]
          simp [markOf, StarRun.stop]
    · rw [marksFrom_cons_of_ne hc, hlater, List.map_cons, runsFrom_pieces_cons hc]

/-- The mark at a run of stars of a protected line. -/
def markIn (p : Protected) : StarRun → Mark :=
  let (placed, stop) := placesFrom p.regions none ⟨0, 0⟩ (Utf8.decode p.text)
  markOf placed stop

theorem marks_eq (p : Protected) :
    marks p = ((runsFrom 0 (pieces (Utf8.decode p.text))).filter
      fun r => decide (r.width ≤ maxWidth)).map (markIn p) := by
  have hmarks := marksFrom_eq (placesFrom p.regions none ⟨0, 0⟩ (Utf8.decode p.text)).2 []
    (placesFrom p.regions none ⟨0, 0⟩ (Utf8.decode p.text)).1
  rw [map_fst_placesFrom] at hmarks
  show (marksFrom _ _ _).filter _ = _
  rw [show (none : Option Char) = ([] : List (Char × Place)).getLast?.map Prod.fst from rfl, hmarks,
    List.filter_map]
  rfl

/-- **Hints are asked for the pairs of the stack of trimming.** -/
theorem pairsFrom_marks (p : Protected) :
    pairsFrom [] (marks p) = (trimPairs (Utf8.decode p.text)).map (Prod.map (markIn p) (markIn p)) := by
  rw [pairsFrom_eq, marks_eq, trimPairs_eq]
  exact pairBy_map (markIn p) Mark.width [] _

/-- The neighbours of a mark are the characters next to its run. -/
theorem before_markIn (p : Protected) (r : StarRun) :
    (markIn p r).before = ((Utf8.decode p.text).take r.start).getLast? := by
  conv_rhs => rw [← map_fst_placesFrom p.regions none ⟨0, 0⟩ (Utf8.decode p.text)]
  rw [← List.map_take, List.getLast?_map]
  rfl

theorem after_markIn (p : Protected) (r : StarRun) :
    (markIn p r).after = ((Utf8.decode p.text).drop r.stop).head? := by
  conv_rhs => rw [← map_fst_placesFrom p.regions none ⟨0, 0⟩ (Utf8.decode p.text)]
  rw [← List.map_drop, List.head?_map]
  rfl

/-! ### When a hint is given -/

/-- What stands outside of a marker asks for a hint: it is a character other than a blank and the mark of
a token, and it is problematic or faces punctuation just inside of the marker. -/
def Exposed (outside inside : Option Char) : Prop :=
  ∃ c, outside = some c ∧ CodePoint.isBlank (codeOf c) = false ∧ c.toNat ≠ 0 ∧
    (CodePoint.isProblematic (codeOf c) = true ∨
      ∃ d, inside = some d ∧ CodePoint.isBoundaryPunct (codeOf d) = true)

theorem isNeeded_iff (outside inside : Option Char) :
    isNeeded outside inside = true ↔ Exposed outside inside := by
  unfold isNeeded Exposed
  cases outside with
  | none => simp
  | some c =>
    by_cases hskip : (CodePoint.isBlank (codeOf c) || c.toNat == 0) = true
    · rw [Bool.or_eq_true, beq_iff_eq] at hskip
      simp only [Option.some.injEq, exists_eq_left']
      rcases hskip with hskip | hskip <;> simp [hskip]
    · have hsolid : CodePoint.isBlank (codeOf c) = false ∧ c.toNat ≠ 0 := by
        simpa using hskip
      have hinside : (inside.any fun d => CodePoint.isBoundaryPunct (codeOf d)) = true ↔
          ∃ d, inside = some d ∧ CodePoint.isBoundaryPunct (codeOf d) = true := by
        cases inside <;> simp
      simp [hsolid, hinside]

instance (outside inside : Option Char) : Decidable (Exposed outside inside) :=
  decidable_of_iff _ (isNeeded_iff outside inside)

theorem if_isNeeded {α : Type*} (outside inside : Option Char) (s t : List α) :
    (if isNeeded outside inside = true then s else t) = if Exposed outside inside then s else t :=
  if_congr (isNeeded_iff outside inside) rfl rfl

/-- **Hints speak of the spans that trimming finds.** In the protected text of a line, the pairs that are
asked for hints are those of the stack of trimming. Any two of the spans are nested or apart, and the
hints come span by span, in the order of the closing markers: one before the opening marker if the
character there is exposed, and one after the closing marker if the character there is. -/
theorem ofLine_trimPairs (settings : Settings) (number base : Nat) (line : Bytes) :
    let p := Protected.ofLine settings line
    let text := Utf8.decode p.text
    (∀ i dropping frames out ps, (trimPairsFrom i dropping frames out ps).1 =
        trimFrom dropping (frames.map OpenRun.marker) out ps) ∧
      pairsFrom [] (marks p) = (trimPairs text).map (Prod.map (markIn p) (markIn p)) ∧
      (∀ span ∈ trimPairs text, span.1.width = span.2.width ∧ span.1.stop ≤ span.2.start) ∧
      ((trimPairs text).Pairwise fun s t => s.2.stop ≤ t.2.start ∧
        (s.2.stop ≤ t.1.start ∨ t.1.stop ≤ s.1.start)) ∧
      ofLine settings number base line = (trimPairs text).flatMap fun span =>
        let opener := markIn p span.1
        let closer := markIn p span.2
        (if Exposed (text.take span.1.start).getLast? (text.drop span.1.stop).head? then
          [atMark number base (opener, closer) opener .before] else []) ++
        (if Exposed (text.drop span.2.stop).head? (text.take span.2.start).getLast? then
          [atMark number base (opener, closer) closer .after] else []) := by
  intro p text
  refine ⟨fst_trimPairsFrom, pairsFrom_marks p, fun span hspan => of_mem_trimPairs hspan,
    pairwise_trimPairs text, ?_⟩
  rw [ofLine, pairsFrom_marks, List.flatMap_map]
  refine List.flatMap_congr fun span _ => ?_
  show ofPair number base (markIn p span.1, markIn p span.2) = _
  rw [ofPair_eq, if_isNeeded, if_isNeeded, before_markIn, after_markIn, before_markIn, after_markIn]

end Hint

end EmphasisSpacing
