import EmphasisSpacing.Proofs.Apart
import EmphasisSpacing.Proofs.OnePass

/-!
# What formatting can change

Formatting puts blanks next to runs of stars, or takes them away there, and does nothing else. A
line is looked at with its code and its math replaced by tokens (`Protected.withSpans`): what is
rewritten is the text between the tokens, and there one text comes from the other by steps that put
one blank next to a run of stars, or take it away (`Respaced`). The regions stay as they are
(`MovesBlanks`).

From the steps follows what stays: all runes other than blanks, the lengths of the runs of stars
(`starRuns`), and everything but the blanks that touch a run (`untouched`). Each of these is a
function of the line that no step changes.
-/

namespace EmphasisSpacing

open LineSymbol Atom

/-! ### Runs of stars -/

section

variable {α : Type} [LineSymbol α]

/-- The lengths of the runs of stars in a line, where `run` stars were read just before. -/
def starRunsFrom : (run : Nat) → List α → List Nat
  | run, [] => if run = 0 then [] else [run]
  | run, a :: l =>
    if isStar a then starRunsFrom (run + 1) l
    else (if run = 0 then [] else [run]) ++ starRunsFrom 0 l

/-- The lengths of the runs of stars in a line, from left to right. -/
def starRuns (l : List α) : List Nat := starRunsFrom 0 l

/-- A run ends where something else than a star follows. -/
theorem starRunsFrom_eq {l : List α} (hl : starsAhead l = false) (run : Nat) :
    starRunsFrom run l = (if run = 0 then [] else [run]) ++ starRunsFrom 0 l := by
  cases l with
  | nil => simp [starRunsFrom]
  | cons a l =>
    have ha : ¬ isStar a = true := by simpa using hl
    rw [starRunsFrom, if_neg ha, starRunsFrom, if_neg ha, if_pos rfl, List.nil_append]

theorem starRunsFrom_blank {b : α} (hb : isBlank b = true) (run : Nat) (l : List α) :
    starRunsFrom run (b :: l) = (if run = 0 then [] else [run]) ++ starRunsFrom 0 l := by
  rw [starRunsFrom, if_neg (by simp [isStar_of_isBlank hb])]

/-- **Blanks next to runs neither split nor join them.** -/
theorem starRuns_respaced {l l' : List α} (h : Respaced l l') : starRuns l = starRuns l' := by
  refine h.value starRuns fun l l' hshift => ?_
  cases hshift with
  | behind u v s b hs hb hv =>
    -- Behind the star the run is over, with the blank and without.
    have hrun : ∀ run, starRunsFrom run (u ++ s :: v) = starRunsFrom run (u ++ s :: b :: v) := by
      induction u with
      | nil =>
        intro run
        rw [List.nil_append, List.nil_append, starRunsFrom, starRunsFrom, if_pos hs, if_pos hs,
          starRunsFrom_blank hb, ← starRunsFrom_eq hv]
      | cons a u ih =>
        intro run
        rw [List.cons_append, List.cons_append, starRunsFrom, starRunsFrom, ih, ih]
    exact hrun 0
  | before u v s b hs hb hu =>
    -- In front of the star no run is open.
    have hrun : ∀ run, (u = [] → run = 0) →
        starRunsFrom run (u ++ s :: v) = starRunsFrom run (u ++ b :: s :: v) := by
      induction u with
      | nil =>
        intro run hzero
        rw [hzero rfl, List.nil_append, List.nil_append, starRunsFrom_blank hb, if_pos rfl,
          List.nil_append]
      | cons a u ih =>
        intro run _
        have hu' : starsBehind u = false := by
          rw [show a :: u = [a] ++ u from rfl, starsBehind_append] at hu
          split_ifs at hu with hnil
          · rw [hnil]
            rfl
          · exact hu
        rw [List.cons_append, List.cons_append, starRunsFrom, starRunsFrom]
        split_ifs with ha
        · refine ih hu' (run + 1) fun hnil => ?_
          rw [hnil] at hu
          have ha' : isStar a = false := hu
          rw [ha'] at ha
          cases ha
        · rw [ih hu' 0 fun _ => rfl]
        · rw [ih hu' 0 fun _ => rfl]
    exact hrun 0 fun _ => rfl

/-! ### Blanks that touch no run -/

/-- A line without the blanks that touch a run of stars; `afterStar` tells that a star, and then at
most blanks, stand in front. -/
def untouchedFrom : (afterStar : Bool) → List α → List α
  | _, [] => []
  | afterStar, a :: l =>
    if isBlank a then
      if afterStar || starsAhead (l.dropWhile isBlank) then untouchedFrom afterStar l
      else a :: untouchedFrom afterStar l
    else a :: untouchedFrom (isStar a) l

/-- A line without the blanks that touch a run of stars: what is left of its blanks are the runs of
blanks that touch none. -/
def untouched (l : List α) : List α := untouchedFrom false l

/-- Whether stars come next after blanks depends on nothing behind the first star. -/
theorem starsAhead_dropWhile_star {s : α} (hs : isStar s = true) (u v w : List α) :
    starsAhead ((u ++ s :: v).dropWhile isBlank) =
      starsAhead ((u ++ s :: w).dropWhile isBlank) := by
  induction u with
  | nil =>
    have hblank : ¬ isBlank s = true := by simp [isBlank_of_isStar s hs]
    rw [List.nil_append, List.nil_append, List.dropWhile_cons, List.dropWhile_cons, if_neg hblank,
      if_neg hblank]
    rfl
  | cons a u ih =>
    rw [List.cons_append, List.cons_append, List.dropWhile_cons, List.dropWhile_cons]
    split_ifs
    · exact ih
    · rfl

/-- A blank does not hide the star behind it. -/
theorem starsAhead_dropWhile_blank {b : α} (hb : isBlank b = true) (u v : List α) :
    starsAhead ((u ++ v).dropWhile isBlank) = starsAhead ((u ++ b :: v).dropWhile isBlank) := by
  induction u with
  | nil => rw [List.nil_append, List.nil_append, List.dropWhile_cons, if_pos hb]
  | cons a u ih =>
    rw [List.cons_append, List.cons_append, List.dropWhile_cons, List.dropWhile_cons]
    split_ifs
    · exact ih
    · rfl

/-- **Blanks that touch no run stay, and so does everything that is no blank.** -/
theorem untouched_respaced {l l' : List α} (h : Respaced l l') : untouched l = untouched l' := by
  refine h.value untouched fun l l' hshift => ?_
  cases hshift with
  | behind u v s b hs hb hv =>
    have hfrom : ∀ afterStar, untouchedFrom afterStar (u ++ s :: v) =
        untouchedFrom afterStar (u ++ s :: b :: v) := by
      induction u with
      | nil =>
        intro afterStar
        -- The new blank is behind a star, so it is not counted.
        have hblank : ¬ isBlank s = true := by simp [isBlank_of_isStar s hs]
        rw [List.nil_append, List.nil_append, untouchedFrom, untouchedFrom, if_neg hblank,
          if_neg hblank, hs, untouchedFrom, if_pos hb, Bool.true_or, if_pos rfl]
      | cons a u ih =>
        intro afterStar
        rw [List.cons_append, List.cons_append, untouchedFrom, untouchedFrom, ih, ih,
          starsAhead_dropWhile_star hs u v (b :: v)]
    exact hfrom false
  | before u v s b hs hb hu =>
    have hfrom : ∀ afterStar, untouchedFrom afterStar (u ++ s :: v) =
        untouchedFrom afterStar (u ++ b :: s :: v) := by
      clear hu
      induction u with
      | nil =>
        intro afterStar
        -- The new blank has a star ahead, so it is not counted.
        have hahead : starsAhead ((s :: v).dropWhile isBlank) = true := by
          rw [List.dropWhile_cons, if_neg (by simp [isBlank_of_isStar s hs])]
          exact hs
        rw [List.nil_append, List.nil_append, untouchedFrom.eq_2 afterStar b, if_pos hb, hahead,
          Bool.or_true, if_pos rfl]
      | cons a u ih =>
        intro afterStar
        rw [List.cons_append, List.cons_append, untouchedFrom, untouchedFrom, ih, ih,
          starsAhead_dropWhile_blank hb]
    exact hfrom false

end

/-- All runes but the blanks stay. -/
theorem filter_decode_respaced {s t : Bytes} (h : Respaced s t) :
    (Utf8.decode s).filter (fun c => !Scan.isBlank c) =
      (Utf8.decode t).filter fun c => !Scan.isBlank c := by
  refine h.value (fun s => (Utf8.decode s).filter fun c => !Scan.isBlank c) fun s t hshift => ?_
  have hstar : ∀ {x : UInt8}, isStar x = true → x < 0x80 := by
    intro x hx
    rw [show x = Bytes.star from beq_iff_eq.mp hx]
    decide
  have hblank : ∀ {b : UInt8}, Bytes.isBlank b = true →
      Scan.isBlank (Char.ofNat b.toNat) = true := by
    intro b hb
    rcases Bool.or_eq_true_iff.mp hb with hb | hb <;> rw [beq_iff_eq.mp hb] <;> rfl
  cases hshift with
  | behind u v x b hx hb hv =>
    rw [Utf8.decode_seam (hstar hx), Utf8.decode_seam (hstar hx),
      Utf8.decode_cons (Utf8.lt_of_isBlank hb)]
    simp [List.filter_cons, hblank hb]
  | before u v x b hx hb hu =>
    rw [Utf8.decode_seam (hstar hx), Utf8.decode_seam (Utf8.lt_of_isBlank hb),
      Utf8.decode_cons (hstar hx)]
    simp [hblank hb]

/-! ### Lines -/

/-- A line with its code and math replaced by tokens, and its bullet left in place. -/
def Protected.ofSpans (settings : Settings) (line : Bytes) : Protected :=
  Protected.withSpans settings ⟨line, []⟩

theorem Protected.ofSpans_eq (settings : Settings) (line : Bytes) :
    Protected.ofSpans settings line =
      ⟨render 0 (Outline.ofLine settings line).atoms,
        (Outline.ofLine settings line).regions.map (render 0)⟩ :=
  Frame.bare.withSpans_eq settings line

/-- The second line is the first one with blanks moved next to runs of stars that lie outside code
and math: both put the same regions back into texts of which one is respaced to the other. A line
that was not touched counts as well. -/
def MovesBlanks (settings : Settings) (line line' : Bytes) : Prop :=
  line' = line ∨ ∃ text text' regions, Respaced text text' ∧
    Protected.ofSpans settings line = ⟨text, regions⟩ ∧
    Protected.ofSpans settings line' = ⟨text', regions⟩ ∧
    line = Protected.restore regions text ∧ line' = Protected.restore regions text'

/-- What a line of a document can become. -/
structure Respacing (settings : Settings) (l l' : Line) : Prop where
  /-- The terminator stays. -/
  ending : l'.ending = l.ending
  /-- Blanks are put next to runs of stars outside code and math, or taken away there. -/
  moves : MovesBlanks settings l.content l'.content
  /-- All runes other than spaces and tabs stay, in order. -/
  runes : (Utf8.decode l'.content).filter (fun c => !Scan.isBlank c) =
    (Utf8.decode l.content).filter fun c => !Scan.isBlank c
  /-- No run of stars is split, and no two are joined. -/
  runs : starRuns l'.content = starRuns l.content
  /-- Blanks that touch no run of stars outside code and math stay where they are. -/
  blanks : untouched (Protected.ofSpans settings l'.content).text =
    untouched (Protected.ofSpans settings l.content).text
  /-- Code and math stay, byte for byte. -/
  regions : (Protected.ofSpans settings l'.content).regions =
    (Protected.ofSpans settings l.content).regions

section

variable {settings : Settings} {line : Bytes}

/-- **Stages on a line whose regions are apart respace its outline.** -/
theorem exists_passStages_eq_fill (hscan : needsScan line = true) (hapart : Apart settings line)
    (stages : List Stage) :
    ∃ as, Respaced (Outline.ofLine settings line).atoms as ∧
      passStages settings stages line = (Outline.ofLine settings line).fill as := by
  induction stages generalizing line with
  | nil => exact ⟨_, .refl _, (Outline.fill_atoms settings line).symm⟩
  | cons stage stages ih =>
    obtain ⟨as, has, hfill⟩ := stage.exists_fill hscan hapart
    have hstep : Stage.onContent settings line stage = (Outline.ofLine settings line).fill as := by
      rw [Stage.onContent, if_pos hscan, hfill]
    have hscan' : needsScan ((Outline.ofLine settings line).fill as) = true := by
      rw [← needsScan_respaced (Outline.respaced_fill has)]
      exact hscan
    obtain ⟨bs, hbs, hrest⟩ := ih hscan' (apart_fill hapart has)
    rw [Outline.ofLine_fill has] at hbs hrest
    refine ⟨bs, has.trans hbs, ?_⟩
    rw [passStages, List.foldl_cons, hstep]
    exact hrest

/-- The regions of a line, put back into its respaced outline. -/
theorem restore_render (hscan : needsScan line = true) (hapart : Apart settings line)
    {as : List Atom} (h : Respaced (Outline.ofLine settings line).atoms as) :
    Protected.restore ((Outline.ofLine settings line).regions.map (render 0)) (render 0 as) =
      (Outline.ofLine settings line).fill as := by
  have hmark := (needsScan_iff.mp hscan).2.1
  exact (Frame.bare.restore_eq _ _).trans (Outline.putBack_eq_fill settings hmark h hapart 0)

end

theorem Respacing.refl (settings : Settings) (l : Line) : Respacing settings l l :=
  ⟨rfl, .inl rfl, rfl, rfl, rfl, rfl⟩

/-- An open line, passed through any stages. -/
theorem respacing_passStages {settings : Settings} (stages : List Stage) {l : Line}
    (hjoin : regionsJoined settings l.content = false) :
    Respacing settings l ⟨passStages settings stages l.content, l.ending⟩ := by
  by_cases hscan : needsScan l.content = true
  · have hapart := apart_of_not_regionsJoined hscan hjoin
    obtain ⟨as, has, hpass⟩ := exists_passStages_eq_fill hscan hapart stages
    have hline := Outline.respaced_fill has
    have htext := respaced_render 0 has
    -- Both lines have the same regions, and the texts between them are respaced.
    have hspans := Protected.ofSpans_eq settings l.content
    have hspans' : Protected.ofSpans settings ((Outline.ofLine settings l.content).fill as) =
        ⟨render 0 as, (Outline.ofLine settings l.content).regions.map (render 0)⟩ := by
      rw [Protected.ofSpans_eq, Outline.ofLine_fill has]
      rfl
    rw [hpass]
    constructor
    · rfl
    · refine .inr ⟨_, _, _, htext, hspans, hspans', ?_, ?_⟩
      · rw [restore_render hscan hapart (.refl _), Outline.fill_atoms]
      · rw [restore_render hscan hapart has]
    · exact (filter_decode_respaced hline).symm
    · exact (starRuns_respaced hline).symm
    · rw [hspans, hspans']
      exact (untouched_respaced htext).symm
    · rw [hspans, hspans']
  · rw [Bool.not_eq_true] at hscan
    rw [passStages_of_not_needsScan settings stages hscan]
    exact .refl settings l

theorem forall₂_respacing {settings : Settings} (stages : List Stage) {mask : List Bool}
    {ls : List Line} (hlen : mask.length = ls.length)
    (hjoin : ∀ l ∈ ls, regionsJoined settings l.content = false) :
    List.Forall₂ (Respacing settings) ls (List.zipWith (passLine settings stages) mask ls) := by
  refine forall₂_passLine settings stages hlen fun isOpen l hl _ => ?_
  cases isOpen with
  | false => exact .refl settings l
  | true => exact respacing_passStages stages (hjoin l hl)

/-- **Formatting moves blanks next to runs of stars, and does nothing else**, on every document in
which no line has digits and nothing else between two neighbouring regions. -/
theorem format_respaces_lines (settings : Settings) (text : Bytes)
    (hjoin : ∀ l ∈ Line.split text, regionsJoined settings l.content = false) :
    List.Forall₂ (Respacing settings) (Line.split text) (Line.split (format settings text)) := by
  have hrun := foldl_onDocument settings (Stage.all.filter (Stage.enabled settings))
    (Line.proper_split text)
  rw [Line.join_split] at hrun
  have hsplit := Line.split_join hrun.2
  rw [← hrun.1] at hsplit
  rw [format, hsplit]
  exact forall₂_respacing _ (length_openLines settings _) hjoin

/-- A line with a padded marker and with stars in math and in code: ``** a**  b $*`*`$``. -/
theorem format_respaces_padded_line :
    ∃ text : Bytes, (∀ l ∈ Line.split text, regionsJoined Settings.standard l.content = false) ∧
      format Settings.standard text ≠ text ∧
      List.Forall₂ (Respacing Settings.standard) (Line.split text)
        (Line.split (format Settings.standard text)) := by
  let text := bytes "** a**  b $*`*`$"
  have hjoin : ∀ l ∈ Line.split text, regionsJoined Settings.standard l.content = false := by
    decide +kernel
  exact ⟨text, hjoin, by decide +kernel, format_respaces_lines Settings.standard text hjoin⟩

end EmphasisSpacing
