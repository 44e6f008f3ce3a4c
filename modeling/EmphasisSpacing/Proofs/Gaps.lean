import Mathlib.Tactic.Common
import EmphasisSpacing.Proofs.Shift
import EmphasisSpacing.Proofs.TrimMarks

/-!
# Scanning changes gaps

A line is a sequence of *solids*, that is runs of stars and characters other than blanks, with a
*gap* before each of them and one at the end: a run of blanks, which may be empty. `weave` puts gaps
and solids together.

Every stage leaves the solids alone and treats each gap by one of three *rules*: keep it, clear it,
or fill it with a space if it is empty. Which rule applies depends on the solids only. That is the
main statement here, `chars_weave`, and it makes stages easy to compose: gaps are treated one by
one, and what one stage does to a gap never changes the rule of another stage.
-/

namespace EmphasisSpacing

instance : LineSymbol Char where
  isStar c := c == '*'
  isBlank := Scan.isBlank
  isBlank_of_isStar a h := by
    rw [beq_iff_eq] at h
    rw [h]
    rfl

open LineSymbol

/-! ### Gaps and solids -/

/-- The characters of a piece. -/
def Piece.chars : Piece → List Char
  | .char c => [c]
  | .stars n => List.replicate n '*'

/-- Whether a piece is a run of stars. -/
def Piece.isStars : Piece → Bool
  | .char _ => false
  | .stars _ => true

/-- Whether a piece is neither a blank nor an empty run, nor a star that is no run. -/
def Piece.isSolid : Piece → Bool
  | .char c => !Scan.isBlank c && c != '*'
  | .stars n => n != 0

namespace Scan

/-- The characters of a line of pieces. -/
def spell (ps : List Piece) : List Char := ps.flatMap Piece.chars

/-- Characters as pieces. -/
def plain (g : List Char) : List Piece := g.map .char

/-- Gaps and solids in turn, starting and ending with a gap. -/
def weave : List (List Char) → List Piece → List Piece
  | g :: gaps, s :: solids => plain g ++ s :: weave gaps solids
  | g :: _, [] => plain g
  | [], _ => []

/-- Whether gaps and solids make up a line: there is one gap more than there are solids, gaps hold
blanks only, and runs of stars do not touch. -/
def Woven : List (List Char) → List Piece → Prop
  | g :: gaps, s :: solids =>
    (∀ b ∈ g, isBlank b = true) ∧ s.isSolid = true ∧
      (s.isStars = true → (solids.head?.any Piece.isStars) = true → gaps.head? ≠ some []) ∧
      Woven gaps solids
  | [g], [] => ∀ b ∈ g, isBlank b = true
  | _, _ => False

@[simp]
theorem spell_nil : spell [] = [] := rfl

@[simp]
theorem spell_cons (p : Piece) (ps : List Piece) : spell (p :: ps) = p.chars ++ spell ps := rfl

@[simp]
theorem spell_append (ps qs : List Piece) : spell (ps ++ qs) = spell ps ++ spell qs := by
  simp [spell]

@[simp]
theorem spell_plain (g : List Char) : spell (plain g) = g := by
  induction g with
  | nil => rfl
  | cons b g ih =>
    have hcons : plain (b :: g) = .char b :: plain g := rfl
    rw [hcons, spell_cons, ih]
    rfl

/-- There is always a first gap. -/
theorem Woven.exists_cons {gaps : List (List Char)} {solids : List Piece} (h : Woven gaps solids) :
    ∃ g gaps', gaps = g :: gaps' ∧ ∀ b ∈ g, isBlank b = true := by
  cases gaps with
  | nil => cases solids <;> exact h.elim
  | cons g gaps =>
    refine ⟨g, gaps, rfl, ?_⟩
    cases solids with
    | nil =>
      cases gaps with
      | nil => exact h
      | cons g' gaps => exact h.elim
    | cons s solids => exact h.1

/-- Woven lines are built from the last gap by putting a gap and a solid in front. -/
@[elab_as_elim]
theorem Woven.induction
    {motive : (gaps : List (List Char)) → (solids : List Piece) → Woven gaps solids → Prop}
    (last : ∀ (g : List Char) (hg : ∀ b ∈ g, isBlank b = true), motive [g] [] hg)
    (cons : ∀ (g : List Char) (gaps : List (List Char)) (s : Piece) (solids : List Piece)
      (hg : ∀ b ∈ g, isBlank b = true) (hs : s.isSolid = true)
      (hapart : s.isStars = true → (solids.head?.any Piece.isStars) = true → gaps.head? ≠ some [])
      (hrest : Woven gaps solids),
      motive gaps solids hrest → motive (g :: gaps) (s :: solids) ⟨hg, hs, hapart, hrest⟩)
    {gaps : List (List Char)} {solids : List Piece} (h : Woven gaps solids) :
    motive gaps solids h := by
  induction gaps generalizing solids with
  | nil => cases solids <;> exact h.elim
  | cons g gaps ih =>
    cases solids with
    | nil =>
      cases gaps with
      | nil => exact last g h
      | cons g' gaps => exact h.elim
    | cons s solids =>
      obtain ⟨hg, hs, hapart, hrest⟩ := h
      exact cons g gaps s solids hg hs hapart hrest (ih hrest)

theorem Woven.length_eq {gaps : List (List Char)} {solids : List Piece} (h : Woven gaps solids) :
    gaps.length = solids.length + 1 := by
  induction h using Woven.induction with
  | last g hg => rfl
  | cons g gaps s solids hg hs hapart hrest ih => rw [List.length_cons, List.length_cons, ih]

/-! ### Reading a woven line back -/

/-- A star joins a run that starts the line. -/
theorem pushPiece_star_stars (n : Nat) (ps : List Piece) :
    pushPiece '*' (.stars n :: ps) = .stars (n + 1) :: ps := rfl

/-- A star in front of anything else is a run of its own. -/
theorem pushPiece_star {ps : List Piece} (h : (ps.head?.any Piece.isStars) = false) :
    pushPiece '*' ps = .stars 1 :: ps := by
  cases ps with
  | nil => rfl
  | cons p ps =>
    cases p with
    | char c => rfl
    | stars n => cases h

/-- A run of stars in front of a line that starts with none is one piece. -/
theorem pieces_replicate {n : Nat} (hn : n ≠ 0) {cs : List Char}
    (hcs : ((pieces cs).head?.any Piece.isStars) = false) :
    pieces (List.replicate n '*' ++ cs) = .stars n :: pieces cs := by
  induction n with
  | zero => exact absurd rfl hn
  | succ n ih =>
    rw [List.replicate_succ, List.cons_append, pieces]
    by_cases h0 : n = 0
    · subst h0
      rw [List.replicate_zero, List.nil_append, pushPiece_star hcs]
    · rw [ih h0, pushPiece_star_stars]

/-- A character that is no star is a piece of its own. -/
theorem pieces_cons_char {c : Char} (hc : c ≠ '*') (cs : List Char) :
    pieces (c :: cs) = .char c :: pieces cs := by
  rw [pieces]
  unfold pushPiece
  rw [if_neg (by simpa using hc)]

theorem ne_star_of_isBlank {b : Char} (h : isBlank b = true) : b ≠ '*' := by
  intro hb
  rw [hb] at h
  cases h

/-- Characters other than stars are read one by one. -/
theorem pieces_plain {w : List Char} (hw : ∀ c ∈ w, c ≠ '*') (cs : List Char) :
    pieces (w ++ cs) = plain w ++ pieces cs := by
  induction w with
  | nil => rfl
  | cons c w ih =>
    rw [List.cons_append, pieces_cons_char (hw c (List.mem_cons_self ..)),
      ih fun x hx => hw x (List.mem_cons_of_mem _ hx)]
    rfl

/-- A line of pieces starts with stars only when its first gap is empty. -/
theorem head?_weave_isStars {g : List Char} {gaps : List (List Char)} {solids : List Piece}
    (h : ((weave (g :: gaps) solids).head?.any Piece.isStars) = true) :
    g = [] ∧ (solids.head?.any Piece.isStars) = true := by
  cases g with
  | nil =>
    cases solids with
    | nil => cases h
    | cons s solids => exact ⟨rfl, h⟩
  | cons b g => cases solids <;> cases h

/-- **The pieces of a woven line are its gaps and solids.** -/
theorem pieces_spell_weave {gaps : List (List Char)} {solids : List Piece}
    (h : Woven gaps solids) : pieces (spell (weave gaps solids)) = weave gaps solids := by
  induction h using Woven.induction with
  | last g hg =>
    have hw : weave [g] [] = plain g ++ [] := (List.append_nil _).symm
    rw [hw, spell_append, spell_plain, pieces_plain fun b hb => ne_star_of_isBlank (hg b hb)]
    rfl
  | cons g gaps s solids hg hs hapart hrest ih =>
    rw [weave, spell_append, spell_plain, spell_cons,
      pieces_plain fun b hb => ne_star_of_isBlank (hg b hb)]
    congr 1
    cases s with
    | char c =>
      have hc : c ≠ '*' := by
        simp only [Piece.isSolid, Bool.and_eq_true, bne_iff_ne] at hs
        exact hs.2
      rw [Piece.chars, List.singleton_append, pieces_cons_char hc, ih]
    | stars n =>
      have hn : n ≠ 0 := by simpa [Piece.isSolid] using hs
      rw [Piece.chars, pieces_replicate hn, ih]
      -- Two runs with no blanks between them would be one; woven lines have none such.
      rw [ih, Bool.eq_false_iff]
      intro hstars
      obtain ⟨g', gaps', rfl, -⟩ := hrest.exists_cons
      obtain ⟨hg', hsol⟩ := head?_weave_isStars hstars
      exact hapart rfl hsol (by rw [hg']; rfl)

theorem spell_weave_cons (b : Char) (g : List Char) (gaps : List (List Char))
    (solids : List Piece) :
    spell (weave ((b :: g) :: gaps) solids) = b :: spell (weave (g :: gaps) solids) := by
  cases solids <;> simp [weave]

/-- A line with one more blank in front. -/
theorem Woven.cons_blank {b : Char} (hb : isBlank b = true) {g : List Char}
    {gaps : List (List Char)} {solids : List Piece} (hw : Woven (g :: gaps) solids) :
    Woven ((b :: g) :: gaps) solids := by
  cases solids with
  | nil =>
    cases gaps with
    | nil => simpa [Woven, hb] using hw
    | cons g' gaps => exact hw.elim
  | cons s solids =>
    obtain ⟨hg, hs, hapart, hrest⟩ := hw
    exact ⟨by simpa [hb] using hg, hs, hapart, hrest⟩

/-- **Every line is woven.** -/
theorem exists_woven (cs : List Char) :
    ∃ gaps solids, Woven gaps solids ∧ spell (weave gaps solids) = cs := by
  induction cs with
  | nil => exact ⟨[[]], [], by simp [Woven], rfl⟩
  | cons c cs ih =>
    obtain ⟨gaps, solids, hw, hcs⟩ := ih
    obtain ⟨g, gaps, rfl, hg⟩ := hw.exists_cons
    by_cases hb : isBlank c = true
    · -- A blank joins the first gap.
      exact ⟨(c :: g) :: gaps, solids, hw.cons_blank hb, by rw [spell_weave_cons, hcs]⟩
    · rw [Bool.not_eq_true] at hb
      by_cases hs : c = '*'
      · subst hs
        by_cases hrun : g = [] ∧ (solids.head?.any Piece.isStars) = true
        · -- A star joins the run at the front.
          obtain ⟨rfl, hrun⟩ := hrun
          cases solids with
          | nil => cases hrun
          | cons s solids =>
            cases s with
            | char c => cases hrun
            | stars n =>
              obtain ⟨hg, -, hapart, hrest⟩ := hw
              refine ⟨[] :: gaps, .stars (n + 1) :: solids, ⟨hg, by simp [Piece.isSolid], hapart,
                hrest⟩, ?_⟩
              rw [← hcs]
              simp [weave, Piece.chars, List.replicate_succ]
        · -- No run stands at the front, so the star is one of its own.
          refine ⟨[] :: g :: gaps, .stars 1 :: solids, ⟨by simp, rfl, ?_, hw⟩, ?_⟩
          · intro _ hsol hg0
            exact hrun ⟨by simpa using hg0, hsol⟩
          · rw [← hcs]
            simp [weave, Piece.chars, plain]
      · refine ⟨[] :: g :: gaps, .char c :: solids, ⟨by simp, ?_, ?_, hw⟩, ?_⟩
        · simp [Piece.isSolid, hb, hs]
        · intro hst
          cases hst
        · rw [← hcs]
          simp [weave, Piece.chars, plain]

/-! ### Rules -/

/-- What a stage does to a gap. -/
inductive Rule where
  | keep
  | clear
  /-- An empty gap gets a space; any other stays. -/
  | fill
  deriving DecidableEq, Repr

/-- The gap that a rule makes of a gap. -/
def Rule.apply : Rule → List Char → List Char
  | .keep, g => g
  | .clear, _ => []
  | .fill, g => if g.isEmpty then [' '] else g

/-- What stands in front of a gap, for trimming. -/
inductive Left where
  /-- A marker that opens a span. -/
  | opener
  /-- Another run of stars. -/
  | run
  /-- A character, or the start of the line. -/
  | other
  deriving DecidableEq, Repr

/-- The rules of trimming: a gap is cleared behind an opening marker and in front of a closing one,
unless it lies between two runs of stars. -/
def trimRules : (frames : List Nat) → Left → List Piece → List Rule
  | _, left, [] => [if left = .opener then .clear else .keep]
  | frames, left, .char _ :: ss =>
    (if left = .opener then .clear else .keep) :: trimRules frames .other ss
  | frames, left, .stars n :: ss =>
    if maxWidth < n then .keep :: trimRules frames .run ss
    else if closes n frames then
      (if left = .other then .clear else .keep) :: trimRules frames.tail .run ss
    else .keep :: trimRules (n :: frames) .opener ss

/-- The rules of spacing: a gap is filled between a closing marker and a character that asks for a
space, and between such a character and an opening marker. `behind` tells that a closing marker
stands in front of the gap, and `before` is the character that stands there. -/
def spaceRules (takes : Nat → Bool) (wants : Int → Bool) :
    (frames : List Nat) → (behind : Bool) → (before : Option Char) → List Piece → List Rule
  | _, _, _, [] => [.keep]
  | frames, behind, _, .char c :: ss =>
    (if behind && wants (codeOf c) then .fill else .keep) ::
      spaceRules takes wants frames false (some c) ss
  | frames, _, before, .stars n :: ss =>
    if maxWidth < n || !takes n then .keep :: spaceRules takes wants frames false none ss
    else if closes n frames then .keep :: spaceRules takes wants frames.tail true none ss
    else (if asks wants before then .fill else .keep) ::
      spaceRules takes wants (n :: frames) false none ss

/-- The rules of a stage on a line with the given solids, one for each gap. -/
def rules (stage : Stage) (settings : Settings) (solids : List Piece) : List Rule :=
  match stage with
  | .trim => trimRules [] .other solids
  | .bold => spaceRules (2 ≤ ·) (boldSpace settings) [] false none solids
  | .italic => spaceRules (· == 1) italicSpace [] false none solids

/-- Gaps after their rules. -/
def treat (rs : List Rule) (gaps : List (List Char)) : List (List Char) :=
  List.zipWith Rule.apply rs gaps

@[simp]
theorem treat_cons (r : Rule) (rs : List Rule) (g : List Char) (gaps : List (List Char)) :
    treat (r :: rs) (g :: gaps) = r.apply g :: treat rs gaps := rfl

theorem treat_singleton (r : Rule) (g : List Char) : treat [r] [g] = [r.apply g] := rfl

/-- A treated line, backwards, as the machines write it: the rest, then the first solid, and the first
gap last. -/
theorem reverse_spell_weave_treat (r : Rule) (rs : List Rule) (g : List Char)
    (gaps : List (List Char)) (s : Piece) (solids : List Piece) (out : List Char) :
    (spell (weave (treat (r :: rs) (g :: gaps)) (s :: solids))).reverse ++ out =
      (spell (weave (treat rs gaps) solids)).reverse ++
        (s.chars.reverse ++ ((r.apply g).reverse ++ out)) := by
  rw [treat_cons, weave]
  simp

theorem reverse_chars_stars (n : Nat) (out : List Char) :
    (Piece.stars n).chars.reverse ++ out = putStars n out := by
  rw [Piece.chars, List.reverse_replicate, putStars]

/-! ### Trimming follows its rules -/

/-- What was written so far, backwards, fits what is said to stand in front of a gap. -/
def Left.Fits : Left → List Char → Prop
  | .other, out => ∀ c ∈ out.head?, isBlank c = false ∧ c ≠ '*'
  | _, out => out.head? = some '*'

theorem dropsBlanks_plain {g : List Char} (hg : ∀ b ∈ g, isBlank b = true) (ps : List Piece) :
    dropsBlanks (plain g ++ ps) = dropsBlanks ps := by
  induction g with
  | nil => rfl
  | cons b g ih =>
    have hcons : plain (b :: g) ++ ps = .char b :: (plain g ++ ps) := rfl
    rw [hcons, dropsBlanks, if_pos (hg b (List.mem_cons_self ..)),
      ih fun x hx => hg x (List.mem_cons_of_mem _ hx)]

/-- Blanks that are not dropped are written. -/
theorem trimUnmarked_keep (frames : List Nat) (out g : List Char) (ps : List Piece) :
    trimUnmarked false frames out (plain g ++ ps) = trimUnmarked false frames (g.reverse ++ out) ps := by
  induction g generalizing out with
  | nil => rfl
  | cons b g ih =>
    have hcons : plain (b :: g) ++ ps = .char b :: (plain g ++ ps) := rfl
    rw [hcons, trimUnmarked, Bool.false_and, if_neg Bool.false_ne_true, ih, List.reverse_cons,
      List.append_assoc]
    rfl

/-- Blanks that are dropped leave no trace. -/
theorem trimUnmarked_drop {g : List Char} (hg : ∀ b ∈ g, isBlank b = true) (frames : List Nat)
    (out : List Char) (ps : List Piece) :
    trimUnmarked true frames out (plain g ++ ps) = trimUnmarked true frames out ps := by
  induction g with
  | nil => rfl
  | cons b g ih =>
    have hcons : plain (b :: g) ++ ps = .char b :: (plain g ++ ps) := rfl
    rw [hcons, trimUnmarked, Bool.true_and, if_pos (hg b (List.mem_cons_self ..)),
      ih fun x hx => hg x (List.mem_cons_of_mem _ hx)]

/-- In front of a closing marker, trimming takes the blanks away unless stars stand before them. -/
theorem trimEnd_gap {left : Left} {out g : List Char} (hleft : left.Fits out)
    (hg : ∀ b ∈ g, isBlank b = true) :
    trimEnd (g.reverse ++ out) =
      ((if left = .other then Rule.clear else .keep).apply g).reverse ++ out := by
  have hdrop : (g.reverse ++ out).dropWhile isBlank = out.dropWhile isBlank :=
    List.dropWhile_append_of_pos fun b hb => hg b (List.mem_reverse.mp hb)
  -- What stands in front of the gap is solid, so nothing of it is dropped.
  have hstop : out.dropWhile isBlank = out := by
    cases out with
    | nil => rfl
    | cons c out =>
      have hc : isBlank c = false := by
        cases left with
        | other => exact (hleft c rfl).1
        | opener => rw [Option.some.inj hleft]; rfl
        | run => rw [Option.some.inj hleft]; rfl
      rw [List.dropWhile_cons, if_neg (by simp [hc])]
  unfold trimEnd
  simp only [hdrop, hstop]
  cases left with
  | other =>
    have hne : ¬ (out.head? == some '*') = true := by
      rw [beq_iff_eq]
      intro hhead
      exact (hleft '*' hhead).2 rfl
    rw [if_neg hne, if_pos rfl]
    rfl
  | opener =>
    rw [if_pos (beq_iff_eq.mpr hleft), if_neg (by decide)]
    rfl
  | run =>
    rw [if_pos (beq_iff_eq.mpr hleft), if_neg (by decide)]
    rfl

/-- Stars come last after a run of them. -/
theorem head?_putStars {n : Nat} (hn : n ≠ 0) (out : List Char) :
    (putStars n out).head? = some '*' := by
  cases n with
  | zero => exact absurd rfl hn
  | succ n => rfl

/-- **The trimming machine follows the rules of trimming.** Between two solids the machine has written
everything in front of the gap, and it drops blanks exactly when an opening marker stands in front of
the gap and no run of stars behind it. -/
theorem trimUnmarked_weave {gaps : List (List Char)} {solids : List Piece} (hw : Woven gaps solids)
    (frames : List Nat) (left : Left) (out : List Char) (hleft : left.Fits out) :
    trimUnmarked (decide (left = .opener) && dropsBlanks (weave gaps solids)) frames out
        (weave gaps solids) =
      (spell (weave (treat (trimRules frames left solids) gaps) solids)).reverse ++ out := by
  induction hw using Woven.induction generalizing frames left out with
  | last g hg =>
    have hweave : weave [g] [] = plain g ++ [] := (List.append_nil _).symm
    have hdrops : dropsBlanks (weave [g] []) = true := by
      rw [hweave, dropsBlanks_plain hg]
      rfl
    rw [hdrops, Bool.and_true, trimRules, treat_singleton, weave, weave, spell_plain]
    by_cases ho : left = .opener
    · rw [decide_eq_true ho, if_pos ho, ← List.append_nil (plain g), trimUnmarked_drop hg]
      rfl
    · rw [decide_eq_false ho, if_neg ho, ← List.append_nil (plain g), trimUnmarked_keep]
      rfl
  | cons g gaps s solids hg hs hapart hrest ih =>
    rw [weave, dropsBlanks_plain hg]
    cases s with
    | char c =>
      simp only [Piece.isSolid, Bool.and_eq_true, bne_iff_ne, Bool.not_eq_true'] at hs
      have hdrops : dropsBlanks (.char c :: weave gaps solids) = true := by
        rw [dropsBlanks, if_neg (by simp [hs.1])]
      have hread : ∀ (d : Bool) (o : List Char),
          trimUnmarked d frames o (.char c :: weave gaps solids) =
            (spell (weave (treat (trimRules frames .other solids) gaps) solids)).reverse ++
              (c :: o) := by
        intro d o
        rw [trimUnmarked, if_neg (by simp [hs.1])]
        exact ih frames .other (c :: o) (by simpa [Left.Fits] using hs)
      rw [hdrops, Bool.and_true, trimRules, reverse_spell_weave_treat]
      by_cases ho : left = .opener
      · rw [decide_eq_true ho, if_pos ho, trimUnmarked_drop hg, hread]
        rfl
      · rw [decide_eq_false ho, if_neg ho, trimUnmarked_keep, hread]
        rfl
    | stars n =>
      have hn : n ≠ 0 := by simpa [Piece.isSolid] using hs
      -- Behind the run the machine goes on with a star written last, dropping blanks or not.
      have hrun : ∀ (fs : List Nat) (o : List Char),
          trimUnmarked false fs (putStars n o) (weave gaps solids) =
            (spell (weave (treat (trimRules fs .run solids) gaps) solids)).reverse ++
              putStars n o := fun fs o =>
        ih fs .run (putStars n o) (head?_putStars hn o)
      have hopen : ∀ (fs : List Nat) (o : List Char),
          trimUnmarked (dropsBlanks (weave gaps solids)) fs (putStars n o) (weave gaps solids) =
            (spell (weave (treat (trimRules fs .opener solids) gaps) solids)).reverse ++
              putStars n o := fun fs o =>
        ih fs .opener (putStars n o) (head?_putStars hn o)
      -- No blanks are dropped in front of a run, so the gap is written before the run is read.
      rw [dropsBlanks, Bool.and_false, trimUnmarked_keep, trimUnmarked, trimRules]
      split_ifs with hwide hcloses hother
      · rw [hrun, reverse_spell_weave_treat, reverse_chars_stars]
        rfl
      · rw [trimEnd_gap hleft hg, if_pos hother, hrun, reverse_spell_weave_treat,
          reverse_chars_stars]
      · rw [trimEnd_gap hleft hg, if_neg hother, hrun, reverse_spell_weave_treat,
          reverse_chars_stars]
      · rw [hopen, reverse_spell_weave_treat, reverse_chars_stars]
        rfl

/-! ### Spacing follows its rules -/

/-- Blanks are written. -/
theorem spaceFrom_plain (takes : Nat → Bool) (wants : Int → Bool) (frames : List Nat)
    (out g : List Char) (ps : List Piece) :
    spaceFrom takes wants frames out (plain g ++ ps) =
      spaceFrom takes wants frames (g.reverse ++ out) ps := by
  induction g generalizing out with
  | nil => rfl
  | cons b g ih =>
    have hcons : plain (b :: g) ++ ps = .char b :: (plain g ++ ps) := rfl
    rw [hcons, spaceFrom, ih, List.reverse_cons, List.append_assoc]
    rfl

@[simp]
theorem putSpace_false (out : List Char) : putSpace false out = out := rfl

/-- Neither a blank nor a star asks for a space. -/
def IgnoresSpacing (wants : Int → Bool) : Prop :=
  ∀ b, isBlank b = true ∨ b = '*' → wants (codeOf b) = false

/-- Nothing is asked for behind blanks. -/
theorem asks_blanks {wants : Int → Bool} (hwants : IgnoresSpacing wants) {g : List Char}
    (hg : ∀ b ∈ g, isBlank b = true) (hne : g ≠ []) (out : List Char) :
    asks wants (g.reverse ++ out).head? = false := by
  rcases List.eq_nil_or_concat g with rfl | ⟨g, b, rfl⟩
  · exact absurd rfl hne
  · rw [List.concat_eq_append, List.reverse_append]
    exact hwants b (.inl (hg b (by simp)))

/-- A closing marker looks at the piece behind it: it asks for a space only when that is a
character, with nothing between them. -/
theorem asks_front {wants : Int → Bool} (hwants : IgnoresSpacing wants) {g : List Char}
    (hg : ∀ b ∈ g, isBlank b = true) (ps : List Piece)
    (hps : ∀ c, ps.head? = some (.char c) → g ≠ []) :
    asks wants (frontChar? (plain g ++ ps)) = false := by
  cases g with
  | cons b g => exact hwants b (.inl (hg b (List.mem_cons_self ..)))
  | nil =>
    cases ps with
    | nil => rfl
    | cons p ps =>
      cases p with
      | char c => exact absurd rfl (hps c rfl)
      | stars n => exact hwants '*' (.inr rfl)

/-- The space that a closing marker writes fills the gap behind it. -/
theorem putSpace_behind {wants : Int → Bool} (hwants : IgnoresSpacing wants) {g : List Char}
    (hg : ∀ b ∈ g, isBlank b = true) (behind : Bool) (c : Char) (ps : List Piece)
    (out : List Char) :
    g.reverse ++ putSpace (behind && asks wants (frontChar? (plain g ++ .char c :: ps))) out =
      ((if behind && wants (codeOf c) then Rule.fill else .keep).apply g).reverse ++ out := by
  cases g with
  | nil =>
    have hfront : asks wants (frontChar? (plain [] ++ .char c :: ps)) = wants (codeOf c) := rfl
    rw [hfront]
    cases behind && wants (codeOf c) <;> rfl
  | cons b g =>
    rw [asks_front hwants hg _ (by simp), Bool.and_false]
    cases behind && wants (codeOf c) <;> rfl

/-- The space that an opening marker writes fills the gap in front of it. -/
theorem putSpace_before {wants : Int → Bool} (hwants : IgnoresSpacing wants) {g : List Char}
    (hg : ∀ b ∈ g, isBlank b = true) {before : Option Char} {out : List Char}
    (hbefore : g = [] → asks wants out.head? = asks wants before) :
    putSpace (asks wants (g.reverse ++ out).head?) (g.reverse ++ out) =
      ((if asks wants before then Rule.fill else .keep).apply g).reverse ++ out := by
  cases g with
  | nil =>
    rw [List.reverse_nil, List.nil_append, hbefore rfl]
    cases asks wants before <;> rfl
  | cons b g =>
    rw [asks_blanks hwants hg (by simp)]
    cases asks wants before <;> rfl

/-- **The spacing machine follows the rules of spacing.** A closing marker writes its space before the
gap is read, so the space is counted to the gap here. -/
theorem spaceFrom_weave (takes : Nat → Bool) {wants : Int → Bool} (hwants : IgnoresSpacing wants)
    {gaps : List (List Char)} {solids : List Piece} (hw : Woven gaps solids) (frames : List Nat)
    (behind : Bool) (before : Option Char) (out : List Char)
    (hbefore : (solids.head?.any Piece.isStars) = true → gaps.head? = some [] →
      asks wants out.head? = asks wants before) :
    spaceFrom takes wants frames
        (putSpace (behind && asks wants (frontChar? (weave gaps solids))) out)
        (weave gaps solids) =
      (spell (weave (treat (spaceRules takes wants frames behind before solids) gaps)
        solids)).reverse ++ out := by
  induction hw using Woven.induction generalizing frames behind before out with
  | last g hg =>
    have hweave : weave [g] [] = plain g ++ [] := (List.append_nil _).symm
    rw [hweave, asks_front hwants hg [] (by simp), Bool.and_false, spaceFrom_plain]
    simp [spaceRules, weave, Rule.apply, spaceFrom, putSpace]
  | cons g gaps s solids hg hs hapart hrest ih =>
    rw [weave, spaceFrom_plain]
    cases s with
    | char c =>
      have h := fun o => ih frames false (some c) (c :: o) fun _ _ => rfl
      simp only [Bool.false_and, putSpace_false] at h
      rw [putSpace_behind hwants hg, spaceFrom, h, spaceRules, reverse_spell_weave_treat]
      rfl
    | stars n =>
      have hspace : (behind && asks wants
          (frontChar? (plain g ++ .stars n :: weave gaps solids))) = false := by
        rw [asks_front hwants hg _ (by simp), Bool.and_false]
      -- Behind a run of stars the next gap is empty only in front of a character.
      have hnext : ∀ (fs : List Nat) (b : Bool) (o : List Char),
          spaceFrom takes wants fs
              (putSpace (b && asks wants (frontChar? (weave gaps solids))) (putStars n o))
              (weave gaps solids) =
            (spell (weave (treat (spaceRules takes wants fs b none solids) gaps)
              solids)).reverse ++ putStars n o := fun fs b o =>
        ih fs b none (putStars n o) fun hsol hgap => absurd hgap (hapart rfl hsol)
      have hcopy : ∀ (fs : List Nat) (o : List Char),
          spaceFrom takes wants fs (putStars n o) (weave gaps solids) =
            (spell (weave (treat (spaceRules takes wants fs false none solids) gaps)
              solids)).reverse ++ putStars n o := fun fs o => by
        have h := hnext fs false o
        rwa [Bool.false_and, putSpace_false] at h
      rw [hspace, putSpace_false, spaceFrom, spaceRules]
      by_cases hskip : (maxWidth < n || !takes n) = true
      · rw [if_pos hskip, if_pos hskip, hcopy, reverse_spell_weave_treat, reverse_chars_stars]
        rfl
      · rw [if_neg hskip, if_neg hskip]
        by_cases hcloses : closes n frames = true
        · have h := hnext frames.tail true (g.reverse ++ out)
          rw [Bool.true_and] at h
          rw [if_pos hcloses, if_pos hcloses, h, reverse_spell_weave_treat, reverse_chars_stars]
          rfl
        · rw [if_neg hcloses, if_neg hcloses, hcopy,
            putSpace_before hwants hg (fun hg0 => hbefore rfl (by rw [hg0]; rfl)),
            reverse_spell_weave_treat, reverse_chars_stars]

/-! ### Stages as rules -/

/-- There are two kinds of blanks. -/
theorem ignoresSpacing_of {wants : Int → Bool} (hspace : wants (codeOf ' ') = false)
    (htab : wants (codeOf '\t') = false) (hstar : wants (codeOf '*') = false) :
    IgnoresSpacing wants := by
  rintro b (hb | rfl)
  · simp only [isBlank, Bool.or_eq_true, beq_iff_eq] at hb
    rcases hb with rfl | rfl
    · exact hspace
    · exact htab
  · exact hstar

theorem ignoresSpacing_boldSpace (settings : Settings) : IgnoresSpacing (boldSpace settings) :=
  ignoresSpacing_of rfl rfl rfl

theorem ignoresSpacing_italicSpace : IgnoresSpacing italicSpace := ignoresSpacing_of rfl rfl rfl

/-- **A stage treats every gap by its rule and leaves the solids alone.** -/
theorem chars_weave (stage : Stage) (settings : Settings) {gaps : List (List Char)}
    {solids : List Piece} (hw : Woven gaps solids) :
    chars stage settings (spell (weave gaps solids)) =
      spell (weave (treat (rules stage settings solids) gaps) solids) := by
  have hpieces := pieces_spell_weave hw
  -- Each machine starts with nothing written, and what it has written is read backwards.
  cases stage with
  | trim =>
    have h := trimUnmarked_weave hw [] .other [] (by simp [Left.Fits])
    rw [List.append_nil] at h
    rw [chars_trim, hpieces]
    exact (congrArg List.reverse h).trans (List.reverse_reverse _)
  | bold =>
    have h := spaceFrom_weave (2 ≤ ·) (ignoresSpacing_boldSpace settings) hw [] false none
      [] fun _ _ => rfl
    rw [List.append_nil] at h
    rw [chars, hpieces]
    exact (congrArg List.reverse h).trans (List.reverse_reverse _)
  | italic =>
    have h := spaceFrom_weave (· == 1) ignoresSpacing_italicSpace hw [] false none
      [] fun _ _ => rfl
    rw [List.append_nil] at h
    rw [chars, hpieces]
    exact (congrArg List.reverse h).trans (List.reverse_reverse _)

end Scan

end EmphasisSpacing
