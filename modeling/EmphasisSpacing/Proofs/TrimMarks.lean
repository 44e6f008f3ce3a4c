import Mathlib.Tactic.Common
import EmphasisSpacing.Emphasis.Scan

/-!
# Trimming stops by itself

A marker that closes a span takes the blanks in front of it away, but none that were written before the
span was opened: the trimming machine keeps for every open marker how much was written by then, and
stops there. It would stop anyway, since the last character that was written by then is a star of the
opening marker. So the machine can be read without the marks (`Scan.trimFrom_eq`), and this is the form
in which it is reasoned about.

That the star is still there when the span is closed is the invariant (`Scan.AtStar`): whatever is
trimmed in between lies behind it.
-/

namespace EmphasisSpacing

namespace Scan

/-! ### The machine without marks -/

/-- What was written, backwards, without the blanks at its end; all of it when a star would then come
last. -/
def trimEnd (out : List Char) : List Char :=
  let kept := out.dropWhile isBlank
  if kept.head? == some '*' then out else kept

/-- The trimming machine with the widths of the open markers only. -/
def trimUnmarked : (dropping : Bool) → (frames : List Nat) → (out : List Char) → List Piece →
    List Char
  | _, _, out, [] => out
  | dropping, frames, out, .char c :: ps =>
    if dropping && isBlank c then trimUnmarked true frames out ps
    else trimUnmarked false frames (c :: out) ps
  | _, frames, out, .stars n :: ps =>
    if maxWidth < n then trimUnmarked false frames (putStars n out) ps
    else if closes n frames then trimUnmarked false frames.tail (putStars n (trimEnd out)) ps
    else trimUnmarked (dropsBlanks ps) (n :: frames) (putStars n out) ps

/-! ### Marks -/

/-- Whether the last of the first `mark` characters that were written is a star. -/
def AtStar (mark : Nat) (out : List Char) : Prop :=
  ∃ newer older, out = newer ++ '*' :: older ∧ mark = older.length + 1

section

variable {mark : Nat} {out : List Char}

theorem dropWhile_newer (newer older : List Char) :
    (newer ++ '*' :: older).dropWhile isBlank = newer.dropWhile isBlank ++ '*' :: older := by
  rw [List.dropWhile_append]
  split_ifs with h
  · rw [List.isEmpty_iff.mp h]
    rfl
  · rfl

/-- **The mark does not matter**: blanks end at a star before they come to it. -/
theorem trimTo_eq (h : AtStar mark out) : trimTo mark out = trimEnd out := by
  obtain ⟨newer, older, rfl, rfl⟩ := h
  have hroom : (newer ++ '*' :: older).length - (older.length + 1) = newer.length := by
    simp
  rw [trimTo, hroom, List.take_left, List.drop_left, trimEnd, dropWhile_newer]

theorem AtStar.append (h : AtStar mark out) (more : List Char) : AtStar mark (more ++ out) := by
  obtain ⟨newer, older, rfl, rfl⟩ := h
  exact ⟨more ++ newer, older, (List.append_assoc ..).symm, rfl⟩

/-- Trimming leaves the star in place. -/
theorem AtStar.trimEnd (h : AtStar mark out) : AtStar mark (trimEnd out) := by
  unfold Scan.trimEnd
  dsimp only
  split_ifs
  · exact h
  · obtain ⟨newer, older, rfl, rfl⟩ := h
    exact ⟨newer.dropWhile isBlank, older, dropWhile_newer newer older, rfl⟩

/-- A marker ends with a star. -/
theorem atStar_putStars {n : Nat} (hn : 0 < n) (out : List Char) :
    AtStar (putStars n out).length (putStars n out) := by
  cases n with
  | zero => exact absurd hn (Nat.lt_irrefl 0)
  | succ n => exact ⟨[], List.replicate n '*' ++ out, rfl, rfl⟩

end

/-- Whether every run of stars has a star. -/
def HasStars (ps : List Piece) : Prop := ∀ n, Piece.stars n ∈ ps → 0 < n

theorem hasStars_cons {p : Piece} {ps : List Piece} (hp : ∀ n, p = .stars n → 0 < n)
    (hps : HasStars ps) : HasStars (p :: ps) := by
  intro n hn
  rcases List.mem_cons.mp hn with hn | hn
  · exact hp n hn.symm
  · exact hps n hn

/-- A star joins the run behind it, or is a run of its own. -/
theorem hasStars_pushPiece (c : Char) {ps : List Piece} (h : HasStars ps) :
    HasStars (pushPiece c ps) := by
  unfold pushPiece
  split_ifs
  · split
    · next m rest =>
      refine hasStars_cons ?_ fun n hn => h n (List.mem_cons_of_mem _ hn)
      rintro n ⟨⟩
      exact Nat.succ_pos m
    · refine hasStars_cons ?_ h
      rintro n ⟨⟩
      exact Nat.one_pos
  · exact hasStars_cons (by simp) h

theorem hasStars_pieces (line : List Char) : HasStars (pieces line) := by
  induction line with
  | nil =>
    intro n hn
    cases hn
  | cons c cs ih => exact hasStars_pushPiece c ih

/-- **The trimming machine can do without its marks**, as long as there is a star at each of them. -/
theorem trimFrom_eq (dropping : Bool) {frames : List OpenMarker} {out : List Char} {ps : List Piece}
    (hps : HasStars ps) (hframes : ∀ f ∈ frames, AtStar f.mark out) :
    trimFrom dropping frames out ps = trimUnmarked dropping (frames.map OpenMarker.width) out ps := by
  induction ps generalizing dropping frames out with
  | nil => rfl
  | cons p ps ih =>
    have hrest : HasStars ps := fun n hn => hps n (List.mem_cons_of_mem _ hn)
    cases p with
    | char c =>
      rw [trimFrom, trimUnmarked]
      split_ifs
      · exact ih true hrest hframes
      · exact ih false hrest fun f hf => (hframes f hf).append [c]
    | stars n =>
      have hn : 0 < n := hps n (List.mem_cons_self ..)
      have hpush : trimFrom (dropsBlanks ps) (⟨n, (putStars n out).length⟩ :: frames)
          (putStars n out) ps =
          trimUnmarked (dropsBlanks ps) (n :: frames.map OpenMarker.width) (putStars n out) ps := by
        refine ih _ hrest (List.forall_mem_cons.mpr ⟨atStar_putStars hn out, fun f hf => ?_⟩)
        exact (hframes f hf).append _
      rw [trimFrom, trimUnmarked]
      split_ifs with hwide hcloses
      · exact ih false hrest fun f hf => (hframes f hf).append _
      · cases frames with
        | nil => cases hcloses
        | cons f frames =>
          rw [List.forall_mem_cons] at hframes
          have hwidth : f.width = n := by simpa [closes] using hcloses
          simp only [closed?, hwidth, beq_self_eq_true, if_true, trimTo_eq hframes.1]
          exact ih false hrest fun g hg => (hframes.2 g hg).trimEnd.append _
      · cases frames with
        | nil => exact hpush
        | cons f frames =>
          have hwidth : f.width ≠ n := by simpa [closes] using hcloses
          simp only [closed?, beq_iff_eq, hwidth, if_false]
          exact hpush

/-- Trimming a line, without marks. -/
theorem chars_trim (settings : Settings) (line : List Char) :
    chars .trim settings line = (trimUnmarked false [] [] (pieces line)).reverse :=
  congrArg List.reverse (trimFrom_eq false (hasStars_pieces line) (by simp))

end Scan

end EmphasisSpacing
