import EmphasisSpacing.Proofs.Compose
import EmphasisSpacing.Proofs.Scanned

/-!
# The order of the spacing stages

Bold and italic spacing may run in either order (`line_italic_bold`). Each of them keeps its own stack
and copies the markers of the other, and a character between two markers may get a space on both sides,
one from each stage. Still neither sees what the other has done: the rules of a stage depend on the
solids of a line, which spacing never changes, and a gap that is to be filled twice is filled once
(`Rule.apply_comm`).

Trimming is different. It clears gaps that spacing fills, so its place among the stages matters.
-/

namespace EmphasisSpacing

namespace Scan

/-! ### Rules that keep or fill -/

/-- A gap is filled by whichever rule comes first, and kept by the other. -/
theorem Rule.apply_comm {r r' : Rule} (hr : r ≠ .clear) (hr' : r' ≠ .clear) (g : List Char) :
    r.apply (r'.apply g) = r'.apply (r.apply g) := by
  cases r with
  | clear => exact absurd rfl hr
  | keep => rfl
  | fill =>
    cases r' with
    | clear => exact absurd rfl hr'
    | keep => rfl
    | fill => rfl

theorem treat_comm {rs rs' : List Rule} (hrs : ∀ r ∈ rs, r ≠ .clear) (hrs' : ∀ r ∈ rs', r ≠ .clear)
    (gaps : List (List Char)) : treat rs (treat rs' gaps) = treat rs' (treat rs gaps) := by
  induction gaps generalizing rs rs' with
  | nil => simp [treat]
  | cons g gaps ih =>
    cases rs with
    | nil => simp [treat]
    | cons r rs =>
      cases rs' with
      | nil => simp [treat]
      | cons r' rs' =>
        rw [List.forall_mem_cons] at hrs hrs'
        have hfirst : r.apply (r'.apply g) = r'.apply (r.apply g) := Rule.apply_comm hrs.1 hrs'.1 g
        have hlater : treat rs (treat rs' gaps) = treat rs' (treat rs gaps) := ih hrs.2 hrs'.2
        rw [treat_cons, treat_cons, treat_cons, treat_cons, hfirst, hlater]

/-! ### Characters -/

variable {stage stage' : Stage} (settings : Settings)

/-- **Stages that put spaces commute.** Both orders treat every gap of the line by the same two
rules. -/
theorem chars_comm (hstage : stage ≠ .trim) (hstage' : stage' ≠ .trim) (w : List Char) :
    chars stage settings (chars stage' settings w) =
      chars stage' settings (chars stage settings w) := by
  obtain ⟨gaps, solids, hw, rfl⟩ := exists_woven w
  have hwoven := woven_treat hw (local_rules stage settings solids)
  have hwoven' := woven_treat hw (local_rules stage' settings solids)
  -- The solids are still there after the first stage, and with them the rules of the second.
  rw [chars_weave stage' settings hw, chars_weave stage settings hwoven',
    chars_weave stage settings hw, chars_weave stage' settings hwoven,
    treat_comm (ne_clear_of_mem_rules settings solids hstage)
      (ne_clear_of_mem_rules settings solids hstage')]

/-! ### Bytes -/

/-- What commutes on characters commutes on bytes. An ill-formed line keeps its bytes under the stage
that has nothing to do, and loses them under the other one, whichever comes first. -/
theorem line_comm (hcomm : ∀ w, chars stage settings (chars stage' settings w) =
    chars stage' settings (chars stage settings w)) (s : Bytes) :
    line stage settings (line stage' settings s) = line stage' settings (line stage settings s) := by
  have hchars := hcomm (Utf8.decode s)
  rcases line_cases stage settings s with ⟨hsame, hline⟩ | hline
  · rcases line_cases stage' settings s with ⟨-, hline'⟩ | hline'
    · rw [hline', hline, hline']
    · rw [hline', hline, line_encode, hline', hchars, hsame]
  · rcases line_cases stage' settings s with ⟨hsame', hline'⟩ | hline'
    · rw [hline', hline, line_encode, ← hchars, hsame']
    · rw [hline', hline, line_encode, line_encode, hchars]

/-- **Bold and italic spacing commute**, on every sequence of characters and on every line of bytes. -/
theorem line_italic_bold :
    (∀ w : List Char, chars .italic settings (chars .bold settings w) =
        chars .bold settings (chars .italic settings w)) ∧
      ∀ s : Bytes, line .italic settings (line .bold settings s) =
        line .bold settings (line .italic settings s) := by
  have hchars := chars_comm settings (show Stage.italic ≠ .trim by decide)
    (show Stage.bold ≠ .trim by decide)
  exact ⟨hchars, line_comm settings hchars⟩

-- The character between the two spans gets a space from each stage.
example : chars .italic .standard (chars .bold .standard "**粗**中*斜*".toList) =
    "**粗** 中 *斜*".toList := by decide

-- Trimming does not commute with spacing: it takes the second run for an opening marker.
example : chars .trim .standard (chars .bold .standard "**a*中**字*".toList) ≠
    chars .bold .standard (chars .trim .standard "**a*中**字*".toList) := by decide

end Scan

end EmphasisSpacing
