import Mathlib.Data.List.Infix
import EmphasisSpacing.Proofs.Idempotence

/-!
# Trimming a formatted document

Trimming pairs the markers of all widths on one stack, spacing pairs wide and single markers on
stacks of their own. On markers that are not well nested the stages may disagree: one and the same
gap may lie just inside a span for trimming and just outside one for spacing. Then a formatted
document can be trimmed further (`trim_format_misnested`).

`trim_format_iff` says exactly when: trimming changes nothing if and only if no open line has a gap
that trimming clears and spacing fills. It is about documents whose lines keep their bullets,
because a line that loses or gets a bullet on the way shows other markers to the last stage than to
the first.
-/

namespace EmphasisSpacing

open LineSymbol Atom

/-! ### Lines that a stage leaves alone -/

/-- **A stage leaves a line alone exactly when scanning leaves its protected text alone.** -/
theorem Stage.onLine_eq_self_iff (stage : Stage) {settings : Settings} {line : Bytes}
    (hscan : needsScan line = true) :
    stage.onLine settings line = line ↔
      Scan.line stage settings (Protected.ofLine settings line).text =
        (Protected.ofLine settings line).text := by
  constructor
  · intro hsame
    obtain ⟨head, front, regions, rest, gs, h⟩ := exists_passage stage settings hscan
    have hmark := (needsScan_iff.mp hscan).2.1
    -- The result has no NUL, so it fills the outline that the stage has left.
    have hfill : line = front ++ (Outline.ofLine settings rest).fill gs := by
      rcases h.onLine_cases with heq | ⟨u, v, heq, -, -⟩
      · rw [← hsame, heq]
      · rw [hsame] at heq
        rw [heq] at hmark
        simp at hmark
    have hrest : rest = (Outline.ofLine settings rest).fill gs := by
      rw [h.line_eq] at hfill
      exact List.append_cancel_left hfill
    -- An outline can be read off the line that it fills, so the stage has left the old one.
    have hatoms : (Outline.ofLine settings rest).atoms = gs := by
      have houtline := Outline.ofLine_fill h.respaced
      rw [← hrest] at houtline
      exact congrArg Outline.atoms houtline
    rw [h.scan_text, h.ofLine_eq, hatoms]
  · intro hsame
    rw [Stage.onLine]
    exact if_pos (beq_iff_eq.mpr hsame)

/-! ### Lines that keep their bullets -/

/-- Whether a line has the same bullet, or none, after each of the stages that are turned on. -/
def keepsBullet (settings : Settings) (line : Bytes) : Bool :=
  (Stage.all.filter (Stage.enabled settings)).inits.all fun stages =>
    bulletLength (passStages settings stages line) == bulletLength line

/-- **Stages on a line that keeps its bullet scan its protected text, one after the other**, unless
the line breaks on the way. -/
theorem ofLine_passStages {settings : Settings} (stages : List Stage) {line : Bytes}
    (hscan : needsScan line = true)
    (hbullet : ∀ ss, ss <+: stages → bulletLength (passStages settings ss line) = bulletLength line)
    (hmark : tokenMark ∉ passStages settings stages line) :
    needsScan (passStages settings stages line) = true ∧
      Protected.ofLine settings (passStages settings stages line) =
        ⟨stages.foldl (fun t stage => Scan.line stage settings t)
          (Protected.ofLine settings line).text, (Protected.ofLine settings line).regions⟩ := by
  induction stages generalizing line with
  | nil => exact ⟨hscan, rfl⟩
  | cons stage stages ih =>
    obtain ⟨head, front, regions, rest, gs, h⟩ := exists_passage stage settings hscan
    have hstep : ∀ ss, passStages settings (stage :: ss) line =
        passStages settings ss (stage.onLine settings line) := by
      intro ss
      rw [passStages, List.foldl_cons, Stage.onContent, if_pos hscan]
      rfl
    rw [hstep] at hmark ⊢
    -- A line that is broken by this stage stays broken.
    have hfill : stage.onLine settings line = front ++ (Outline.ofLine settings rest).fill gs := by
      rcases h.onLine_cases with heq | ⟨u, v, heq, -, -⟩
      · exact heq
      · exfalso
        have hbroken : tokenMark ∈ stage.onLine settings line := by
          rw [heq]
          simp
        refine hmark ?_
        rw [passStages_of_not_needsScan settings stages]
        · exact hbroken
        · rw [← Bool.not_eq_true, needsScan_iff]
          exact fun hneeds => hneeds.2.1 hbroken
    have hlength : bulletLength (stage.onLine settings line) = bulletLength line := by
      have hone := hbullet [stage] (by simp)
      rwa [hstep] at hone
    have hscan' : needsScan (stage.onLine settings line) = true := by
      rw [hfill, ← needsScan_respaced h.respaced_line]
      exact hscan
    have hnext := ih hscan' (fun ss hss => ?_) hmark
    · rw [hfill] at hnext hlength ⊢
      rw [h.ofLine_fill hlength] at hnext
      exact hnext
    · rw [← hstep, hbullet (stage :: ss) (by simpa using hss), hlength]

/-! ### Trimming what went through all stages -/

theorem Scan.line_trim_foldl_line_iff {settings : Settings} (hon : settings.trimInside = true)
    {s : Bytes} (hs : Utf8.isValid s = true) :
    Scan.line .trim settings ((Stage.all.filter (Stage.enabled settings)).foldl
        (fun t stage => Scan.line stage settings t) s) =
      (Stage.all.filter (Stage.enabled settings)).foldl
        (fun t stage => Scan.line stage settings t) s ↔
    Scan.clashes settings (Utf8.decode s) = false := by
  rw [Scan.foldl_line settings _ hs, Scan.line_eq_encode .trim settings (Utf8.isValid_encode _),
    Utf8.decode_encode, ← Scan.chars_trim_foldl_chars_iff hon]
  constructor
  · intro h
    have hchars := congrArg Utf8.decode h
    rwa [Utf8.decode_encode, Utf8.decode_encode] at hchars
  · intro h
    rw [h]

/-- Whether a gap of the protected line is cleared by trimming and filled by spacing. -/
def spacesInside (settings : Settings) (line : Bytes) : Bool :=
  Scan.clashes settings (Utf8.decode (Protected.ofLine settings line).text)

theorem passStages_trim_iff {settings : Settings} (hon : settings.trimInside = true) {line : Bytes}
    (hbullet : keepsBullet settings line = true) :
    passStages settings (Stage.all.filter (Stage.enabled settings) ++ [.trim]) line =
        passStages settings (Stage.all.filter (Stage.enabled settings)) line ↔
      (needsScan line = true →
        tokenMark ∈ passStages settings (Stage.all.filter (Stage.enabled settings)) line ∨
          spacesInside settings line = false) := by
  have happend : passStages settings (Stage.all.filter (Stage.enabled settings) ++ [.trim]) line =
      Stage.onContent settings
        (passStages settings (Stage.all.filter (Stage.enabled settings)) line) .trim := by
    rw [passStages, List.foldl_append]
    rfl
  by_cases hscan : needsScan line = true
  · rw [happend]
    by_cases hmark : tokenMark ∈
        passStages settings (Stage.all.filter (Stage.enabled settings)) line
    · have hbroken : ¬ needsScan
          (passStages settings (Stage.all.filter (Stage.enabled settings)) line) = true := by
        rw [needsScan_iff]
        exact fun hneeds => hneeds.2.1 hmark
      rw [Stage.onContent, if_neg hbroken]
      exact ⟨fun _ _ => .inl hmark, fun _ => rfl⟩
    · have hprefixes : ∀ ss, ss <+: Stage.all.filter (Stage.enabled settings) →
          bulletLength (passStages settings ss line) = bulletLength line := fun ss hss =>
        beq_iff_eq.mp (List.all_eq_true.mp hbullet ss (List.mem_inits ss _ |>.mpr hss))
      -- The line is protected as the original one, so that trimming it is trimming the scanned
      -- text.
      obtain ⟨hscan', hform⟩ := ofLine_passStages _ hscan hprefixes hmark
      rw [Stage.onContent, if_pos hscan', Stage.onLine_eq_self_iff .trim hscan', hform]
      rw [Scan.line_trim_foldl_line_iff hon (Protected.isValid_ofLine hscan)]
      simp [hscan, hmark, spacesInside]
  · rw [Bool.not_eq_true] at hscan
    rw [passStages_of_not_needsScan settings _ hscan, passStages_of_not_needsScan settings _ hscan]
    simp [hscan]

/-- **Trimming a formatted document changes nothing exactly when no gap of an open line is cleared
by trimming and filled by spacing.** A line that breaks on the way, because digits stand between its
regions, does not count: it holds a NUL and is left alone. -/
theorem trim_format_iff (settings : Settings) (text : Bytes) (hon : settings.trimInside = true)
    (hbullet : ∀ content ∈ openContents (openLines settings (Line.split text)) (Line.split text),
      keepsBullet settings content = true) :
    Stage.trim.onDocument settings (format settings text) = format settings text ↔
      ∀ content ∈ openContents (openLines settings (Line.split text)) (Line.split text),
        needsScan content = true →
          tokenMark ∈ passStages settings (Stage.all.filter (Stage.enabled settings)) content ∨
            spacesInside settings content = false := by
  have hformat := foldl_onDocument settings (Stage.all.filter (Stage.enabled settings))
    (Line.proper_split text)
  have htrim := foldl_onDocument settings (Stage.all.filter (Stage.enabled settings) ++ [.trim])
    (Line.proper_split text)
  rw [Line.join_split] at hformat htrim
  rw [List.foldl_append] at htrim
  have hjoin : Stage.trim.onDocument settings (format settings text) = format settings text ↔
      List.zipWith (passLine settings (Stage.all.filter (Stage.enabled settings) ++ [.trim]))
          (openLines settings (Line.split text)) (Line.split text) =
        List.zipWith (passLine settings (Stage.all.filter (Stage.enabled settings)))
          (openLines settings (Line.split text)) (Line.split text) := by
    constructor
    · intro h
      rw [← Line.split_join htrim.2, ← Line.split_join hformat.2, ← htrim.1, ← hformat.1]
      exact congrArg Line.split h
    · intro h
      rw [h] at htrim
      exact htrim.1.trans hformat.1.symm
  rw [hjoin, zipWith_passLine_eq_iff]
  exact forall₂_congr fun content hcontent => passStages_trim_iff hon (hbullet content hcontent)

/-- Two documents that can be trimmed after they were formatted. In `**a*中**字*` the second wide
marker closes a span for spacing, which puts a space behind it, and opens one for trimming. In
`*  中*` the space that is put in front of the last star turns a bullet into a marker. -/
theorem trim_format_misnested :
    Settings.standard.trimInside = true ∧
      format Settings.standard (bytes "**a*中**字*") = bytes "**a*中** 字*" ∧
      Stage.trim.onDocument Settings.standard (bytes "**a*中** 字*") = bytes "**a*中**字*" ∧
      format Settings.standard (bytes "*  中*") = bytes "*  中 *" ∧
      Stage.trim.onDocument Settings.standard (bytes "*  中 *") = bytes "*中*" := by
  decide +kernel

/-- An item with two blanks behind its bullet and a padded span. -/
theorem trim_format_item :
    ∃ text : Bytes, Settings.standard.trimInside = true ∧
      (∀ content ∈ openContents (openLines Settings.standard (Line.split text)) (Line.split text),
        keepsBullet Settings.standard content = true) ∧
      format Settings.standard text ≠ text ∧
      Stage.trim.onDocument Settings.standard (format Settings.standard text) =
        format Settings.standard text := by
  let text := bytes "*  ** a **中"
  have hbullet : ∀ content ∈ openContents (openLines Settings.standard (Line.split text))
      (Line.split text), keepsBullet Settings.standard content = true := by decide +kernel
  refine ⟨text, rfl, hbullet, by decide +kernel, ?_⟩
  rw [trim_format_iff Settings.standard text rfl hbullet]
  decide +kernel

end EmphasisSpacing
