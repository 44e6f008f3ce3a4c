import EmphasisSpacing.Proofs.Bullet
import EmphasisSpacing.Proofs.OnePass

/-!
# Formatting twice

Formatting a document again changes nothing (`format_format`), unless a line starts with a star and
two blanks, or has digits and nothing else between two of its regions.

On a line without these, the stages work on the protected text alone: the regions found after a
stage are those found before it, and the text is the one that was scanned (`Steady.passStages`). So
both runs scan one and the same text, and scanning it with all stages a second time changes nothing.

Such a line can be read back from its protected form (`Protected.restore_ofLine`), hence the line
after the second run is the line after the first.
-/

namespace EmphasisSpacing

open LineSymbol Atom

/-! ### All stages on bytes -/

namespace Scan

variable (settings : Settings)

/-- Stages on bytes scan the characters, one stage after the other. -/
theorem foldl_line (stages : List Stage) {s : Bytes} (hs : Utf8.isValid s = true) :
    stages.foldl (fun t stage => line stage settings t) s =
      Utf8.encode (stages.foldl (fun cs stage => chars stage settings cs) (Utf8.decode s)) := by
  induction stages generalizing s with
  | nil => exact (Utf8.encode_decode hs).symm
  | cons stage stages ih =>
    rw [List.foldl_cons, List.foldl_cons, ih (isValid_line stage settings hs),
      decode_line stage settings hs]

theorem foldl_line_encode (stages : List Stage) (cs : List Char) :
    stages.foldl (fun t stage => line stage settings t) (Utf8.encode cs) =
      Utf8.encode (stages.foldl (fun cs stage => chars stage settings cs) cs) := by
  rw [foldl_line settings stages (Utf8.isValid_encode cs), Utf8.decode_encode]

theorem foldl_line_foldl_line {s : Bytes} (hs : Utf8.isValid s = true) :
    (Stage.all.filter (Stage.enabled settings)).foldl (fun t stage => line stage settings t)
        ((Stage.all.filter (Stage.enabled settings)).foldl
          (fun t stage => line stage settings t) s) =
      (Stage.all.filter (Stage.enabled settings)).foldl
        (fun t stage => line stage settings t) s := by
  rw [foldl_line settings _ hs, foldl_line_encode, foldl_chars_foldl_chars]

/-- Stages leave the bytes of a line alone, well formed or not, or write the characters that they
scan. -/
theorem foldl_line_cases (stages : List Stage) (s : Bytes) :
    stages.foldl (fun t stage => line stage settings t) s = s ∨
      stages.foldl (fun t stage => line stage settings t) s =
        Utf8.encode (stages.foldl (fun cs stage => chars stage settings cs) (Utf8.decode s)) := by
  induction stages with
  | nil => exact .inl rfl
  | cons stage stages ih =>
    rw [List.foldl_cons, List.foldl_cons]
    rcases line_cases stage settings s with ⟨hsame, hline⟩ | hline
    · rw [hline, hsame]
      exact ih
    · right
      rw [hline, foldl_line_encode]

/-- The stages that are turned on, one after the other on the bytes of a line as they stand. -/
def enabledStages (s : Bytes) : Bytes :=
  (Stage.all.filter (Stage.enabled settings)).foldl (fun t stage => line stage settings t) s

/-- **The scans are idempotent as a whole, on every line.** A line whose bytes were left alone is left
alone again; any other one was written anew, so it is well formed, and its characters are settled. -/
theorem enabledStages_enabledStages (s : Bytes) :
    enabledStages settings (enabledStages settings s) = enabledStages settings s := by
  rcases foldl_line_cases settings (Stage.all.filter (Stage.enabled settings)) s with hsame | hscan
  · have heq : enabledStages settings s = s := hsame
    rw [heq, heq]
  · have heq : enabledStages settings s = _ := hscan
    rw [heq]
    unfold enabledStages
    rw [foldl_line_encode, foldl_chars_foldl_chars]

end Scan

/-! ### Protected lines can be read back -/

namespace Protected

variable {settings : Settings} {line : Bytes} (hscan : needsScan line = true)

include hscan

theorem isValid_ofLine : Utf8.isValid (ofLine settings line).text = true := by
  obtain ⟨head, front, regions, rest, hframe, rfl, hlength⟩ := exists_frame line
  obtain ⟨-, hvalid⟩ := hframe.scannable_rest hscan
  rw [hframe.ofLine_eq settings hlength, Utf8.isValid_append_of_ascii hframe.ascii_head]
  exact Frame.isValid_text settings regions.length hvalid

/-- **Putting all regions back gives the line**, if no digits join two of them. -/
theorem restore_ofLine (hapart : Apart settings line) :
    restore (ofLine settings line).regions (ofLine settings line).text = line := by
  obtain ⟨head, front, regions, rest, hframe, rfl, hlength⟩ := exists_frame line
  obtain ⟨hmark, -⟩ := hframe.scannable_rest hscan
  have hrest := (hframe.apart_iff settings).mp hapart
  rw [hframe.ofLine_eq settings hlength, hframe.restore_eq_fill settings hmark hrest (.refl _),
    Outline.fill_atoms]

end Protected

/-! ### Lines on which stages work on the protected text alone -/

/-- A line that is scanned, whose regions are apart, and which has at most one blank behind its
leading star. -/
structure Steady (settings : Settings) (line : Bytes) : Prop where
  scan : needsScan line = true
  apart : Apart settings line
  narrow : padding line ≤ 1

namespace Steady

variable {settings : Settings} {line : Bytes}

theorem onContent (h : Steady settings line) (stage : Stage) :
    Steady settings (Stage.onContent settings line stage) ∧
      Protected.ofLine settings (Stage.onContent settings line stage) =
        ⟨Scan.line stage settings (Protected.ofLine settings line).text,
          (Protected.ofLine settings line).regions⟩ := by
  obtain ⟨hscan, hapart, hnarrow⟩ := h
  obtain ⟨head, front, regions, rest, gs, hpass⟩ := exists_passage stage settings hscan
  have hfill := hpass.onLine_eq_fill hapart
  rw [Stage.onContent, if_pos hscan]
  obtain ⟨hlength, hnarrow'⟩ := hpass.bulletLength_fill hnarrow
  rw [hfill]
  refine ⟨⟨?_, ?_, hnarrow'⟩, hpass.ofLine_fill hlength⟩
  · rw [← needsScan_respaced hpass.respaced_line]
    exact hscan
  · rw [← hpass.fill_eq]
    exact apart_fill hapart hpass.respaced_outline

/-- **Stages on such a line scan its protected text, one after the other.** -/
theorem passStages (h : Steady settings line) (stages : List Stage) :
    Steady settings (passStages settings stages line) ∧
      Protected.ofLine settings (EmphasisSpacing.passStages settings stages line) =
        ⟨stages.foldl (fun t stage => Scan.line stage settings t)
          (Protected.ofLine settings line).text, (Protected.ofLine settings line).regions⟩ := by
  induction stages generalizing line with
  | nil => exact ⟨h, rfl⟩
  | cons stage stages ih =>
    obtain ⟨hstep, hform⟩ := h.onContent stage
    have hrest := ih hstep
    rw [hform] at hrest
    exact hrest

/-- Lines with the same protected form are the same. -/
theorem eq_of_ofLine_eq {line' : Bytes} (h : Steady settings line) (h' : Steady settings line')
    (heq : Protected.ofLine settings line = Protected.ofLine settings line') : line = line' := by
  rw [← Protected.restore_ofLine h.scan h.apart, heq, Protected.restore_ofLine h'.scan h'.apart]

end Steady

/-! ### All stages twice -/

/-- A line that went through all stages stays as it is. -/
theorem passStages_append_self {settings : Settings} {line : Bytes}
    (hwide : opensWide line = false) (hjoin : regionsJoined settings line = false) :
    passStages settings (Stage.all.filter (Stage.enabled settings) ++
        Stage.all.filter (Stage.enabled settings)) line =
      passStages settings (Stage.all.filter (Stage.enabled settings)) line := by
  by_cases hscan : needsScan line = true
  · have h : Steady settings line :=
      ⟨hscan, apart_of_not_regionsJoined hscan hjoin, padding_le_one_of_not_opensWide hwide⟩
    obtain ⟨honce, hform⟩ := h.passStages (Stage.all.filter (Stage.enabled settings))
    obtain ⟨htwice, hform'⟩ := h.passStages (Stage.all.filter (Stage.enabled settings) ++
      Stage.all.filter (Stage.enabled settings))
    refine htwice.eq_of_ofLine_eq honce ?_
    rw [hform, hform', List.foldl_append,
      Scan.foldl_line_foldl_line settings (Protected.isValid_ofLine hscan)]
  · rw [Bool.not_eq_true] at hscan
    rw [passStages_of_not_needsScan settings _ hscan, passStages_of_not_needsScan settings _ hscan]

/-- **Formatting is idempotent** on documents in which no line starts with a star and two blanks,
blanks in front of the star apart, and no line has digits and nothing else between two neighbouring
regions. -/
theorem format_format (settings : Settings) (text : Bytes)
    (hwide : ∀ l ∈ Line.split text, opensWide l.content = false)
    (hjoin : ∀ l ∈ Line.split text, regionsJoined settings l.content = false) :
    format settings (format settings text) = format settings text := by
  have honce := foldl_onDocument settings (Stage.all.filter (Stage.enabled settings))
    (Line.proper_split text)
  have htwice := foldl_onDocument settings (Stage.all.filter (Stage.enabled settings) ++
    Stage.all.filter (Stage.enabled settings)) (Line.proper_split text)
  have hlines := (zipWith_passLine_eq_iff settings _ _ (openLines settings (Line.split text))
    (Line.split text)).mpr fun content hcontent => by
      obtain ⟨l, hl, rfl⟩ := exists_of_mem_openContents hcontent
      exact passStages_append_self (hwide l hl) (hjoin l hl)
  rw [Line.join_split] at honce htwice
  rw [List.foldl_append, hlines, ← honce.1] at htwice
  exact htwice.1

/-- An item with mis-nested markers, the text `* **a*中**字*`: the first run puts a space in front of
the last character, which trimming alone would take away again. -/
theorem format_format_misnested :
    ∃ text : Bytes, (∀ l ∈ Line.split text, opensWide l.content = false) ∧
      (∀ l ∈ Line.split text, regionsJoined Settings.standard l.content = false) ∧
      format Settings.standard text ≠ text ∧
      format Settings.standard (format Settings.standard text) = format Settings.standard text := by
  let text := bytes "* **a*中**字*"
  have hwide : ∀ l ∈ Line.split text, opensWide l.content = false := by decide
  have hjoin : ∀ l ∈ Line.split text, regionsJoined Settings.standard l.content = false := by
    decide +kernel
  exact ⟨text, hwide, hjoin, by decide +kernel, format_format Settings.standard text hwide hjoin⟩

end EmphasisSpacing
