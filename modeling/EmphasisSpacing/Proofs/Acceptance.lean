import EmphasisSpacing.Proofs.Refusal
import EmphasisSpacing.Proofs.Respacing

/-!
# Accepting what was formatted

A document is accepted when it is well formed, holds no NUL, and is short or has few control
characters for its length (`textFault?_eq_none_iff`).

Formatting keeps the first two, unless digits between two regions of a line break the line
(`format_respaced_or_broken`), and it keeps the number of control characters, but it changes the
length. So a formatted document can be refused because it became long enough for its control
characters to count, or too short for as many of them; nothing else gets it refused
(`textFault?_format_eq_none_iff`).
-/

namespace EmphasisSpacing

open LineSymbol

/-! ### What is accepted -/

/-- The number of control characters of a document. -/
def controlCount (s : Bytes) : Nat :=
  (Utf8.decode s).countP fun c => CodePoint.isControl (codeOf c)

theorem controlCount_encode (cs : List Char) :
    controlCount (Utf8.encode cs) = cs.countP fun c => decide (TextFault.IsControl c) := by
  rw [controlCount, Utf8.decode_encode]
  exact List.countP_congr fun c _ => by rw [TextFault.isControl_eq]

/-- **A document is accepted** exactly when it is well formed, holds no NUL, and does not hold too
many control characters. -/
theorem textFault?_eq_none_iff (s : Bytes) :
    textFault? s = none ↔ Utf8.isValid s = true ∧ tokenMark ∉ s ∧
      TextFault.tooManyControls (controlCount s) s.length = false := by
  rw [textFault?_eq_none_iff_encode, ← Bool.not_eq_true, TextFault.tooManyControls_iff]
  constructor
  · rintro ⟨cs, rfl, hnul, hfew⟩
    rw [controlCount_encode]
    exact ⟨Utf8.isValid_encode cs, fun hmem => hnul (Utf8.nul_mem_encode_iff.mp hmem), hfew⟩
  · rintro ⟨hvalid, hmark, hfew⟩
    refine ⟨Utf8.decode s, (Utf8.encode_decode hvalid).symm, fun hnul => hmark ?_, ?_⟩
    · rw [← Utf8.encode_decode hvalid]
      exact Utf8.nul_mem_encode_iff.mpr hnul
    · rw [← Utf8.encode_decode hvalid, controlCount_encode, Utf8.encode_decode hvalid] at hfew
      exact hfew

/-! ### Documents with respaced lines -/

/-- Moving blanks in the lines of a document moves blanks in the document, since terminators keep
the lines apart. -/
theorem respaced_join {ls ls' : List Line}
    (h : List.Forall₂ (fun l l' => l'.ending = l.ending ∧ Respaced l.content l'.content) ls ls')
    (hls : Line.Proper ls) : Respaced (Line.join ls) (Line.join ls') := by
  induction h with
  | nil => exact .refl _
  | @cons l l' ls ls' hl hrest ih =>
    obtain ⟨-, hlast, hproper⟩ := hls
    obtain ⟨content, ending⟩ := l
    obtain ⟨content', ending'⟩ := l'
    obtain ⟨rfl, hcontent⟩ := hl
    have hjoin : ∀ (c : Bytes) (ms : List Line),
        Line.join (⟨c, ending'⟩ :: ms) = c ++ (ending'.bytes ++ Line.join ms) := by
      intro c ms
      simp [Line.join, Line.bytes]
    rw [hjoin, hjoin]
    cases ending' with
    | none =>
      -- Only the last line can end with nothing.
      have hnil : ls = [] := by
        by_contra hne
        exact hlast hne rfl
      subst hnil
      cases hrest
      exact hcontent.append_right rfl
    | lf =>
      refine (hcontent.append_right rfl).trans ?_
      rw [← List.append_assoc, ← List.append_assoc]
      exact (ih hproper).append_left (starsBehind_concat content' Bytes.lf)
    | crlf =>
      refine (hcontent.append_right rfl).trans ?_
      have hbehind : starsBehind (content' ++ Ending.crlf.bytes) = false := by
        rw [show content' ++ Ending.crlf.bytes = content' ++ [Bytes.cr] ++ [Bytes.lf] by
          simp [Ending.bytes], starsBehind_concat]
        rfl
      rw [← List.append_assoc, ← List.append_assoc]
      exact (ih hproper).append_left hbehind

/-- Any stages respace a line or leave a NUL in it. -/
theorem passStages_respaced_or_mark (settings : Settings) (stages : List Stage) (line : Bytes) :
    Respaced line (passStages settings stages line) ∨
      tokenMark ∈ passStages settings stages line := by
  induction stages generalizing line with
  | nil => exact .inl (.refl line)
  | cons stage stages ih =>
    by_cases hscan : needsScan line = true
    · have hstep : passStages settings (stage :: stages) line =
          passStages settings stages (stage.onLine settings line) := by
        rw [passStages, List.foldl_cons, Stage.onContent, if_pos hscan]
        rfl
      rw [hstep]
      obtain ⟨t, ht, heq | ⟨u, v, heq, -, -⟩⟩ := (stage.reworked settings hscan).cases
      · rw [heq]
        exact (ih t).imp_left ht.trans
      · -- A broken line is left as it is.
        right
        have hmark : tokenMark ∈ stage.onLine settings line := by
          rw [heq]
          simp
        rw [passStages_of_not_needsScan]
        · exact hmark
        · rw [← Bool.not_eq_true, needsScan_iff]
          exact fun hneeds => hneeds.2.1 hmark
    · rw [Bool.not_eq_true] at hscan
      rw [passStages_of_not_needsScan settings _ hscan]
      exact .inl (.refl line)

/-- Without digits between regions, any stages respace a line. -/
theorem passStages_respaced {settings : Settings} (stages : List Stage) {line : Bytes}
    (hjoin : regionsJoined settings line = false) :
    Respaced line (passStages settings stages line) := by
  by_cases hscan : needsScan line = true
  · obtain ⟨as, has, hpass⟩ :=
      exists_passStages_eq_fill hscan (apart_of_not_regionsJoined hscan hjoin) stages
    rw [hpass]
    exact Outline.respaced_fill has
  · rw [Bool.not_eq_true] at hscan
    rw [passStages_of_not_needsScan settings _ hscan]
    exact .refl line

/-- **Formatting moves blanks next to stars**, if it leaves no NUL or no line has digits and nothing
else between two neighbouring regions. -/
theorem respaced_format {settings : Settings} {text : Bytes}
    (h : tokenMark ∉ format settings text ∨
      ∀ l ∈ Line.split text, regionsJoined settings l.content = false) :
    Respaced text (format settings text) := by
  have hrun := foldl_onDocument settings (Stage.all.filter (Stage.enabled settings))
    (Line.proper_split text)
  rw [Line.join_split] at hrun
  have hformat : format settings text = _ := hrun.1
  rw [hformat] at h ⊢
  conv_lhs => rw [← Line.join_split text]
  refine respaced_join (forall₂_passLine settings _ (length_openLines settings _)
    fun isOpen l hl hmem => ?_) (Line.proper_split text)
  cases isOpen with
  | false => exact ⟨rfl, .refl _⟩
  | true =>
    refine ⟨rfl, ?_⟩
    rcases h with hmark | hjoin
    · refine (passStages_respaced_or_mark settings _ l.content).resolve_right fun hbroken => ?_
      refine hmark (List.mem_flatMap.mpr ⟨_, hmem, ?_⟩)
      exact List.mem_append_left _ hbroken
    · exact passStages_respaced _ (hjoin l hl)

/-- Control characters are no blanks, so as many of them stay. -/
theorem controlCount_respaced {s t : Bytes} (h : Respaced s t) :
    controlCount s = controlCount t := by
  have hfilter : ∀ cs : List Char, cs.countP (fun c => CodePoint.isControl (codeOf c)) =
      (cs.filter fun c => !Scan.isBlank c).countP fun c => CodePoint.isControl (codeOf c) := by
    intro cs
    rw [List.countP_filter]
    refine List.countP_congr fun c _ => ?_
    rw [Bool.and_eq_true, Bool.not_eq_true']
    refine ⟨fun hc => ⟨hc, ?_⟩, fun hc => hc.1⟩
    rw [← Bool.not_eq_true]
    intro hblank
    rcases Bool.or_eq_true_iff.mp hblank with hb | hb <;> rw [beq_iff_eq.mp hb] at hc <;>
      exact absurd hc (by decide)
  rw [controlCount, controlCount, hfilter, hfilter (Utf8.decode t), filter_decode_respaced h]

/-! ### Formatted documents -/

/-- **When a formatted document is accepted.** If the document was accepted, the formatted one is as
well, unless it holds a NUL, or it has at least 64 bytes and the control characters of the document
make up two percent of them or more. It holds no NUL if no line has digits and nothing else between
two neighbouring regions. -/
theorem textFault?_format_eq_none_iff (settings : Settings) (text : Bytes)
    (h : textFault? text = none) :
    (textFault? (format settings text) = none ↔
      tokenMark ∉ format settings text ∧
        ¬ (64 ≤ (format settings text).length ∧
          2 * (format settings text).length ≤ 100 * controlCount text)) ∧
      ((∀ l ∈ Line.split text, regionsJoined settings l.content = false) →
        tokenMark ∉ format settings text) := by
  obtain ⟨hvalid, hmark, -⟩ := (textFault?_eq_none_iff text).mp h
  have hcontrols : ∀ controls length : Nat,
      TextFault.tooManyControls controls length = false ↔
        ¬ (64 ≤ length ∧ 2 * length ≤ 100 * controls) := by
    intro controls length
    rw [← Bool.not_eq_true, TextFault.tooManyControls, Bool.and_eq_true, decide_eq_true_eq,
      decide_eq_true_eq, TextFault.minSample, TextFault.maxControlPercent, Nat.mul_comm length,
      Nat.mul_comm controls]
  constructor
  · rw [textFault?_eq_none_iff, hcontrols]
    constructor
    · rintro ⟨-, hclean, hfew⟩
      rw [controlCount_respaced (respaced_format (.inl hclean))]
      exact ⟨hclean, hfew⟩
    · rintro ⟨hclean, hfew⟩
      have hrespaced := respaced_format (.inl hclean)
      rw [← controlCount_respaced hrespaced, ← Utf8.isValid_respaced hrespaced]
      exact ⟨hvalid, hclean, hfew⟩
  · intro hjoin
    rw [← (respaced_format (.inr hjoin)).mem_iff (by decide)]
    exact hmark

/-- Three documents that are accepted before they are formatted and refused afterwards. The first
one, `中**粗**` with two control characters and 51 letters, grows from 63 to 64 bytes. The second one
shrinks from 101 to 100 bytes. The third one, ``` `a`1`b`** c** ```, has a digit between two regions
and keeps a NUL. -/
theorem textFault?_format_refused :
    [bytes "中**粗**\x01\x01" ++ List.replicate 51 0x61,
        bytes "** a**\x01\x01" ++ List.replicate 93 0x61, bytes "`a`1`b`** c**"].map
      (fun text => (textFault? text, textFault? (format Settings.standard text))) =
    List.replicate 3 (none, some .binary) := by
  decide +kernel

/-- A padded span and a control character in 67 bytes, of which one is dropped. -/
theorem textFault?_format_padded :
    ∃ text : Bytes, textFault? text = none ∧ format Settings.standard text ≠ text ∧
      64 ≤ (format Settings.standard text).length ∧ controlCount text = 1 ∧
      textFault? (format Settings.standard text) = none := by
  let text := bytes "** a**\x01" ++ List.replicate 60 0x61
  have htext : textFault? text = none := by decide +kernel
  have hjoin : ∀ l ∈ Line.split text, regionsJoined Settings.standard l.content = false := by
    decide +kernel
  have hformat := textFault?_format_eq_none_iff Settings.standard text htext
  refine ⟨text, htext, by decide +kernel, by decide +kernel, by decide +kernel, ?_⟩
  exact hformat.1.mpr ⟨hformat.2 hjoin, by decide +kernel⟩

end EmphasisSpacing
