import EmphasisSpacing.Proofs.Blocks
import EmphasisSpacing.Proofs.Lines

/-!
# Formatting in one pass

Every stage finds front matter and blocks anew, in what the stage before has left. That makes no
difference: which lines are open can be read off the original document once, and then every open
line can go through all stages on its own (`format_eq_join_onePass`).

The reason is that a stage rewrites open lines only, and a rewritten line counts for front matter
and blocks as the original one did (`Reworked`).
-/

namespace EmphasisSpacing

/-! ### Which lines are open -/

/-- Which of the lines behind the front matter are open; the first one lies in the given block. -/
def openFrom (settings : Settings) : Block.State → List Line → List Bool
  | _, [] => []
  | state, l :: ls =>
    (Block.step settings state l.content).2 ::
      openFrom settings (Block.step settings state l.content).1 ls

/-- How many lines are passed over as front matter. -/
def frontLines (settings : Settings) (lines : List Line) : Nat :=
  if settings.skipFrontMatter then FrontMatter.lineCount lines else 0

/-- Which lines of a document are open. -/
def openLines (settings : Settings) (lines : List Line) : List Bool :=
  List.replicate (frontLines settings lines) false ++
    openFrom settings .text (lines.drop (frontLines settings lines))

/-! ### One line on its own -/

/-- One stage on the content of an open line. -/
def Stage.onContent (settings : Settings) (content : Bytes) (stage : Stage) : Bytes :=
  if needsScan content then stage.onLine settings content else content

/-- The given stages, one after the other, on the content of an open line. -/
def passStages (settings : Settings) (stages : List Stage) (content : Bytes) : Bytes :=
  stages.foldl (Stage.onContent settings) content

/-- A line with its content passed through the given stages, if the line is open. -/
def passLine (settings : Settings) (stages : List Stage) (isOpen : Bool) (l : Line) : Line :=
  if isOpen then ⟨passStages settings stages l.content, l.ending⟩ else l

/-- The lines of a document, each passed through the stages that are turned on. -/
def onePass (settings : Settings) (lines : List Line) : List Line :=
  List.zipWith (passLine settings (Stage.all.filter (Stage.enabled settings)))
    (openLines settings lines) lines

@[simp]
theorem passLine_false (settings : Settings) (stages : List Stage) (l : Line) :
    passLine settings stages false l = l := rfl

theorem passStages_of_not_needsScan (settings : Settings) (stages : List Stage) {content : Bytes}
    (h : needsScan content = false) : passStages settings stages content = content := by
  induction stages with
  | nil => rfl
  | cons stage stages ih =>
    have hone : Stage.onContent settings content stage = content := by
      rw [Stage.onContent, h]
      rfl
    rw [passStages, List.foldl_cons, hone]
    exact ih

/-! ### What one stage keeps -/

/-- A line that was left alone or rewritten. -/
def Kept (l l' : Line) : Prop :=
  l' = l ∨ l'.ending = l.ending ∧ Reworked l.content l'.content

theorem kept_passLine (settings : Settings) (stage : Stage) (isOpen : Bool) (l : Line) :
    Kept l (passLine settings [stage] isOpen l) := by
  cases isOpen with
  | false => exact .inl rfl
  | true =>
    by_cases hscan : needsScan l.content = true
    · right
      refine ⟨rfl, ?_⟩
      show Reworked l.content (Stage.onContent settings l.content stage)
      rw [Stage.onContent, if_pos hscan]
      exact stage.reworked settings hscan
    · left
      rw [Bool.not_eq_true] at hscan
      show Line.mk (passStages settings [stage] l.content) l.ending = l
      rw [passStages_of_not_needsScan settings _ hscan]

theorem Kept.fits {l l' : Line} (h : Kept l l') (hl : l.Fits) : l'.Fits := by
  rcases h with rfl | ⟨hending, hrework⟩
  · exact hl
  refine ⟨fun hlf => hl.1 (hrework.mem _ hlf (by decide) (by decide)), ?_⟩
  rw [hending]
  have hfit := hl.2
  cases hcase : l.ending with
  | none =>
    rintro hnil
    rw [hnil] at hrework
    rcases hrework.star_or_mark with h | h <;> cases h
  | lf =>
    rw [hcase] at hfit
    exact fun hcr => hfit (hrework.last hcr)
  | crlf => trivial

theorem Kept.ending_eq {l l' : Line} (h : Kept l l') : l'.ending = l.ending := by
  rcases h with rfl | ⟨hending, -⟩
  · rfl
  · exact hending

theorem proper_of_kept {ls ls' : List Line} (h : List.Forall₂ Kept ls ls') (hls : Line.Proper ls) :
    Line.Proper ls' := by
  induction h with
  | nil => trivial
  | @cons l l' ls ls' hl hrest ih =>
    obtain ⟨hfits, hlast, hproper⟩ := hls
    refine ⟨hl.fits hfits, fun hne => ?_, ih hproper⟩
    rw [hl.ending_eq]
    refine hlast fun hnil => hne ?_
    subst hnil
    cases hrest
    rfl

/-! ### Blocks are found where they were -/

theorem openFrom_passLine (settings : Settings) (stage : Stage) (state : Block.State)
    (ls : List Line) :
    openFrom settings state
        (List.zipWith (passLine settings [stage]) (openFrom settings state ls) ls) =
      openFrom settings state ls := by
  induction ls generalizing state with
  | nil => rfl
  | cons l ls ih =>
    have hstep : Block.step settings state
        (passLine settings [stage] (Block.step settings state l.content).2 l).content =
          Block.step settings state l.content := by
      cases hopen : (Block.step settings state l.content).2 with
      | false => rfl
      | true =>
        rcases kept_passLine settings stage true l with heq | ⟨-, hrework⟩
        · rw [heq]
        · exact hrework.step_eq hopen
    rw [openFrom, List.zipWith_cons_cons, openFrom, hstep, ih]

theorem onLines_eq (settings : Settings) (stage : Stage) (state : Block.State) (ls : List Line) :
    stage.onLines settings state ls =
      List.zipWith (passLine settings [stage]) (openFrom settings state ls) ls := by
  induction ls generalizing state with
  | nil => rfl
  | cons l ls ih =>
    rw [openFrom, List.zipWith_cons_cons, Stage.onLines]
    generalize Block.step settings state l.content = r
    obtain ⟨state', isOpen⟩ := r
    dsimp only
    rw [ih]
    cases isOpen <;> simp [passLine, passStages, Stage.onContent]

theorem length_openFrom (settings : Settings) (state : Block.State) (ls : List Line) :
    (openFrom settings state ls).length = ls.length := by
  induction ls generalizing state with
  | nil => rfl
  | cons l ls ih => rw [openFrom, List.length_cons, List.length_cons, ih]

/-! ### Front matter is found where it was -/

namespace FrontMatter

theorem closing?_le {delim : Bytes} {ls : List Line} {n : Nat} (h : closing? delim ls = some n) :
    n ≤ ls.length := by
  induction ls generalizing n with
  | nil => cases h
  | cons l ls ih =>
    rw [closing?] at h
    split_ifs at h with hdelim
    · cases h
      simp
    · obtain ⟨m, hm, rfl⟩ := Option.map_eq_some_iff.mp h
      exact Nat.succ_le_succ (ih hm)

/-- The lines behind the closing delimiter do not matter. -/
theorem closing?_take_append {delim : Bytes} {ls : List Line} {n : Nat}
    (h : closing? delim ls = some n) (ls' : List Line) :
    closing? delim (ls.take n ++ ls') = some n := by
  induction ls generalizing n with
  | nil => cases h
  | cons l ls ih =>
    rw [closing?] at h
    split_ifs at h with hdelim
    · cases h
      simp [closing?, hdelim]
    · obtain ⟨m, hm, rfl⟩ := Option.map_eq_some_iff.mp h
      simp [closing?, hdelim, ih hm]

/-- What front matter consists of. -/
theorem lineCount_cases (ls : List Line) :
    lineCount ls = 0 ∨ ∃ first second rest delim n, ls = first :: second :: rest ∧
      opening? first.content = some delim ∧ looksLikeMetadata second.content = true ∧
      closing? delim rest = some n ∧ lineCount ls = n + 2 := by
  match ls with
  | [] => exact .inl rfl
  | [_] => exact .inl rfl
  | first :: second :: rest =>
    cases hopen : opening? first.content with
    | none => exact .inl (by simp [lineCount, hopen])
    | some delim =>
      cases hmeta : looksLikeMetadata second.content with
      | false => exact .inl (by simp [lineCount, hopen, hmeta])
      | true =>
        cases hclose : closing? delim rest with
        | none => exact .inl (by simp [lineCount, hopen, hmeta, hclose])
        | some n =>
          exact .inr ⟨first, second, rest, delim, n, rfl, hopen, hmeta, hclose,
            by simp [lineCount, hopen, hmeta, hclose]⟩

theorem lineCount_le (ls : List Line) : lineCount ls ≤ ls.length := by
  rcases lineCount_cases ls with h | ⟨first, second, rest, delim, n, rfl, -, -, hclose, h⟩
  · rw [h]
    exact Nat.zero_le _
  · rw [h]
    exact Nat.succ_le_succ (Nat.succ_le_succ (closing?_le hclose))

/-- The lines behind the front matter do not matter for it. -/
theorem lineCount_take_append {ls : List Line} (h : lineCount ls ≠ 0) (ls' : List Line) :
    lineCount (ls.take (lineCount ls) ++ ls') = lineCount ls := by
  rcases lineCount_cases ls with h' | ⟨first, second, rest, delim, n, rfl, hopen, hmeta, hclose, hn⟩
  · exact absurd h' h
  · rw [hn]
    simp [lineCount, hopen, hmeta, closing?_take_append hclose]

theorem delim_mem_of_opening? {line delim : Bytes} (h : opening? line = some delim) :
    delim ∈ delimiters := by
  rw [opening?] at h
  split_ifs at h with hmem
  cases h
  exact List.contains_iff_mem.mp hmem

theorem closing?_eq_none_of_kept {delim : Bytes} (hdelim : delim ∈ delimiters)
    {ls ls' : List Line} (h : List.Forall₂ Kept ls ls') (hnone : closing? delim ls = none) :
    closing? delim ls' = none := by
  induction h with
  | nil => rfl
  | @cons l l' ls ls' hl _ ih =>
    rw [closing?] at hnone
    split_ifs at hnone with hcond
    have hrest := ih (Option.map_eq_none_iff.mp hnone)
    have hne : (WhiteSpace.trim l'.content == delim) = false := by
      rcases hl with rfl | ⟨-, hrework⟩
      · simpa using hcond
      · refine beq_eq_false_iff_ne.mpr fun heq => ?_
        exact trim_notMem_delimiters hrework.star_or_mark (heq ▸ hdelim)
    rw [closing?, hne, hrest]
    rfl

/-- Rewriting lines of a document without front matter makes none. -/
theorem lineCount_eq_zero_of_kept {ls ls' : List Line} (h : List.Forall₂ Kept ls ls')
    (hzero : lineCount ls = 0) : lineCount ls' = 0 := by
  rcases lineCount_cases ls' with
    h' | ⟨first', second', rest', delim, n, rfl, hopen, hmeta, hclose, -⟩
  · exact h'
  exfalso
  cases h with
  | @cons first _ _ _ hfirst h =>
    cases h with
    | @cons second _ rest _ hsecond hrest =>
      -- The first line is a delimiter, so it was not rewritten.
      have hsame : first = first' := by
        rcases hfirst with rfl | ⟨-, hrework⟩
        · rfl
        · rw [opening?_eq_none hrework.star_or_mark] at hopen
          cases hopen
      subst hsame
      have hmeta' : looksLikeMetadata second.content = true := by
        rcases hsecond with rfl | ⟨-, hrework⟩
        · exact hmeta
        · exact hrework.looksLikeMetadata hmeta
      cases hclose' : closing? delim rest with
      | none =>
        rw [closing?_eq_none_of_kept (delim_mem_of_opening? hopen) hrest hclose'] at hclose
        cases hclose
      | some m => simp [lineCount, hopen, hmeta', hclose'] at hzero

end FrontMatter

/-! ### One stage in one pass -/

theorem frontLines_le (settings : Settings) (ls : List Line) :
    frontLines settings ls ≤ ls.length := by
  rw [frontLines]
  split_ifs
  · exact FrontMatter.lineCount_le ls
  · exact Nat.zero_le _

theorem length_openLines (settings : Settings) (ls : List Line) :
    (openLines settings ls).length = ls.length := by
  have h := frontLines_le settings ls
  rw [openLines, List.length_append, List.length_replicate, length_openFrom, List.length_drop]
  omega

theorem zipWith_replicate_false (settings : Settings) (stages : List Stage) (mask : List Bool)
    {k : Nat} {ls : List Line} (hk : k ≤ ls.length) :
    List.zipWith (passLine settings stages) (List.replicate k false ++ mask) ls =
      ls.take k ++ List.zipWith (passLine settings stages) mask (ls.drop k) := by
  induction k generalizing ls with
  | zero => rfl
  | succ k ih =>
    cases ls with
    | nil => simp at hk
    | cons l ls =>
      rw [List.replicate_succ, List.cons_append, List.zipWith_cons_cons,
        ih (Nat.le_of_succ_le_succ hk)]
      rfl

/-- What holds for each line and what it becomes holds for the lines of a document. -/
theorem forall₂_passLine {R : Line → Line → Prop} (settings : Settings) (stages : List Stage)
    {mask : List Bool} {ls : List Line} (hlen : mask.length = ls.length)
    (h : ∀ (isOpen : Bool), ∀ l ∈ ls,
      passLine settings stages isOpen l ∈ List.zipWith (passLine settings stages) mask ls →
        R l (passLine settings stages isOpen l)) :
    List.Forall₂ R ls (List.zipWith (passLine settings stages) mask ls) := by
  induction ls generalizing mask with
  | nil => simp
  | cons l ls ih =>
    cases mask with
    | nil => simp at hlen
    | cons isOpen mask =>
      rw [List.zipWith_cons_cons] at h ⊢
      refine .cons (h isOpen l (List.mem_cons_self ..) (List.mem_cons_self ..)) ?_
      exact ih (by simpa using hlen) fun isOpen' l' hl' hmem =>
        h isOpen' l' (List.mem_cons_of_mem _ hl') (List.mem_cons_of_mem _ hmem)

theorem forall₂_kept (settings : Settings) (stage : Stage) {mask : List Bool} {ls : List Line}
    (hlen : mask.length = ls.length) :
    List.Forall₂ Kept ls (List.zipWith (passLine settings [stage]) mask ls) :=
  forall₂_passLine settings [stage] hlen fun isOpen l _ _ => kept_passLine settings stage isOpen l

/-- One stage on a document, in one pass. -/
theorem onDocument_join (settings : Settings) (stage : Stage) {ls : List Line}
    (hls : Line.Proper ls) :
    stage.onDocument settings (Line.join ls) =
      Line.join (List.zipWith (passLine settings [stage]) (openLines settings ls) ls) := by
  rw [Stage.onDocument, Line.split_join hls, onLines_eq, openLines,
    zipWith_replicate_false settings [stage] _ (frontLines_le settings ls)]
  rfl

/-- Rewriting lines behind the front matter leaves it as it is, and makes none. -/
theorem frontLines_of_kept (settings : Settings) {ls ls' : List Line}
    (hkept : List.Forall₂ Kept ls ls')
    (htake : ls'.take (frontLines settings ls) = ls.take (frontLines settings ls)) :
    frontLines settings ls' = frontLines settings ls := by
  cases hskip : settings.skipFrontMatter with
  | false => simp [frontLines, hskip]
  | true =>
    have hcount : ∀ ls'', frontLines settings ls'' = FrontMatter.lineCount ls'' := fun ls'' => by
      simp [frontLines, hskip]
    rw [hcount] at htake
    rw [hcount, hcount]
    by_cases hzero : FrontMatter.lineCount ls = 0
    · rw [hzero]
      exact FrontMatter.lineCount_eq_zero_of_kept hkept hzero
    · rw [← List.take_append_drop (FrontMatter.lineCount ls) ls', htake]
      exact FrontMatter.lineCount_take_append hzero _

/-- **The lines that are open stay the same.** -/
theorem openLines_passLine (settings : Settings) (stage : Stage) (ls : List Line) :
    openLines settings (List.zipWith (passLine settings [stage]) (openLines settings ls) ls) =
      openLines settings ls := by
  have hle := frontLines_le settings ls
  have hkept := forall₂_kept settings stage (length_openLines settings ls)
  have hsplit := zipWith_replicate_false settings [stage]
    (openFrom settings .text (ls.drop (frontLines settings ls))) hle
  rw [← openLines] at hsplit
  have hlen : (ls.take (frontLines settings ls)).length = frontLines settings ls := by
    rw [List.length_take]
    omega
  -- Front matter is closed, so the pass leaves its lines alone and it ends where it did.
  have hfront : frontLines settings
      (List.zipWith (passLine settings [stage]) (openLines settings ls) ls) =
        frontLines settings ls := by
    refine frontLines_of_kept settings hkept ?_
    rw [hsplit, List.take_append_of_le_length (by omega), List.take_of_length_le (by omega)]
  have hdrop : (List.zipWith (passLine settings [stage]) (openLines settings ls) ls).drop
      (frontLines settings ls) = List.zipWith (passLine settings [stage])
        (openFrom settings .text (ls.drop (frontLines settings ls)))
        (ls.drop (frontLines settings ls)) := by
    rw [hsplit, List.drop_append_of_le_length (by rw [hlen]), List.drop_take_self, List.nil_append]
  rw [openLines, hfront, hdrop, openFrom_passLine]
  rfl

/-! ### All stages in one pass -/

theorem passLine_passLine (settings : Settings) (stage : Stage) (stages : List Stage)
    (isOpen : Bool) (l : Line) :
    passLine settings stages isOpen (passLine settings [stage] isOpen l) =
      passLine settings (stage :: stages) isOpen l := by
  cases isOpen <;> rfl

theorem zipWith_passLine (settings : Settings) (stage : Stage) (stages : List Stage)
    (mask : List Bool) (ls : List Line) :
    List.zipWith (passLine settings stages) mask
        (List.zipWith (passLine settings [stage]) mask ls) =
      List.zipWith (passLine settings (stage :: stages)) mask ls := by
  induction mask generalizing ls with
  | nil => rfl
  | cons isOpen mask ih =>
    cases ls with
    | nil => rfl
    | cons l ls => simp only [List.zipWith_cons_cons, passLine_passLine, ih]

/-- Any stages, one after the other over the whole document, do what they do line by line. -/
theorem foldl_onDocument (settings : Settings) (stages : List Stage) {ls : List Line}
    (hls : Line.Proper ls) :
    stages.foldl (fun t stage => stage.onDocument settings t) (Line.join ls) =
        Line.join (List.zipWith (passLine settings stages) (openLines settings ls) ls) ∧
      Line.Proper (List.zipWith (passLine settings stages) (openLines settings ls) ls) := by
  induction stages generalizing ls with
  | nil =>
    have hself : ∀ (mask : List Bool) (ls : List Line), mask.length = ls.length →
        List.zipWith (passLine settings []) mask ls = ls := by
      intro mask
      induction mask with
      | nil => intro ls h; exact (List.length_eq_zero_iff.mp h.symm).symm
      | cons isOpen mask ih =>
        intro ls h
        cases ls with
        | nil => simp at h
        | cons l ls =>
          rw [List.zipWith_cons_cons, ih ls (by simpa using h)]
          cases isOpen <;> rfl
    rw [hself _ _ (length_openLines settings ls)]
    exact ⟨rfl, hls⟩
  | cons stage stages ih =>
    have hkept := forall₂_kept settings stage (length_openLines settings ls)
    -- The next stages find the same lines open, so what they do adds up line by line.
    have hrest := ih (proper_of_kept hkept hls)
    rw [openLines_passLine, zipWith_passLine] at hrest
    rw [List.foldl_cons, onDocument_join settings stage hls]
    exact hrest

/-- The contents of the open lines. -/
def openContents (mask : List Bool) (ls : List Line) : List Bytes :=
  (mask.zip ls).filterMap fun x => if x.1 then some x.2.content else none

theorem exists_of_mem_openContents {mask : List Bool} {ls : List Line} {content : Bytes}
    (h : content ∈ openContents mask ls) : ∃ l ∈ ls, l.content = content := by
  obtain ⟨⟨isOpen, l⟩, hmem, hsome⟩ := List.mem_filterMap.mp h
  cases isOpen with
  | false => cases hsome
  | true => exact ⟨l, (List.of_mem_zip hmem).2, Option.some.inj hsome⟩

/-- Two lists of stages do the same to a document if they do the same to each open line. -/
theorem zipWith_passLine_eq_iff (settings : Settings) (stages stages' : List Stage)
    (mask : List Bool) (ls : List Line) :
    List.zipWith (passLine settings stages) mask ls =
        List.zipWith (passLine settings stages') mask ls ↔
      ∀ content ∈ openContents mask ls,
        passStages settings stages content = passStages settings stages' content := by
  induction mask generalizing ls with
  | nil => simp [openContents]
  | cons isOpen mask ih =>
    cases ls with
    | nil => simp [openContents]
    | cons l ls =>
      rw [List.zipWith_cons_cons, List.zipWith_cons_cons, List.cons.injEq, ih]
      cases isOpen with
      | false => simp [openContents]
      | true => simp [openContents, passLine]

theorem getElem?_onePass (settings : Settings) {lines : List Line} {i : Nat} {l : Line}
    (hl : lines[i]? = some l) :
    ∃ isOpen, (openLines settings lines)[i]? = some isOpen ∧
      (onePass settings lines)[i]? =
        some (passLine settings (Stage.all.filter (Stage.enabled settings)) isOpen l) := by
  obtain ⟨hi, rfl⟩ := List.getElem?_eq_some_iff.mp hl
  have hi' : i < (openLines settings lines).length := by rwa [length_openLines]
  refine ⟨(openLines settings lines)[i], List.getElem?_eq_getElem hi', ?_⟩
  rw [onePass, List.getElem?_zipWith, List.getElem?_eq_getElem hi', hl]

/-- **Formatting is one pass over the original lines.** The lines of the formatted document are
those of the original one, each with its own terminator; an open line is passed through the stages
that are turned on, one after the other, and every other line is copied. So the number of lines and
all terminators stay, and so does every line that is closed, holds a NUL or is not well formed. -/
theorem format_eq_join_onePass (settings : Settings) (text : Bytes) :
    format settings text = Line.join (onePass settings (Line.split text)) ∧
      Line.split (format settings text) = onePass settings (Line.split text) ∧
      (Line.split (format settings text)).length = (Line.split text).length ∧
      ∀ (i : Nat) (l : Line), (Line.split text)[i]? = some l →
        ∃ l', (Line.split (format settings text))[i]? = some l' ∧ l'.ending = l.ending ∧
          ((openLines settings (Line.split text))[i]? = some false ∨ tokenMark ∈ l.content ∨
            Utf8.isValid l.content = false → l' = l) := by
  have hrun := foldl_onDocument settings (Stage.all.filter (Stage.enabled settings))
    (Line.proper_split text)
  rw [Line.join_split] at hrun
  have hformat : format settings text = Line.join (onePass settings (Line.split text)) := hrun.1
  have hsplit : Line.split (format settings text) = onePass settings (Line.split text) := by
    rw [hformat]
    exact Line.split_join hrun.2
  refine ⟨hformat, hsplit, ?_, fun i l hl => ?_⟩
  · rw [hsplit, onePass, List.length_zipWith, length_openLines, Nat.min_self]
  · obtain ⟨isOpen, hopen, hget⟩ := getElem?_onePass settings hl
    rw [hsplit, hopen]
    refine ⟨_, hget, ?_, fun hcond => ?_⟩
    · cases isOpen <;> rfl
    · cases isOpen with
      | false => rfl
      | true =>
        have hscan : needsScan l.content = false := by
          rw [← Bool.not_eq_true, needsScan_iff]
          rintro ⟨-, hmark, hvalid⟩
          rcases hcond with hcond | hcond | hcond
          · simp at hcond
          · exact hmark hcond
          · rw [hvalid] at hcond
            cases hcond
        show Line.mk (passStages settings _ l.content) l.ending = l
        rw [passStages_of_not_needsScan settings _ hscan]

/-- The line between two fences is closed, so it is copied, although it holds a padded marker. -/
theorem format_keeps_fenced_line :
    ∃ (text : Bytes) (l : Line), (Line.split text)[1]? = some l ∧
      needsScan l.content = true ∧
      (openLines Settings.standard (Line.split text))[1]? = some false ∧
      (Line.split (format Settings.standard text))[1]? = some l := by
  -- A fence, the line, and the fence again.
  have hline : (Line.split (bytes "```\n** a**\n```"))[1]? = some ⟨bytes "** a**", .lf⟩ := by decide
  refine ⟨_, _, hline, by decide, by decide, ?_⟩
  obtain ⟨l', hget, -, hkeep⟩ := (format_eq_join_onePass Settings.standard _).2.2.2 1 _ hline
  rw [hget, hkeep (.inl (by decide))]

end EmphasisSpacing
