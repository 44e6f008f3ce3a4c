import EmphasisSpacing.Proofs.WriteBack

/-!
# Reporting predicts writing back

Reporting documents and writing them back are two commands, each with a loop of its own. Only the second
one changes files while it runs. Still, both handle the documents that were there at the start: the
report reads them from files that nobody touches, and writing back never comes to a file twice. So the
names that are reported are those of the files that would be rewritten (`Check.run_predicts`), also when
a document in between ends both commands. What the report cannot foresee is a file that refuses to be
written: there, writing back stops and the report goes on.
-/

namespace EmphasisSpacing

open EmphasisSpacing.Path

namespace Check

/-! ### The report -/

section

variable {a : Surroundings} {settings : Settings} {sources : List Source}
  {docs : List (Source × Bytes)} {s s' : Session}

theorem files_display (a : Surroundings) (text : Bytes) (s : Session) :
    (s.display a text).files = s.files := by
  unfold Session.display Session.write
  cases a.outputFault <;> rfl

theorem files_of_reported {source : Source} {text : Bytes} (h : Reported a settings source text s s') :
    s'.files = s.files := by
  rw [show s' = _ from h]
  split
  · exact files_display ..
  · rfl

/-- Reporting changes no file. -/
theorem files_of_run
    (h : DocumentRun (fun fs source => document? a fs source.path) (Reported a settings) sources
      docs s s') :
    s'.files = s.files := by
  induction h with
  | done s => rfl
  | stopped rest h hsame => exact hsame.files
  | handled h hstep hrest ih => rw [ih, files_of_reported hstep]

/-- The documents that would change are named, in their order. -/
theorem output_of_run (hfault : a.outputFault = none)
    (h : DocumentRun (fun fs source => document? a fs source.path) (Reported a settings) sources
      docs s s') :
    s'.output = s.output ++
      (docs.filter (changes settings)).flatMap fun doc => doc.1.name ++ [Bytes.lf] := by
  induction h with
  | done s => simp
  | stopped rest h hsame => simpa using hsame.output
  | @handled source text rest docs s s₁ s' h hstep hrest ih =>
    rw [ih, show s₁ = _ from hstep]
    cases hchanges : changes settings (source, text) with
    | false => simp [hchanges]
    | true =>
      have hdisplay : (s.display a (source.name ++ [Bytes.lf])).output =
          s.output ++ (source.name ++ [Bytes.lf]) := by
        rw [Session.display, Session.write, hfault]
      simp [hchanges, hdisplay]

end

/-- **Reporting is a run over the documents that were there at its start.** -/
theorem exists_run_report {a : Surroundings} {opts : Options} {arguments : List Bytes} {s : Session}
    {notes : List Log.Entry} {sources : List Source} (hdiff : opts.diff = false)
    (hcwd : isAbsolute s.files.cwd = true)
    (hcollect : collect a.matcher s.files a.env opts.excludes arguments = (notes, .ok sources))
    (hlocal : ∀ source ∈ sources, source.isWritable = true)
    (hdistinct : (sources.map Source.path).Nodup) :
    ∃ s₁, DocumentRun (fun fs source => document? a fs source.path) (Reported a opts.settings) sources
        (readable a s.files sources) (s.log opts.verbose notes) s₁ ∧
      (run a opts arguments s).1 = s₁ ∧
      exitCode (run a opts arguments s).2 =
        if (readable a s.files sources).map Prod.fst = sources ∧
          (readable a s.files sources).any (changes opts.settings) = false then 0 else 1 := by
  have hrooted := isRooted_of_mem_collect hcwd hcollect hlocal
  obtain ⟨docs, hrun, hends⟩ := exists_documentRun a hdiff hlocal (s.log opts.verbose notes)
  -- Reporting changes no file, so each document is read as it was at the start.
  have hdocs := hrun.eq_handled hrooted hdistinct fun source text s s₁ _ hreported other _ _ =>
    document?_congr (by rw [files_of_reported hreported])
  obtain rfl : docs = readable a s.files sources := hdocs
  unfold run
  simp only [hcollect]
  generalize documents a opts sources (s.log opts.verbose notes) = ran at hrun hends ⊢
  obtain ⟨s₁, result⟩ := ran
  refine ⟨s₁, hrun, ?_⟩
  by_cases hall : (readable a s.files sources).map Prod.fst = sources
  · rw [Ends, if_pos hall] at hends
    obtain rfl : result = .ok _ := hends
    refine ⟨rfl, ?_⟩
    cases (readable a s.files sources).any (changes opts.settings) <;> simp [hall, exitCode, Failure.quiet]
  · rw [Ends, if_neg hall] at hends
    obtain ⟨f, hf, hcode⟩ := hends
    obtain rfl : result = .error f := hf
    exact ⟨rfl, by rw [if_neg fun h => hall h.1]; exact hcode⟩

/-! ### The prediction -/

/-- **The report names the sources that writing back rewrites, in their order, and is a success exactly
when writing back is one and rewrites nothing.** It names further sources only if the file of the first
of them cannot be written. -/
theorem run_predicts {a : Surroundings} {opts : Options} {fixOpts : Fix.Options}
    {arguments : List Bytes} {s checked fixed : Session} {checkResult fixResult : Except Failure Unit}
    {notes : List Log.Entry} {sources : List Source} (hsettings : fixOpts.settings = opts.settings)
    (hexcludes : fixOpts.excludes = opts.excludes) (hdiff : opts.diff = false)
    (hfixWrite : fixOpts.write = true) (hfixDiff : fixOpts.diff = false)
    (hfixOutput : fixOpts.output = []) (hcwd : isAbsolute s.files.cwd = true)
    (hcollect : collect a.matcher s.files a.env opts.excludes arguments = (notes, .ok sources))
    (hlocal : ∀ source ∈ sources, source.isWritable = true)
    (hdistinct : (sources.map Source.path).Nodup)
    (hcheck : run a opts arguments s = (checked, checkResult))
    (hfix : Fix.run a fixOpts arguments s = (fixed, fixResult)) :
    checked.files = s.files ∧
    (a.outputFault = none → ∃ missed, checked.output = s.output ++
        (Fix.rewritten s.files fixed.files sources ++ missed).flatMap
          (fun source => source.name ++ [Bytes.lf]) ∧
      (∀ source ∈ missed.head?, source ∈ sources ∧ (a.writeFault source.path).isSome = true)) ∧
    (exitCode checkResult = 0 ↔
      exitCode fixResult = 0 ∧ Fix.rewritten s.files fixed.files sources = []) := by
  have hrooted := isRooted_of_mem_collect hcwd hcollect hlocal
  obtain ⟨s₁, hreport, hs₁, hcode⟩ := exists_run_report hdiff hcwd hcollect hlocal hdistinct
  obtain ⟨docs, hdocs⟩ : ∃ docs, docs = handled (Fix.fixable? a fixOpts.settings) s.files sources :=
    ⟨_, rfl⟩
  obtain ⟨s₂, hwrite, hsame, hend⟩ := Fix.exists_run_write hfixWrite hfixDiff hfixOutput hcwd
    (by rw [hexcludes]; exact hcollect) hlocal hdistinct hdocs
  rw [hcheck] at hs₁ hcode
  rw [hfix] at hsame hend
  obtain rfl : checked = s₁ := hs₁
  have hrewritten : Fix.rewritten s.files fixed.files sources =
      (docs.filter (changes opts.settings)).map Prod.fst := by
    have hlog : (s.log fixOpts.verbose notes).files = s.files := rfl
    rw [hdocs, ← hlog] at hwrite
    rw [hdocs, hsame.files, ← hsettings, ← hlog]
    exact (Fix.writtenBack_of_run hrooted hdistinct hwrite).rewritten_eq hrooted hdistinct
  rw [hsettings] at hdocs
  -- Both commands speak of the same documents, up to one that cannot be written.
  obtain ⟨missed, happend, hhead⟩ :=
    Fix.exists_readable_append a opts.settings s.files sources
  rw [← hdocs] at happend
  have hsources : ∀ doc ∈ missed, doc.1 ∈ sources := fun doc hdoc =>
    hreport.mem_sources (happend ▸ List.mem_append_right docs hdoc)
  refine ⟨(files_of_run hreport).trans rfl, fun hfault => ?_, ?_⟩
  · refine ⟨(missed.filter (changes opts.settings)).map Prod.fst, ?_, ?_⟩
    · rw [output_of_run hfault hreport, happend, List.filter_append, hrewritten, ← List.map_append,
        List.flatMap_map]
      rfl
    · cases missed with
      | nil => simp
      | cons doc rest =>
        -- What cannot be written would change, so it is the first that is named.
        obtain ⟨hchanges, hfault⟩ := Bool.and_eq_true_iff.mp (hhead doc rfl)
        rw [List.filter_cons_of_pos hchanges]
        rintro source ⟨⟩
        exact ⟨hsources doc (List.mem_cons_self ..), hfault⟩
  · have hfixed : exitCode fixResult = 0 ↔ docs.map Prod.fst = sources := by
      by_cases hall : docs.map Prod.fst = sources
      · rw [if_pos hall] at hend
        exact iff_of_true (by rw [(Prod.mk.inj hend).2]; rfl) hall
      · rw [if_neg hall] at hend
        exact iff_of_false (by rw [hend]; decide) hall
    have hchecked : exitCode checkResult = 0 ↔ (readable a s.files sources).map Prod.fst = sources ∧
        (readable a s.files sources).any (changes opts.settings) = false := by
      rw [hcode, ite_eq_left_iff]
      simp
    rw [hchecked, hfixed, hrewritten, happend, List.map_eq_nil_iff, List.filter_eq_nil_iff]
    -- Either way, no document is left over.
    constructor
    · rintro ⟨hall, hnone⟩
      rw [List.any_eq_false] at hnone
      cases missed with
      | nil =>
        rw [List.append_nil] at hall hnone
        exact ⟨hall, hnone⟩
      | cons doc rest =>
        have hchanges := (Bool.and_eq_true_iff.mp (hhead doc rfl)).1
        exact absurd hchanges (hnone doc (List.mem_append_right _ (List.mem_cons_self ..)))
    · rintro ⟨hall, hnone⟩
      have hprefix : (readable a s.files sources).map Prod.fst <+: sources :=
        map_handled_isPrefix _ s.files sources
      obtain rfl : missed = [] := by
        have hlength := hprefix.length_le
        rw [happend, ← hall, List.length_map, List.length_map, List.length_append] at hlength
        exact List.eq_nil_of_length_eq_zero (by omega)
      rw [List.append_nil, List.any_eq_false]
      exact ⟨hall, hnone⟩

/-- The third of four documents holds a NUL. Of the others, the first and the fourth would change, but
the fourth is not reached. -/
theorem run_predicts_stop :
    let a : Surroundings := .standard [] none fun _ => .failed []
    let fixOpts : Fix.Options := ⟨Settings.standard, false, true, [], false, true, []⟩
    let names := [bytes "1.md", bytes "2.md", bytes "3.md", bytes "4.md"]
    let s : Session := .start
      ⟨.folder (bytes "d") (.file (bytes "1.md") (bytes "中**粗**") (.file (bytes "2.md") (bytes "中")
        (.file (bytes "3.md") [0] (.file (bytes "4.md") (bytes "中**粗**") .empty)))) .empty,
        bytes "/d"⟩ []
    let checked := run a ⟨Settings.standard, false, false, []⟩ names s
    let fixed := Fix.run a fixOpts names s
    let sources := names.map fun name => Source.file name (bytes "/d/" ++ name)
    Fix.rewritten s.files fixed.1.files sources = sources.take 1 ∧
      checked.1.output = bytes "1.md\n" ∧ exitCode checked.2 ≠ 0 := by
  intro a fixOpts names s checked fixed sources
  have hcollect : collect a.matcher s.files a.env [] names = ([], .ok sources) := by decide +kernel
  have hcheck : run a ⟨Settings.standard, false, false, []⟩ names s = (checked.1, checked.2) :=
    (Prod.eta checked).symm
  have hfix : Fix.run a fixOpts names s = (fixed.1, fixed.2) := (Prod.eta fixed).symm
  have hrewritten : Fix.rewritten s.files fixed.1.files sources = sources.take 1 := by
    decide +kernel
  have hpredicts := run_predicts rfl rfl rfl rfl rfl rfl (by decide +kernel) hcollect
    (by decide +kernel) (by decide +kernel) hcheck hfix
  obtain ⟨missed, houtput, hmissed⟩ := hpredicts.2.1 rfl
  have hnone : missed = [] := by
    cases missed with
    | nil => rfl
    | cons source rest => cases (hmissed source rfl).2
  refine ⟨hrewritten, houtput.trans ?_, fun hzero => ?_⟩
  · rw [hrewritten, hnone]
    decide +kernel
  · rw [hpredicts.2.2, hrewritten] at hzero
    exact absurd hzero.2 (by decide)

end Check

end EmphasisSpacing
