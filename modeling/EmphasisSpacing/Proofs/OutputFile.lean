import Mathlib.Data.List.Forall2
import EmphasisSpacing.Proofs.Collected
import EmphasisSpacing.Proofs.DocumentRun

/-!
# The output file

With an output file, the file is made empty before the first document is read, and every formatted
document is added to its end. A document in another file is read as it was at the start. A document in
the output file itself is read as the file stands by then: its own text is gone
(`Fix.run_output_loses_text`), and what was written so far is formatted again. `gathered` says what the
output file holds in the end, and `Fix.run_output` that this is what it holds, whichever documents are
collected, and that no other file changes. When the output file is none of the documents, that is the
formatted documents one after the other.
-/

namespace EmphasisSpacing

open EmphasisSpacing.Path

namespace Fix

/-- What the output file holds after the documents of sources were added to its end, where it held
`sofar` before. -/
def gathered (settings : Settings) (before : FileSystem) (out : Bytes) :
    (sofar : Bytes) → List Source → Bytes
  | sofar, [] => sofar
  | sofar, source :: rest =>
    let text := if source.path = out then sofar else (before.content? source.path).getD []
    gathered settings before out (sofar ++ format settings text) rest

/-- Whether two file systems have the same files, apart from the one at a path. -/
def AgreeBut (out : Bytes) (before after : FileSystem) : Prop :=
  ∀ location, location ≠ Path.parts out → after.root.fileAt location = before.root.fileAt location

section

variable {before after later : FileSystem} {out p : Bytes}

theorem AgreeBut.trans (h : AgreeBut out before after) (h' : AgreeBut out after later) :
    AgreeBut out before later :=
  fun location hne => (h' location hne).trans (h location hne)

theorem AgreeBut.content?_eq (h : AgreeBut out before after) (hout : IsRooted out) (hp : IsRooted p)
    (hne : p ≠ out) : after.content? p = before.content? p := by
  rw [FileSystem.content?_eq after hp, FileSystem.content?_eq before hp,
    h _ fun hparts => hne (hp.ext hout hparts)]

theorem agreeBut_of_puts {content : Bytes} (h : before.Puts after out content) :
    AgreeBut out before after :=
  fun _ hne => h.fileAt_of_ne hne

end

/-! ### Opening the file -/

/-- A file that was made for output is empty, and no other file has changed. -/
theorem createFile_spec {a : Surroundings} {out : Bytes} {s s₀ : Session} (hout : IsRooted out)
    (h : createFile a s out = (s₀, .ok ())) :
    s₀.files.content? out = some [] ∧ AgreeBut out s.files s₀.files := by
  have hfolders := (FileSystem.fileAt_makeFolders (isRooted_directory hout.1) s.files).2
  unfold createFile at h
  cases hmade : s.files.makeFolders (Path.directory out) with
  | mk files result =>
    rw [hmade] at h hfolders
    cases result with
    | error e => cases h
    | ok _ =>
      have hagree : AgreeBut out s.files files := fun location _ => congrFun hfolders location
      cases hwrite : Session.writeFile a { s with files := files } out [] with
      | error e =>
        simp only [hwrite] at h
        cases h
      | ok s₁ =>
        simp only [hwrite] at h
        cases h
        obtain ⟨files', hfile, -, rfl⟩ := Session.writeFile_eq_ok_iff.mp hwrite
        have hputs := FileSystem.puts_of_write hout hfile
        exact ⟨hputs.content?_self hout, hagree.trans (agreeBut_of_puts hputs)⟩

theorem openOutput_spec {a : Surroundings} {name : Bytes} {s s₀ : Session} {output : Output}
    (hcwd : isAbsolute s.files.cwd = true) (hname : WhiteSpace.trim name ≠ [])
    (h : openOutput a name s = (s₀, .ok output)) :
    output = .file (Source.localPath a.env s.files.cwd name) ∧
      s₀.files.content? (Source.localPath a.env s.files.cwd name) = some [] ∧
      AgreeBut (Source.localPath a.env s.files.cwd name) s.files s₀.files := by
  rw [openOutput, if_neg (by simpa using hname)] at h
  cases hcreate : createFile a s (Source.localPath a.env s.files.cwd name) with
  | mk s₁ result =>
    simp only [hcreate] at h
    cases result with
    | error e => cases h
    | ok _ =>
      cases h
      exact ⟨rfl, createFile_spec (Source.isRooted_localPath hcwd name) hcreate⟩

theorem code_of_openOutput {a : Surroundings} {name : Bytes} {s s₀ : Session} {f : Failure}
    (h : openOutput a name s = (s₀, .error f)) : f.code = 1 := by
  unfold openOutput at h
  simp only at h
  split_ifs at h
  · cases h
  · split at h
    · cases h
    · cases h
      rfl

/-! ### Adding documents -/

/-- What adding a document to the output file does. -/
def Added (settings : Settings) (out : Bytes) (_ : Source) (text : Bytes) (s s₁ : Session) : Prop :=
  ∃ sofar, s.files.content? out = some sofar ∧
    s.files.Puts s₁.files out (sofar ++ format settings text)

/-- **A document can be added as long as the output file is there, and then it is still there.** -/
theorem deliver_output {a : Surroundings} {opts : Options} {out : Bytes} (hout : IsRooted out)
    (hwrite : opts.write = false) (hdiff : opts.diff = false) {source : Source} {text : Bytes}
    {s : Session} (h : (s.files.content? out).isSome)
    (hdoc : document? a s.files source.path = some text) :
    Delivers (fun fs source => document? a fs source.path) (Added opts.settings out)
      (fun s => (s.files.content? out).isSome) source text s
      (deliver a opts (.file out) source (Outcome.of opts.settings text)
        (s.log opts.verbose [note source (Outcome.of opts.settings text)])) := by
  obtain ⟨sofar, hsofar⟩ := Option.isSome_iff_exists.mp h
  have hputs := FileSystem.puts_append hout hsofar (format opts.settings text)
  unfold deliver
  rw [hdiff, hwrite]
  exact ⟨hdoc, ⟨sofar, hsofar, hputs⟩, Option.isSome_of_eq_some (hputs.content?_self hout)⟩

/-- What a run over all documents leaves. The files other than the output file agree with those
`before`, from which the documents are read. -/
theorem gathered_of_run {a : Surroundings} {settings : Settings} {out : Bytes} (hout : IsRooted out)
    {sources : List Source} (hrooted : ∀ source ∈ sources, IsRooted source.path)
    {docs : List (Source × Bytes)} {s s' : Session} {before : FileSystem} {sofar : Bytes}
    (h : DocumentRun (fun fs source => document? a fs source.path) (Added settings out) sources docs
      s s') (hall : docs.map Prod.fst = sources)
    (hsofar : s.files.content? out = some sofar) (hagree : AgreeBut out before s.files) :
    s'.files.content? out = some (gathered settings before out sofar sources) ∧
      AgreeBut out before s'.files ∧
      ∀ source ∈ sources, source.path ≠ out → (before.content? source.path).isSome := by
  induction h generalizing sofar with
  | done s => exact ⟨hsofar, hagree, by simp⟩
  | stopped rest h hsame => cases hall
  | @handled source text rest docs s s₁ s' h hstep hrest ih =>
    rw [List.forall_mem_cons] at hrooted
    have htext := (document?_eq_some_iff.mp h).2.1
    obtain ⟨sofar', hsofar', hputs⟩ := hstep
    obtain rfl : sofar = sofar' := Option.some.inj (hsofar.symm.trans hsofar')
    -- A document elsewhere is read as it was before, since only the output file has changed.
    have hread : source.path ≠ out → before.content? source.path = some text := fun hne => by
      rw [← hagree.content?_eq hout hrooted.1 hne, htext]
    -- The text that was read is the one that `gathered` reads.
    have hgathered : (if source.path = out then sofar else (before.content? source.path).getD []) =
        text := by
      split_ifs with hself
      · rw [hself] at htext
        exact Option.some.inj (hsofar.symm.trans htext)
      · rw [hread hself]
        rfl
    obtain ⟨hcontent, hagree', hothers⟩ := ih hrooted.2 (List.cons.inj hall).2
      (hputs.content?_self hout) (hagree.trans (agreeBut_of_puts hputs))
    refine ⟨?_, hagree', List.forall_mem_cons.mpr ⟨?_, hothers⟩⟩
    · rw [hcontent, gathered, hgathered]
    · exact fun hne => Option.isSome_of_eq_some (hread hne)

/-- Without the output file among the sources, the documents stand one after the other. -/
theorem gathered_of_ne {settings : Settings} {before : FileSystem} {out : Bytes}
    {sources : List Source} (h : ∀ source ∈ sources, source.path ≠ out) (sofar : Bytes) :
    gathered settings before out sofar sources =
      sofar ++ sources.flatMap fun source =>
        format settings ((before.content? source.path).getD []) := by
  induction sources generalizing sofar with
  | nil => simp [gathered]
  | cons source rest ih =>
    rw [List.forall_mem_cons] at h
    rw [gathered, if_neg h.1, ih h.2, List.flatMap_cons, List.append_assoc]

/-! ### The command -/

/-- What a success leaves, on the collected sources. -/
theorem onSources_output {a : Surroundings} {opts : Options} {s : Session} {sources : List Source}
    (hwrite : opts.write = false) (hdiff : opts.diff = false)
    (hname : WhiteSpace.trim opts.output ≠ []) (hcwd : isAbsolute s.files.cwd = true)
    (hrooted : ∀ source ∈ sources, IsRooted source.path)
    (hlocal : ∀ source ∈ sources, source.isWritable = true)
    (hcode : exitCode (onSources a opts sources s).2 = 0) {out : Bytes}
    (hout : out = Source.localPath a.env s.files.cwd opts.output) :
    (onSources a opts sources s).1.files.content? out =
        some (gathered opts.settings s.files out [] sources) ∧
      AgreeBut out s.files (onSources a opts sources s).1.files ∧
      ∀ source ∈ sources, source.path ≠ out → (s.files.content? source.path).isSome := by
  have houtRooted : IsRooted out := hout ▸ Source.isRooted_localPath hcwd opts.output
  cases hopen : openOutput a opts.output s with
  | mk s₀ opened =>
    cases opened with
    | error f =>
      have hfail : exitCode (onSources a opts sources s).2 = 1 := by
        rw [onSources, hopen]
        exact code_of_openOutput hopen
      omega
    | ok output =>
      obtain ⟨rfl, hempty, hagree⟩ := openOutput_spec hcwd hname hopen
      rw [← hout] at hopen hempty hagree
      obtain ⟨docs, hrun, hends⟩ := exists_documentRun hlocal (fun _ _ hnone => hnone)
        (fun source _ text s hs hdoc => deliver_output houtRooted hwrite hdiff hs hdoc)
        (Option.isSome_of_eq_some hempty)
      obtain ⟨hsame, hend⟩ := onSources_of_ends hopen hends
      -- A document that was refused would have ended the command without success.
      by_cases hall : docs.map Prod.fst = sources
      · rw [hsame.files]
        exact gathered_of_run houtRooted hrooted hrun hall hempty hagree
      · rw [if_neg hall] at hend
        omega

/-- **What the output file holds after a success, and that no other file has changed.** When the output
file is none of the documents, it holds their formatted forms. -/
theorem run_output {a : Surroundings} {opts : Options} {arguments : List Bytes} {s s' : Session}
    {result : Except Failure Unit} {notes : List Log.Entry} {sources : List Source} {out : Bytes}
    (hwrite : opts.write = false) (hdiff : opts.diff = false)
    (hname : WhiteSpace.trim opts.output ≠ []) (hcwd : isAbsolute s.files.cwd = true)
    (hout : out = Source.localPath a.env s.files.cwd opts.output)
    (hcollect : collect a.matcher s.files a.env opts.excludes arguments = (notes, .ok sources))
    (hlocal : ∀ source ∈ sources, source.isWritable = true)
    (hrun : run a opts arguments s = (s', result)) (hcode : exitCode result = 0) :
    s'.files.content? out = some (gathered opts.settings s.files out [] sources) ∧
      AgreeBut out s.files s'.files ∧
      ((∀ source ∈ sources, source.path ≠ out) → ∃ texts,
        List.Forall₂ (fun source text => s.files.content? source.path = some text) sources texts ∧
        s'.files.content? out = some (texts.flatMap (format opts.settings))) := by
  have hrooted := isRooted_of_mem_collect hcwd hcollect hlocal
  have hstart : (opts.write && !opts.output.isEmpty) = false := by rw [hwrite]; rfl
  have heq := run_of_collect hstart hcollect hlocal
  have hsources := onSources_output (a := a) (s := s.log opts.verbose notes) hwrite hdiff hname hcwd
    hrooted hlocal (by rw [← heq, hrun]; exact hcode) hout
  rw [← heq, hrun] at hsources
  obtain ⟨hcontent, hagree, hread⟩ := hsources
  refine ⟨hcontent, hagree, fun hothers => ?_⟩
  refine ⟨sources.map fun source => (s.files.content? source.path).getD [], ?_, ?_⟩
  · rw [List.forall₂_map_right_iff, List.forall₂_same]
    intro source hsource
    obtain ⟨text, htext⟩ := Option.isSome_iff_exists.mp (hread source hsource (hothers source hsource))
    rw [show s.files.content? source.path = some text from htext]
    rfl
  · rw [hcontent, gathered_of_ne hothers, List.flatMap_map]
    rfl

/-- Two documents, the second one the output file: it has lost its text, and holds the first document
twice. With the third file as output, it holds both documents. -/
theorem run_output_twice :
    let a : Surroundings := .standard [] none fun _ => .failed []
    let opts (out : Bytes) : Options := ⟨Settings.standard, false, false, out, false, false, []⟩
    let names := [bytes "1.md", bytes "2.md"]
    let s : Session := .start ⟨.folder (bytes "d") (.file (bytes "1.md") (bytes "中**粗**")
      (.file (bytes "2.md") (bytes "体") (.file (bytes "3.md") (bytes "文") .empty))) .empty,
      bytes "/d"⟩ []
    let sources := names.map fun name => Source.file name (bytes "/d/" ++ name)
    let twice := run a (opts (bytes "2.md")) names s
    let apart := run a (opts (bytes "3.md")) names s
    collect a.matcher s.files a.env [] names = ([], .ok sources) ∧
      (exitCode twice.2 = 0 ∧
        twice.1.files.content? (bytes "/d/2.md") = some (bytes "中 **粗**中 **粗**") ∧
        AgreeBut (bytes "/d/2.md") s.files twice.1.files) ∧
      (exitCode apart.2 = 0 ∧ (∀ source ∈ sources, source.path ≠ bytes "/d/3.md") ∧
        apart.1.files.content? (bytes "/d/3.md") = some (bytes "中 **粗**体")) := by
  intro a opts names s sources twice apart
  have hcollect : collect a.matcher s.files a.env [] names = ([], .ok sources) := by decide +kernel
  have hlocal : ∀ source ∈ sources, source.isWritable = true := by decide +kernel
  refine ⟨hcollect, ?_, ?_⟩
  · have hcode : exitCode twice.2 = 0 := by decide +kernel
    have hwrite : (opts (bytes "2.md")).write = false := rfl
    have hholds := run_output hwrite rfl (by decide +kernel) (by decide +kernel)
      (show bytes "/d/2.md" = _ by decide +kernel) hcollect hlocal (Prod.eta twice).symm hcode
    exact ⟨hcode, hholds.1.trans (by decide +kernel), hholds.2.1⟩
  · have hcode : exitCode apart.2 = 0 := by decide +kernel
    have hwrite : (opts (bytes "3.md")).write = false := rfl
    have hothers : ∀ source ∈ sources, source.path ≠ bytes "/d/3.md" := by decide +kernel
    obtain ⟨-, -, hgathers⟩ := run_output hwrite rfl (by decide +kernel) (by decide +kernel)
      (show bytes "/d/3.md" = _ by decide +kernel) hcollect hlocal (Prod.eta apart).symm hcode
    obtain ⟨texts, htexts, hholds⟩ := hgathers hothers
    -- The texts are those that the two files had.
    have hread : List.Forall₂ (fun source text => s.files.content? source.path = some text) sources
        [bytes "中**粗**", bytes "体"] := by
      refine .cons ?_ (.cons ?_ .nil) <;> decide +kernel
    obtain rfl : texts = [bytes "中**粗**", bytes "体"] :=
      Relator.RightUnique.forall₂ (fun _ _ _ h h' => Option.some.inj (h.symm.trans h')) htexts hread
    exact ⟨hcode, hothers, hholds.trans (by decide +kernel)⟩

/-- **A document that is also the output file loses its text.** The command ends with success. -/
theorem run_output_loses_text :
    let a : Surroundings := .standard [] none fun _ => .failed []
    let text := bytes "中**粗**\n"
    let s : Session := .start
      ⟨.folder (bytes "work") (.file (bytes "a.md") text .empty) .empty, bytes "/work"⟩ []
    let ran := Command.run a [bytes "fix", bytes "-o", bytes "a.md", bytes "a.md"] s
    collect a.matcher s.files a.env [] [bytes "a.md"] =
        ([], .ok [.file (bytes "a.md") (bytes "/work/a.md")]) ∧
      ran.2 = 0 ∧ ran.1.files.content? (bytes "/work/a.md") = some [] ∧
      format Settings.standard text = bytes "中 **粗**\n" := by
  decide +kernel

end Fix

end EmphasisSpacing
