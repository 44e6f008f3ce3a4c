import EmphasisSpacing.Proofs.Collected
import EmphasisSpacing.Proofs.DocumentRun
import EmphasisSpacing.Proofs.Utf8

/-!
# Writing documents back

With the option to write documents back, the command changes files one by one, and this module says
which, for every way in which it can end (`Fix.run_write`). Before any document is looked at it can
fail without having changed anything. From then on, every document in front of the first one that
cannot be read, is refused or cannot be written has been replaced by its formatted form, and every other
file is as it was. Only files whose content changes are written at all, and the report tells how many
they are.

The one step is `Fix.delivers_write`; the run follows from it by induction. That the sources have
different paths is needed: a file that is named twice is formatted twice, and the second time it is
read as the first has left it.
-/

namespace EmphasisSpacing

open EmphasisSpacing.Path

theorem Log.render_append (verbose : Bool) (entries more : List Entry) :
    render verbose (entries ++ more) = render verbose entries ++ render verbose more := by
  rw [render, List.filter_append, List.flatMap_append]
  rfl

namespace Fix

/-! ### One document -/

/-- The log entry on a document that was read. -/
def noteOn (settings : Settings) (doc : Source × Bytes) : Log.Entry :=
  note doc.1 (Outcome.of settings doc.2)

/-- Whether formatting changes a document whose file cannot be written. -/
def isStuck (a : Surroundings) (settings : Settings) (doc : Source × Bytes) : Bool :=
  changes settings doc && (a.writeFault doc.1.path).isSome

/-- The text of a document that can be written back if need be. -/
def fixable? (a : Surroundings) (settings : Settings) (fs : FileSystem) (source : Source) :
    Option Bytes :=
  (document? a fs source.path).filter fun text => !isStuck a settings (source, text)

/-- What writing a document back leaves. -/
structure WroteBack (opts : Options) (source : Source) (text : Bytes) (s s₁ : Session) : Prop where
  puts : s.files.Puts s₁.files source.path (format opts.settings text)
  /-- The file is written only if its content changes. -/
  written : s₁.written =
    s.written ++ ([(source, text)].filter (changes opts.settings)).map fun doc => doc.1.path
  errors : s₁.errors = s.errors ++ Log.render opts.verbose [noteOn opts.settings (source, text)]

section

variable {a : Surroundings} {settings : Settings} {opts : Options} {source : Source} {text : Bytes}
  {fs : FileSystem}

theorem fixable?_eq_some_iff : fixable? a settings fs source = some text ↔
    document? a fs source.path = some text ∧ isStuck a settings (source, text) = false := by
  rw [fixable?, Option.filter_eq_some_iff, Bool.not_eq_true']

theorem fixable?_eq_none (h : document? a fs source.path = none) :
    fixable? a settings fs source = none := by
  rw [fixable?, h]
  rfl

theorem fixable?_of_isStuck (h : document? a fs source.path = some text)
    (hstuck : isStuck a settings (source, text) = true) : fixable? a settings fs source = none := by
  rw [fixable?, h]
  simp [Option.filter, hstuck]

/-- A file that is there and can be written gets its new content, and the write is recorded. -/
theorem replaceFile_of_content? {s : Session} {p old : Bytes} (hp : IsRooted p)
    (h : s.files.content? p = some old) (hfault : a.writeFault p = none) (content : Bytes) :
    ∃ files, s.files.Puts files p content ∧
      replaceFile a s p content = .ok { s with files := files, written := s.written ++ [p] } := by
  obtain ⟨files, hwrite, hputs⟩ := FileSystem.write_of_content? hp h content
  refine ⟨files, hputs, ?_⟩
  rw [replaceFile, FileSystem.stat, FileSystem.spot_of_content? hp h]
  exact Session.writeFile_eq_ok_iff.mpr ⟨files, hwrite, hfault, rfl⟩

/-- A file that cannot be written is not replaced. -/
theorem exists_replaceFile_error {s : Session} {p : Bytes} (hfault : (a.writeFault p).isSome)
    (content : Bytes) : ∃ e, replaceFile a s p content = .error e := by
  have hnot : ∀ s', replaceFile a s p content ≠ .ok s' := by
    intro s' hs'
    unfold replaceFile at hs'
    split at hs'
    · obtain ⟨-, -, hnone, -⟩ := Session.writeFile_eq_ok_iff.mp hs'
      rw [hnone] at hfault
      cases hfault
    · cases hs'
  cases hreplace : replaceFile a s p content with
  | error e => exact ⟨e, rfl⟩
  | ok s' => exact absurd hreplace (hnot s')

/-- **A document that was read is written back, if its file can be written.** -/
theorem delivers_write (hwrite : opts.write = true) (hdiff : opts.diff = false) (output : Output)
    {s : Session} (hp : IsRooted source.path) (hdoc : document? a s.files source.path = some text) :
    Delivers (fixable? a opts.settings) (WroteBack opts) (fun _ => True) source text s
      (deliver a opts output source (Outcome.of opts.settings text)
        (s.log opts.verbose [noteOn opts.settings (source, text)])) := by
  have hcontent := (document?_eq_some_iff.mp hdoc).2.1
  have hchanged : (Outcome.of opts.settings text).changed = changes opts.settings (source, text) :=
    rfl
  unfold deliver writeBack
  rw [hdiff, hwrite, hchanged]
  cases hchanges : changes opts.settings (source, text) with
  | false =>
    -- Nothing is written: what the file should hold is what it holds.
    have hsame : format opts.settings text = text := by simpa [changes] using hchanges
    refine ⟨fixable?_eq_some_iff.mpr ⟨hdoc, by rw [isStuck, hchanges]; rfl⟩, ⟨?_, ?_, rfl⟩, trivial⟩
    · rw [hsame]
      exact FileSystem.puts_self hp hcontent
    · rw [List.filter_cons_of_neg (by simp [hchanges])]
      exact (List.append_nil _).symm
  | true =>
    let logged := s.log opts.verbose [noteOn opts.settings (source, text)]
    cases hfault : a.writeFault source.path with
    | none =>
      obtain ⟨files, hputs, hreplace⟩ := replaceFile_of_content? (s := logged) hp hcontent hfault
        (format opts.settings text)
      have hdeliver : replaceFile a logged source.path (Outcome.of opts.settings text).formatted =
          .ok { logged with files := files, written := logged.written ++ [source.path] } := hreplace
      simp only [Bool.not_true, Bool.false_eq_true, if_false, if_true]
      rw [hdeliver]
      refine ⟨fixable?_eq_some_iff.mpr ⟨hdoc, by rw [isStuck, hfault]; simp⟩, ⟨hputs, ?_, rfl⟩,
        trivial⟩
      rw [List.filter_cons_of_pos hchanges]
      rfl
    | some e =>
      have hstuck : isStuck a opts.settings (source, text) = true := by
        rw [isStuck, hchanges, hfault]
        rfl
      obtain ⟨e, hreplace⟩ := exists_replaceFile_error (a := a) (s := logged) (p := source.path)
        (by rw [hfault]; rfl) (Outcome.of opts.settings text).formatted
      simp only [Bool.not_true, Bool.false_eq_true, if_false, if_true]
      rw [hreplace]
      exact ⟨fixable?_of_isStuck hdoc hstuck, rfl⟩

end

/-! ### All documents -/

section

variable {a : Surroundings} {opts : Options} {sources : List Source} {docs : List (Source × Bytes)}
  {s s' : Session}

/-- Writing a document back keeps the documents at other paths. -/
theorem fixable?_of_wroteBack (a : Surroundings) (opts : Options) (source : Source) (text : Bytes)
    (s s₁ : Session) (hp : IsRooted source.path) (h : WroteBack opts source text s s₁) (other : Source)
    (hother : IsRooted other.path) (hne : other.path ≠ source.path) :
    fixable? a opts.settings s₁.files other = fixable? a opts.settings s.files other := by
  rw [fixable?, fixable?, document?_congr (h.puts.content?_of_ne hp hother hne)]

theorem written_of_run (h : DocumentRun (fixable? a opts.settings) (WroteBack opts) sources docs s s') :
    s'.written = s.written ++ (docs.filter (changes opts.settings)).map fun doc => doc.1.path := by
  induction h with
  | done s => simp
  | stopped rest h hsame => simpa using hsame.written
  | @handled source text rest docs s s₁ s' h hstep hrest ih =>
    rw [ih, hstep.written, List.append_assoc, ← List.map_append, ← List.filter_append]
    rfl

/-- A run over all documents has an entry on each of them. -/
theorem errors_of_run (h : DocumentRun (fixable? a opts.settings) (WroteBack opts) sources docs s s')
    (hall : docs.map Prod.fst = sources) :
    s'.errors = s.errors ++ Log.render opts.verbose (docs.map (noteOn opts.settings)) := by
  induction h with
  | done s => simp [Log.render]
  | stopped rest h hsame => cases hall
  | @handled source text rest docs s s₁ s' h hstep hrest ih =>
    rw [ih (List.cons.inj hall).2, hstep.errors, List.append_assoc, ← Log.render_append]
    rfl

/-- A run changes no file but those of its documents. -/
theorem fileAt_of_run (h : DocumentRun (fixable? a opts.settings) (WroteBack opts) sources docs s s')
    {location : List Bytes} (hlocation : ∀ doc ∈ docs, location ≠ Path.parts doc.1.path) :
    s'.files.root.fileAt location = s.files.root.fileAt location := by
  induction h with
  | done s => rfl
  | stopped rest h hsame => rw [hsame.files]
  | @handled source text rest docs s s₁ s' h hstep hrest ih =>
    rw [List.forall_mem_cons] at hlocation
    rw [ih hlocation.2, hstep.puts.fileAt_of_ne hlocation.1]

/-- Every document of a run has its formatted form in the end: no later step touches it. -/
theorem content?_of_run (hrooted : ∀ source ∈ sources, IsRooted source.path)
    (hdistinct : (sources.map Source.path).Nodup)
    (h : DocumentRun (fixable? a opts.settings) (WroteBack opts) sources docs s s') :
    ∀ doc ∈ docs, s'.files.content? doc.1.path = some (format opts.settings doc.2) := by
  induction h with
  | done s => simp
  | stopped rest h hsame => simp
  | @handled source text rest docs s s₁ s' h hstep hrest ih =>
    rw [List.map_cons, List.nodup_cons] at hdistinct
    rw [List.forall_mem_cons] at hrooted
    refine List.forall_mem_cons.mpr ⟨?_, ih hrooted.2 hdistinct.2⟩
    -- The rest of the run has documents of other sources only, and these lie elsewhere.
    have hother : ∀ doc ∈ docs, Path.parts source.path ≠ Path.parts doc.1.path := by
      intro doc hdoc hparts
      have hmem : doc.1 ∈ rest := hrest.mem_sources hdoc
      have hpath : source.path = doc.1.path := hrooted.1.ext (hrooted.2 doc.1 hmem) hparts
      exact hdistinct.1 (hpath ▸ List.mem_map_of_mem hmem)
    show s'.files.content? source.path = some (format opts.settings text)
    rw [← hstep.puts.content?_self hrooted.1, FileSystem.content?_eq _ hrooted.1,
      FileSystem.content?_eq _ hrooted.1, fileAt_of_run hrest hother]

end

/-! ### The command -/

/-- The sources whose files differ in two file systems. -/
def rewritten (before after : FileSystem) (sources : List Source) : List Source :=
  sources.filter fun source => after.content? source.path != before.content? source.path

/-- What writing the given documents back makes of a session. -/
structure WrittenBack (opts : Options) (docs : List (Source × Bytes)) (before after : Session) :
    Prop where
  formatted : ∀ doc ∈ docs, after.files.content? doc.1.path = some (format opts.settings doc.2)
  kept : ∀ location, (∀ doc ∈ docs, location ≠ Path.parts doc.1.path) →
    after.files.root.fileAt location = before.files.root.fileAt location
  /-- A document that formatting does not change is not written. -/
  written : after.written =
    before.written ++ (docs.filter (changes opts.settings)).map fun doc => doc.1.path

section

variable {a : Surroundings} {opts : Options} {sources : List Source} {before after : Session}

/-- The rewritten sources are those of the documents that formatting changes. -/
theorem WrittenBack.rewritten_eq
    (h : WrittenBack opts (handled (fixable? a opts.settings) before.files sources) before after)
    (hrooted : ∀ source ∈ sources, IsRooted source.path)
    (hdistinct : (sources.map Source.path).Nodup) :
    rewritten before.files after.files sources =
      ((handled (fixable? a opts.settings) before.files sources).filter
        (changes opts.settings)).map Prod.fst := by
  -- Cut at the first bad source: in front of it every file has its formatted form, and from it on
  -- every file is as it was.
  obtain ⟨rest, hsources⟩ := map_handled_isPrefix (fixable? a opts.settings) before.files sources
  have hread : ∀ doc ∈ handled (fixable? a opts.settings) before.files sources,
      (after.files.content? doc.1.path != before.files.content? doc.1.path) =
        changes opts.settings doc := by
    intro doc hdoc
    have hfixable := fixable?_eq_some_iff.mp (next_of_mem_handled hdoc)
    rw [h.formatted doc hdoc, (document?_eq_some_iff.mp hfixable.1).2.1]
    rfl
  have hrest : ∀ source ∈ rest,
      after.files.content? source.path = before.files.content? source.path := by
    intro source hsource
    have hmem : source ∈ sources := hsources ▸ List.mem_append_right _ hsource
    rw [FileSystem.content?_eq _ (hrooted source hmem), FileSystem.content?_eq _ (hrooted source hmem),
      h.kept]
    intro doc hdoc hparts
    have hdocMem : doc.1 ∈ (handled (fixable? a opts.settings) before.files sources).map Prod.fst :=
      List.mem_map_of_mem hdoc
    have hpath : source.path = doc.1.path :=
      (hrooted source hmem).ext (hrooted doc.1 (hsources ▸ List.mem_append_left _ hdocMem)) hparts
    rw [← hsources, List.map_append] at hdistinct
    exact (List.nodup_append.mp hdistinct).2.2 _ (List.mem_map_of_mem hdocMem) _
      (List.mem_map_of_mem hsource) hpath.symm
  have hnone : rest.filter (fun source =>
      after.files.content? source.path != before.files.content? source.path) = [] :=
    List.filter_eq_nil_iff.mpr (by simpa using hrest)
  unfold rewritten
  conv_lhs => rw [← hsources]
  rw [List.filter_append, hnone, List.append_nil, List.filter_map]
  exact congrArg (List.map Prod.fst) (List.filter_congr hread)

/-- The documents that are read go on from those that are written back with one whose file refuses it. -/
theorem exists_readable_append (a : Surroundings) (settings : Settings) (fs : FileSystem)
    (sources : List Source) :
    ∃ missed, readable a fs sources = handled (fixable? a settings) fs sources ++ missed ∧
      ∀ doc ∈ missed.head?, isStuck a settings doc = true := by
  unfold readable
  induction sources with
  | nil => exact ⟨[], rfl, by simp⟩
  | cons source rest ih =>
    cases hdoc : document? a fs source.path with
    | none =>
      refine ⟨[], ?_, by simp⟩
      rw [handled_of_none (fixable?_eq_none hdoc)]
      exact handled_of_none hdoc rest
    | some text =>
      have hsome : handled (fun fs source => document? a fs source.path) fs (source :: rest) =
          (source, text) :: handled (fun fs source => document? a fs source.path) fs rest :=
        handled_of_some hdoc rest
      rw [hsome]
      cases hstuck : isStuck a settings (source, text) with
      | true =>
        rw [handled_of_none (fixable?_of_isStuck hdoc hstuck)]
        refine ⟨_, rfl, fun doc hhead => ?_⟩
        obtain rfl : (source, text) = doc := Option.some.inj hhead
        exact hstuck
      | false =>
        obtain ⟨missed, happend, hhead⟩ := ih
        refine ⟨missed, ?_, hhead⟩
        rw [handled_of_some (fixable?_eq_some_iff.mpr ⟨hdoc, hstuck⟩), happend, List.cons_append]

/-- Where every file that changes can be written, all documents that can be read are handled. -/
theorem handled_fixable?_eq {settings : Settings} {fs : FileSystem}
    (h : ∀ doc ∈ readable a fs sources, isStuck a settings doc = false) :
    handled (fixable? a settings) fs sources = readable a fs sources := by
  obtain ⟨missed, happend, hhead⟩ := exists_readable_append a settings fs sources
  cases missed with
  | nil => rw [happend, List.append_nil]
  | cons doc rest =>
    have hstuck := hhead doc rfl
    rw [h doc (happend ▸ List.mem_append_right _ (List.mem_cons_self ..))] at hstuck
    cases hstuck

end

/-- **Writing back is a run over the documents that were there at its start.** -/
theorem exists_run_write {a : Surroundings} {opts : Options} {arguments : List Bytes} {s : Session}
    {notes : List Log.Entry} {sources : List Source} (hwrite : opts.write = true)
    (hdiff : opts.diff = false) (houtput : opts.output = []) (hcwd : isAbsolute s.files.cwd = true)
    (hcollect : collect a.matcher s.files a.env opts.excludes arguments = (notes, .ok sources))
    (hlocal : ∀ source ∈ sources, source.isWritable = true)
    (hdistinct : (sources.map Source.path).Nodup) {docs : List (Source × Bytes)}
    (hdocs : docs = handled (fixable? a opts.settings) s.files sources) :
    ∃ s₁, DocumentRun (fixable? a opts.settings) (WroteBack opts) sources docs
        (s.log opts.verbose notes) s₁ ∧
      s₁.SameEffects (run a opts arguments s).1 ∧
      if docs.map Prod.fst = sources then
        run a opts arguments s =
          (if opts.silent then s₁ else s₁.tell (report (docs.countP (changes opts.settings))), .ok ())
      else exitCode (run a opts arguments s).2 = 1 := by
  have hrooted := isRooted_of_mem_collect hcwd hcollect hlocal
  have hstart : (opts.write && !opts.output.isEmpty) = false := by rw [houtput]; simp
  have hopen : openOutput a opts.output (s.log opts.verbose notes) =
      (s.log opts.verbose notes, .ok .standard) := by
    rw [houtput]
    rfl
  obtain ⟨docs', hrun, hends⟩ := exists_documentRun hlocal
    (fun _ _ hnone => fixable?_eq_none hnone)
    (fun source hsource text s _ hdoc =>
      delivers_write hwrite hdiff .standard (hrooted source hsource) hdoc)
    (s := s.log opts.verbose notes) trivial
  have hhandled := hrun.eq_handled hrooted hdistinct (fixable?_of_wroteBack a opts)
  obtain rfl : docs' = docs := hhandled.trans hdocs.symm
  rw [run_of_collect hstart hcollect hlocal]
  exact ⟨_, hrun, onSources_of_ends hopen hends⟩

/-- What the run of `exists_run_write` makes of the session. -/
theorem writtenBack_of_run {a : Surroundings} {opts : Options} {sources : List Source}
    {docs : List (Source × Bytes)} {s s₁ : Session}
    (hrooted : ∀ source ∈ sources, IsRooted source.path)
    (hdistinct : (sources.map Source.path).Nodup)
    (h : DocumentRun (fixable? a opts.settings) (WroteBack opts) sources docs s s₁) :
    WrittenBack opts docs s s₁ where
  formatted := content?_of_run hrooted hdistinct h
  kept := fun _ hlocation => fileAt_of_run h hlocation
  written := written_of_run h

/-! ### The report -/

/-- The digits that are put in front of a text are those of the number. -/
theorem natDigits_eq {fuel n : Nat} (h : n < fuel) (acc : Bytes) :
    Integer.natDigits fuel n acc = Utf8.encode (Nat.toDigits 10 n) ++ acc := by
  have hdigit : ∀ d < 10, Utf8.encode [Nat.digitChar d] = [Integer.digitByte d] := by decide
  induction fuel generalizing n acc with
  | zero => exact absurd h (Nat.not_lt_zero n)
  | succ fuel ih =>
    rw [Integer.natDigits]
    split_ifs with hsmall
    · rw [Nat.toDigits_of_lt_base hsmall, hdigit n hsmall, Nat.mod_eq_of_lt hsmall]
      rfl
    · have hbase : 10 ≤ n := Nat.le_of_not_lt hsmall
      rw [ih (by omega), Nat.toDigits_of_base_le (by decide) hbase, Utf8.encode_append,
        hdigit _ (Nat.mod_lt n (by decide)), List.append_assoc]
      rfl

/-- What is reported when some files have changed. -/
def countText (count : Nat) : String :=
  if count = 0 then "no changes needed" else "fixed spacing in " ++ toString count ++ " file(s)"

theorem report_eq (count : Nat) : report count = bytes (countText count) := by
  have happend : ∀ x y : String, bytes (x ++ y) = bytes x ++ bytes y := fun x y => by
    rw [bytes, bytes, bytes, String.toList_append, Utf8.encode_append]
  have hdecimal : Integer.ofNat count = bytes (toString count) := by
    rw [Integer.ofNat, natDigits_eq (Nat.lt_succ_self count), List.append_nil, bytes,
      Nat.toString_eq_repr, Nat.toList_repr]
  unfold report countText
  by_cases hzero : count = 0
  · rw [if_pos (beq_iff_eq.mpr hzero), if_pos hzero]
  · rw [if_neg (by simpa using hzero), if_neg hzero, happend, happend, hdecimal]

/-! ### What the command leaves -/

/-- **Documents are written back one by one, each as a whole, up to the first bad one.** Before that,
a failure to collect the documents or a document that is no local file ends the command with all files
as they were. A document is bad when it cannot be read, is refused, or would change and cannot be
written. With no file of the last kind, the documents that are handled are those in front of the first
one that cannot be read or is refused. -/
theorem run_write {a : Surroundings} {opts : Options} {arguments : List Bytes} {s s' : Session}
    {result : Except Failure Unit} {notes : List Log.Entry}
    {collected : Except Collect.Error (List Source)} (hwrite : opts.write = true)
    (hdiff : opts.diff = false) (houtput : opts.output = []) (hcwd : isAbsolute s.files.cwd = true)
    (hcollect : collect a.matcher s.files a.env opts.excludes arguments = (notes, collected))
    (hrun : run a opts arguments s = (s', result)) :
    match collected with
    | .error _ => s'.files = s.files ∧ s'.written = s.written ∧ exitCode result = 1
    | .ok sources =>
      ((∃ source ∈ sources, source.isWritable = false) →
        s'.files = s.files ∧ s'.written = s.written ∧ exitCode result = 2) ∧
      ((∀ source ∈ sources, source.isWritable = true) → (sources.map Source.path).Nodup →
        ∃ docs, docs = handled (fixable? a opts.settings) s.files sources ∧
          ((∀ doc ∈ readable a s.files sources, isStuck a opts.settings doc = false) →
            docs = readable a s.files sources) ∧
          WrittenBack opts docs s s' ∧
          exitCode result = (if docs.map Prod.fst = sources then 0 else 1) ∧
          (opts.silent = false → exitCode result = 0 →
            s'.errors = s.errors ++
              Log.render opts.verbose (notes ++ docs.map (noteOn opts.settings)) ++
              bytes (countText (rewritten s.files s'.files sources).length) ++ [Bytes.lf])) := by
  have hstart : (opts.write && !opts.output.isEmpty) = false := by rw [houtput]; simp
  cases collected with
  | error e =>
    rw [run, hstart, hcollect] at hrun
    cases hrun
    exact ⟨rfl, rfl, rfl⟩
  | ok sources =>
    refine ⟨?_, ?_⟩
    · rintro ⟨source, hsource, hremote⟩
      have hfound : (unwritable? opts sources).isSome = true := by
        rw [unwritable?, hwrite, if_pos rfl, List.find?_isSome]
        exact ⟨source, hsource, by rw [hremote]; rfl⟩
      obtain ⟨found, hfound⟩ := Option.isSome_iff_exists.mp hfound
      rw [run, hstart, hcollect] at hrun
      simp only [hfound] at hrun
      cases hrun
      exact ⟨rfl, rfl, rfl⟩
    · intro hlocal hdistinct
      have hrooted := isRooted_of_mem_collect hcwd hcollect hlocal
      refine ⟨_, rfl, handled_fixable?_eq, ?_⟩
      obtain ⟨s₁, hdocs, hsame, hend⟩ :=
        exists_run_write hwrite hdiff houtput hcwd hcollect hlocal hdistinct rfl
      rw [hrun] at hsame hend
      have hback : WrittenBack opts (handled (fixable? a opts.settings) s.files sources) s s' := by
        have hran := writtenBack_of_run hrooted hdistinct hdocs
        exact ⟨fun doc hdoc => hsame.files ▸ hran.formatted doc hdoc,
          fun location hlocation => hsame.files ▸ hran.kept location hlocation,
          hsame.written.trans hran.written⟩
      refine ⟨hback, ?_⟩
      -- The run ends at the last document, with a report, or in front of a bad one, without.
      by_cases hall : (handled (fixable? a opts.settings) s.files sources).map Prod.fst = sources
      · rw [if_pos hall] at hend ⊢
        obtain ⟨hs', rfl⟩ := Prod.mk.inj hend
        refine ⟨rfl, fun hsilent _ => ?_⟩
        rw [hback.rewritten_eq hrooted hdistinct, List.length_map, ← List.countP_eq_length_filter,
          ← report_eq, Log.render_append, ← List.append_assoc s.errors]
        have herrors := errors_of_run hdocs hall
        rw [hs', hsilent]
        show s₁.errors ++ _ ++ _ = _
        rw [herrors]
        rfl
      · rw [if_neg hall] at hend ⊢
        exact ⟨hend, fun _ hzero => absurd (hend.symm.trans hzero) (by decide)⟩

/-- Three documents, of which the first and the third change. When all of them can be read and written,
two are written and reported. When the second cannot be read, or the third cannot be written, the command
stops there without success. -/
theorem run_write_stops :
    let opts : Options := ⟨Settings.standard, false, true, [], false, false, []⟩
    let names := [bytes "1.md", bytes "2.md", bytes "3.md"]
    let s : Session := .start ⟨.folder (bytes "d") (.file (bytes "1.md") (bytes "中**粗**")
      (.file (bytes "2.md") (bytes "中") (.file (bytes "3.md") (bytes "**粗**体") .empty))) .empty,
      bytes "/d"⟩ []
    let denied (path : Bytes) : Option FileError := some ⟨.openFile, path, .permission⟩
    let a : Surroundings := .standard [] none fun _ => .failed []
    let noRead : Surroundings :=
      { a with readFault := fun path => if path = bytes "/d/2.md" then denied path else none }
    let noWrite : Surroundings :=
      { a with writeFault := fun path => if path = bytes "/d/3.md" then denied path else none }
    let all := run a opts names s
    let unread := run noRead opts names s
    let unwritten := run noWrite opts names s
    (exitCode all.2 = 0 ∧ all.1.written = [bytes "/d/1.md", bytes "/d/3.md"] ∧
        all.1.errors = bytes "fixed spacing in 2 file(s)\n") ∧
      (exitCode unread.2 = 1 ∧ unread.1.written = [bytes "/d/1.md"] ∧
        unread.1.files.root.fileAt [bytes "d", bytes "3.md"] = some (bytes "**粗**体")) ∧
      (exitCode unwritten.2 = 1 ∧ unwritten.1.written = [bytes "/d/1.md"] ∧
        unwritten.1.files.root.fileAt [bytes "d", bytes "3.md"] = some (bytes "**粗**体")) := by
  intro opts names s denied a noRead noWrite all unread unwritten
  let sources := names.map fun name => Source.file name (bytes "/d/" ++ name)
  have hcollect : collect a.matcher s.files a.env opts.excludes names = ([], .ok sources) := by
    decide +kernel
  have hcwd : isAbsolute s.files.cwd = true := by decide +kernel
  have hlocal : ∀ source ∈ sources, source.isWritable = true := by decide +kernel
  have hdistinct : (sources.map Source.path).Nodup := by decide +kernel
  have hwrite : opts.write = true := rfl
  have hall : run a opts names s = (all.1, all.2) := (Prod.eta all).symm
  have hunread : run noRead opts names s = (unread.1, unread.2) := (Prod.eta unread).symm
  have hunwritten : run noWrite opts names s = (unwritten.1, unwritten.2) := (Prod.eta unwritten).symm
  -- The faults play no part in collecting.
  have hcollectRead : collect noRead.matcher s.files noRead.env opts.excludes names =
      ([], .ok sources) := hcollect
  have hcollectWrite : collect noWrite.matcher s.files noWrite.env opts.excludes names =
      ([], .ok sources) := hcollect
  refine ⟨?_, ?_, ?_⟩
  · obtain ⟨docs, hdocs, -, hback, -, hreport⟩ :=
      (run_write hwrite rfl rfl hcwd hcollect hall).2 hlocal hdistinct
    have hcode : exitCode all.2 = 0 := by decide +kernel
    have hcount : countText (rewritten s.files all.1.files sources).length =
        "fixed spacing in 2 file(s)" := by decide +kernel
    rw [hcount, hdocs] at hreport
    rw [hdocs] at hback
    exact ⟨hcode, hback.written.trans (by decide +kernel),
      (hreport rfl hcode).trans (by decide +kernel)⟩
  · obtain ⟨docs, hdocs, -, hback, hcode, -⟩ :=
      (run_write hwrite rfl rfl hcwd hcollectRead hunread).2 hlocal hdistinct
    rw [hdocs] at hback hcode
    exact ⟨hcode.trans (by decide +kernel), hback.written.trans (by decide +kernel),
      (hback.kept _ (by decide +kernel)).trans (by decide +kernel)⟩
  · obtain ⟨docs, hdocs, -, hback, hcode, -⟩ :=
      (run_write hwrite rfl rfl hcwd hcollectWrite hunwritten).2 hlocal hdistinct
    rw [hdocs] at hback hcode
    exact ⟨hcode.trans (by decide +kernel), hback.written.trans (by decide +kernel),
      (hback.kept _ (by decide +kernel)).trans (by decide +kernel)⟩

end Fix

end EmphasisSpacing
