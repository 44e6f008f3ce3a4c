import EmphasisSpacing.Command.Run
import EmphasisSpacing.Proofs.ReadWrite

/-!
# Running over documents

The commands that handle documents do so one after the other, and stop at the first document that
they cannot handle: one that cannot be read or is refused, or whose file cannot be written. `DocumentRun`
says once what such a run is, for any step that is taken on a document, and `Fix.exists_documentRun` and
`Check.exists_documentRun` say that the loops of the commands are such runs. What is proved of the
commands is proved by induction on it.

A step may change files, so that later documents could change under the run. When no step touches the
file of another document, the documents of the run are those that were there at its start
(`DocumentRun.eq_handled`).
-/

namespace EmphasisSpacing

/-! ### Documents -/

theorem Session.writeFile_eq_ok_iff {a : Surroundings} {s s' : Session} {p content : Bytes} :
    s.writeFile a p content = .ok s' ↔ ∃ files, s.files.write p content = .ok files ∧
      a.writeFault p = none ∧ s' = { s with files := files, written := s.written ++ [p] } := by
  unfold writeFile
  cases s.files.write p content with
  | error e => simp
  | ok files => cases a.writeFault p <;> simp [eq_comm]

/-- The text of the document at a path; nothing when it cannot be read or is refused. -/
def document? (a : Surroundings) (fs : FileSystem) (p : Bytes) : Option Bytes :=
  if (a.readFault p).isSome then none
  else (fs.content? p).filter fun text => (textFault? text).isNone

section

variable {a : Surroundings} {fs : FileSystem} {p text : Bytes}

theorem document?_eq_some_iff : document? a fs p = some text ↔
    a.readFault p = none ∧ fs.content? p = some text ∧ textFault? text = none := by
  unfold document?
  cases a.readFault p with
  | none => simp [Option.filter_eq_some_iff]
  | some e => simp

/-- The documents of a file depend on its content only. -/
theorem document?_congr {fs' : FileSystem} (h : fs'.content? p = fs.content? p) :
    document? a fs' p = document? a fs p := by
  rw [document?, document?, h]

theorem Session.formatFile_of_document? (settings : Settings) (h : document? a fs p = some text) :
    formatFile a settings fs p = .ok (Outcome.of settings text) := by
  obtain ⟨hfault, hcontent, htext⟩ := document?_eq_some_iff.mp h
  unfold FileSystem.content? at hcontent
  cases hread : fs.read p with
  | error e =>
    rw [hread] at hcontent
    cases hcontent
  | ok content =>
    rw [hread] at hcontent
    cases hcontent
    simp only [formatFile, readFile, hread, hfault, formatStream, Reader.document, Reader.content,
      htext, bind, Except.bind, Except.mapError]

theorem Session.exists_formatFile_error (settings : Settings) (h : document? a fs p = none) :
    ∃ message, formatFile a settings fs p = .error message := by
  have herror : ∀ e : FileError, ∃ message,
      (if e.operation == .read then (.error (StreamError.read e.message).message : Except Bytes Outcome)
        else .error e.message) = .error message := by
    intro e
    split_ifs
    · exact ⟨_, rfl⟩
    · exact ⟨_, rfl⟩
  unfold formatFile readFile
  cases hread : fs.read p with
  | error e => exact herror e
  | ok content =>
    cases hfault : a.readFault p with
    | some e => exact herror e
    | none =>
      -- The file can be read, so its text is refused.
      have hcontent : fs.content? p = some content := by
        rw [FileSystem.content?, hread]
        rfl
      have hrefused : textFault? content ≠ none := fun hnone => by
        rw [document?_eq_some_iff.mpr ⟨hfault, hcontent, hnone⟩] at h
        cases h
      obtain ⟨fault, hrefused⟩ := Option.ne_none_iff_exists'.mp hrefused
      refine ⟨(StreamError.notText fault).message, ?_⟩
      simp only [formatStream, Reader.document, Reader.content, hrefused, bind, Except.bind,
        Except.mapError]

/-- The document of a local source is that of its file. -/
theorem Session.formatSource_of_isWritable (a : Surroundings) (settings : Settings) (s : Session)
    {source : Source} (h : source.isWritable = true) :
    s.formatSource a settings source = (s, formatFile a settings s.files source.path) := by
  cases source with
  | standardInput => cases h
  | web address => cases h
  | file name path => rfl

end

/-! ### Handled documents -/

/-- The documents in front of the first source for which `next` gives no text, with their texts. -/
def handled (next : FileSystem → Source → Option Bytes) (fs : FileSystem) :
    List Source → List (Source × Bytes)
  | [] => []
  | source :: rest =>
    match next fs source with
    | some text => (source, text) :: handled next fs rest
    | none => []

/-- The documents in front of the first source that cannot be read or is refused, with their texts. -/
def readable (a : Surroundings) : FileSystem → List Source → List (Source × Bytes) :=
  handled fun fs source => document? a fs source.path

section

variable {next : FileSystem → Source → Option Bytes} {fs : FileSystem} {source : Source}
  {text : Bytes}

theorem handled_of_some (h : next fs source = some text) (rest : List Source) :
    handled next fs (source :: rest) = (source, text) :: handled next fs rest := by
  rw [handled, h]

theorem handled_of_none (h : next fs source = none) (rest : List Source) :
    handled next fs (source :: rest) = [] := by
  rw [handled, h]

theorem handled_congr {fs' : FileSystem} {sources : List Source}
    (h : ∀ source ∈ sources, next fs' source = next fs source) :
    handled next fs' sources = handled next fs sources := by
  induction sources with
  | nil => rfl
  | cons source rest ih =>
    rw [handled, handled, h source (List.mem_cons_self ..),
      ih fun source hsource => h source (List.mem_cons_of_mem _ hsource)]

theorem next_of_mem_handled {sources : List Source} (h : (source, text) ∈ handled next fs sources) :
    next fs source = some text := by
  induction sources with
  | nil => cases h
  | cons first rest ih =>
    cases hfirst : next fs first with
    | none =>
      rw [handled_of_none hfirst] at h
      cases h
    | some firstText =>
      rw [handled_of_some hfirst] at h
      rcases List.mem_cons.mp h with h | h
      · cases h
        exact hfirst
      · exact ih h

theorem map_handled_isPrefix (next : FileSystem → Source → Option Bytes) (fs : FileSystem)
    (sources : List Source) : (handled next fs sources).map Prod.fst <+: sources := by
  induction sources with
  | nil => exact List.prefix_refl _
  | cons source rest ih =>
    rw [handled]
    split
    · exact (List.prefix_cons_inj source).mpr ih
    · exact List.nil_prefix

end

/-! ### Runs -/

/-- Whether files, the record of writes and standard output are as they were. -/
structure Session.SameEffects (s s' : Session) : Prop where
  files : s'.files = s.files
  written : s'.written = s.written
  output : s'.output = s.output

/-- A run over sources that handles the given documents, each by a step `R`. It ends in front of the
first source for which `next` gives no text. -/
inductive DocumentRun (next : FileSystem → Source → Option Bytes)
    (R : Source → Bytes → Session → Session → Prop) :
    List Source → List (Source × Bytes) → Session → Session → Prop
  | done (s : Session) : DocumentRun next R [] [] s s
  | stopped {source : Source} {s s' : Session} (rest : List Source) (h : next s.files source = none)
      (hsame : s.SameEffects s') : DocumentRun next R (source :: rest) [] s s'
  | handled {source : Source} {text : Bytes} {rest : List Source} {docs : List (Source × Bytes)}
      {s s₁ s' : Session} (h : next s.files source = some text)
      (hstep : R source text s s₁) (hrest : DocumentRun next R rest docs s₁ s') :
      DocumentRun next R (source :: rest) ((source, text) :: docs) s s'

/-- How a run over sources ends: with a value when all their documents were handled, and otherwise
without success. -/
def Ends {α : Type} (sources : List Source) (docs : List (Source × Bytes)) (value : α)
    (result : Except Failure α) : Prop :=
  if docs.map Prod.fst = sources then result = .ok value else ∃ f, result = .error f ∧ f.code = 1

/-- Whether formatting changes a document. -/
def changes (settings : Settings) (doc : Source × Bytes) : Bool := format settings doc.2 != doc.2

namespace DocumentRun

variable {next : FileSystem → Source → Option Bytes} {R : Source → Bytes → Session → Session → Prop}
  {sources : List Source} {docs : List (Source × Bytes)} {s s' : Session}

theorem mem_sources (h : DocumentRun next R sources docs s s') {doc : Source × Bytes}
    (hdoc : doc ∈ docs) : doc.1 ∈ sources := by
  induction h with
  | done s => cases hdoc
  | stopped rest h hsame => cases hdoc
  | handled h hstep hrest ih =>
    rcases List.mem_cons.mp hdoc with rfl | hdoc
    · exact List.mem_cons_self ..
    · exact List.mem_cons_of_mem _ (ih hdoc)

/-- **When each step keeps to its own file, the run handles the documents that were there at its
start.** -/
theorem eq_handled (hrooted : ∀ source ∈ sources, Path.IsRooted source.path)
    (hdistinct : (sources.map Source.path).Nodup)
    (hframe : ∀ source text s s₁, Path.IsRooted source.path → R source text s s₁ →
      ∀ other, Path.IsRooted other.path → other.path ≠ source.path →
        next s₁.files other = next s.files other)
    (h : DocumentRun next R sources docs s s') : docs = EmphasisSpacing.handled next s.files sources := by
  induction h with
  | done s => rfl
  | stopped rest h hsame => rw [handled_of_none h]
  | @handled source text rest docs s s₁ s' h hstep hrest ih =>
    rw [List.map_cons, List.nodup_cons] at hdistinct
    rw [List.forall_mem_cons] at hrooted
    have hsame : ∀ other ∈ rest, next s₁.files other = next s.files other := by
      intro other hother
      refine hframe source text s s₁ hrooted.1 hstep other (hrooted.2 other hother) ?_
      intro hpath
      exact hdistinct.1 (hpath ▸ List.mem_map_of_mem hother)
    rw [handled_of_some h, ih hrooted.2 hdistinct.2, handled_congr hsame]

end DocumentRun

/-! ### The loops of the commands -/

theorem ends_cons {α : Type} {source : Source} {text : Bytes} {rest : List Source}
    {docs : List (Source × Bytes)} {value : α} {result : Except Failure α} {f : α → α}
    (h : Ends rest docs value result) :
    Ends (source :: rest) ((source, text) :: docs) (f value) (result.map f) := by
  unfold Ends at h ⊢
  simp only [List.map_cons, List.cons.injEq, true_and]
  split_ifs at h ⊢ with hall
  · rw [h]
    rfl
  · obtain ⟨failure, rfl, hcode⟩ := h
    exact ⟨failure, rfl, hcode⟩

/-- What a command makes of a document that it has read: it takes a step, or fails without having done
anything. `I` is what a step needs, and keeps. -/
def Delivers (next : FileSystem → Source → Option Bytes)
    (R : Source → Bytes → Session → Session → Prop) (I : Session → Prop) (source : Source)
    (text : Bytes) (s : Session) (delivered : Except Failure Session) : Prop :=
  match delivered with
  | .ok s₁ => next s.files source = some text ∧ R source text s s₁ ∧ I s₁
  | .error f => next s.files source = none ∧ f.code = 1

/-- **Fixing documents is a run.** -/
theorem Fix.exists_documentRun {a : Surroundings} {opts : Fix.Options} {output : Output}
    {next : FileSystem → Source → Option Bytes} {R : Source → Bytes → Session → Session → Prop}
    {I : Session → Prop} {sources : List Source}
    (hlocal : ∀ source ∈ sources, source.isWritable = true)
    (hnext : ∀ fs source, document? a fs source.path = none → next fs source = none)
    (hstep : ∀ source ∈ sources, ∀ text s, I s → document? a s.files source.path = some text →
      Delivers next R I source text s (deliver a opts output source (Outcome.of opts.settings text)
        (s.log opts.verbose [note source (Outcome.of opts.settings text)]))) {s : Session} (hs : I s) :
    ∃ docs, DocumentRun next R sources docs s (documents a opts output sources s).1 ∧
      Ends sources docs (docs.countP (changes opts.settings))
        (documents a opts output sources s).2 := by
  induction sources generalizing s with
  | nil => exact ⟨[], .done s, rfl⟩
  | cons source rest ih =>
    rw [List.forall_mem_cons] at hlocal hstep
    rw [documents, Session.formatSource_of_isWritable a opts.settings s hlocal.1]
    cases hdoc : document? a s.files source.path with
    | none =>
      obtain ⟨message, hformat⟩ := Session.exists_formatFile_error opts.settings hdoc
      rw [hformat]
      exact ⟨[], .stopped rest (hnext _ _ hdoc) ⟨rfl, rfl, rfl⟩,
        Session.sourceFailure source message, rfl, rfl⟩
    | some text =>
      rw [Session.formatFile_of_document? opts.settings hdoc]
      have hdelivers := hstep.1 text s hs hdoc
      dsimp only
      cases hdeliver : deliver a opts output source (Outcome.of opts.settings text)
          (s.log opts.verbose [note source (Outcome.of opts.settings text)]) with
      | error f =>
        rw [hdeliver] at hdelivers
        exact ⟨[], .stopped rest hdelivers.1 ⟨rfl, rfl, rfl⟩, f, rfl, hdelivers.2⟩
      | ok s₁ =>
        rw [hdeliver] at hdelivers
        obtain ⟨hhandled, hR, hI⟩ := hdelivers
        obtain ⟨docs, hrun, hends⟩ := ih hlocal.2 hstep.2 hI
        refine ⟨(source, text) :: docs, .handled hhandled hR hrun, ?_⟩
        rw [List.countP_cons]
        exact ends_cons hends

/-- On local documents the command comes to its run. -/
theorem Fix.run_of_collect {a : Surroundings} {opts : Fix.Options} {arguments : List Bytes}
    {s : Session} {notes : List Log.Entry} {sources : List Source}
    (hstart : (opts.write && !opts.output.isEmpty) = false)
    (hcollect : collect a.matcher s.files a.env opts.excludes arguments = (notes, .ok sources))
    (hlocal : ∀ source ∈ sources, source.isWritable = true) :
    run a opts arguments s = onSources a opts sources (s.log opts.verbose notes) := by
  have hnone : unwritable? opts sources = none := by
    unfold unwritable?
    split_ifs
    · rw [List.find?_eq_none]
      simpa using hlocal
    · rfl
  unfold run
  rw [hstart, hcollect]
  simp only [Bool.false_eq_true, if_false, hnone]

/-- How the command ends after its run: with a report, or without success. -/
theorem Fix.onSources_of_ends {a : Surroundings} {opts : Fix.Options} {output : Output}
    {sources : List Source} {docs : List (Source × Bytes)} {count : Nat} {s s₀ : Session}
    (hopen : openOutput a opts.output s = (s₀, .ok output))
    (hends : Ends sources docs count (documents a opts output sources s₀).2) :
    (documents a opts output sources s₀).1.SameEffects (onSources a opts sources s).1 ∧
      if docs.map Prod.fst = sources then
        onSources a opts sources s =
          (if opts.silent then (documents a opts output sources s₀).1
            else (documents a opts output sources s₀).1.tell (report count), .ok ())
      else exitCode (onSources a opts sources s).2 = 1 := by
  unfold onSources
  simp only [hopen]
  generalize documents a opts output sources s₀ = ran at hends ⊢
  obtain ⟨s₁, result⟩ := ran
  by_cases hall : docs.map Prod.fst = sources
  · rw [Ends, if_pos hall] at hends
    obtain rfl : result = .ok count := hends
    rw [if_pos hall]
    refine ⟨?_, rfl⟩
    cases opts.silent <;> exact ⟨rfl, rfl, rfl⟩
  · rw [Ends, if_neg hall] at hends
    obtain ⟨f, hf, hcode⟩ := hends
    obtain rfl : result = .error f := hf
    rw [if_neg hall]
    exact ⟨⟨rfl, rfl, rfl⟩, hcode⟩

/-- What reporting a document does: a document that would change is named. -/
def Check.Reported (a : Surroundings) (settings : Settings) (source : Source) (text : Bytes)
    (s s₁ : Session) : Prop :=
  s₁ = if changes settings (source, text) then s.display a (source.name ++ [Bytes.lf]) else s

/-- **Reporting documents is a run.** -/
theorem Check.exists_documentRun (a : Surroundings) {opts : Check.Options}
    (hdiff : opts.diff = false) {sources : List Source}
    (hlocal : ∀ source ∈ sources, source.isWritable = true) (s : Session) :
    ∃ docs, DocumentRun (fun fs source => document? a fs source.path) (Reported a opts.settings)
        sources docs s (documents a opts sources s).1 ∧
      Ends sources docs (docs.any (changes opts.settings)) (documents a opts sources s).2 := by
  induction sources generalizing s with
  | nil => exact ⟨[], .done s, rfl⟩
  | cons source rest ih =>
    rw [List.forall_mem_cons] at hlocal
    rw [documents, Session.formatSource_of_isWritable a opts.settings s hlocal.1]
    cases hdoc : document? a s.files source.path with
    | none =>
      obtain ⟨message, hformat⟩ := Session.exists_formatFile_error opts.settings hdoc
      rw [hformat]
      exact ⟨[], .stopped rest hdoc ⟨rfl, rfl, rfl⟩, Session.sourceFailure source message, rfl, rfl⟩
    | some text =>
      rw [Session.formatFile_of_document? opts.settings hdoc]
      have hchanged : (Outcome.of opts.settings text).changed =
          changes opts.settings (source, text) := rfl
      cases hchanges : changes opts.settings (source, text) with
      | false =>
        obtain ⟨docs, hrun, hends⟩ := ih hlocal.2 s
        simp only [hchanged, hchanges, Bool.not_false, if_true]
        refine ⟨(source, text) :: docs, .handled hdoc (by simp [Reported, hchanges]) hrun, ?_⟩
        -- A document that stays the same is not reported, and does not change the answer.
        have hmap : (documents a opts rest s).2.map id = (documents a opts rest s).2 := by
          cases (documents a opts rest s).2 <;> rfl
        rw [List.any_cons, hchanges, Bool.false_or, ← hmap]
        exact ends_cons hends
      | true =>
        obtain ⟨docs, hrun, hends⟩ := ih hlocal.2 (s.display a (source.name ++ [Bytes.lf]))
        simp only [hchanged, hchanges, Bool.not_true, Bool.false_eq_true, if_false, report, hdiff]
        refine ⟨(source, text) :: docs, .handled hdoc (by simp [Reported, hchanges]) hrun, ?_⟩
        rw [List.any_cons, hchanges, Bool.true_or]
        exact ends_cons (f := fun _ => true) hends

end EmphasisSpacing
