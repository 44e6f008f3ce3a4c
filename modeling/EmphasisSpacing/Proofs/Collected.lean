import EmphasisSpacing.Inputs.Collect
import EmphasisSpacing.Proofs.CleanPath

/-!
# Where collected documents come from

Every local document comes from an argument that names a local path. Either it is what the argument
names, or the argument names a folder and a walk through it finds the document
(`Collect.exists_of_mem_collect`).

So whatever way a document was named (by a relative path, below the home directory, by a file address,
or by a folder that holds it), its path is rooted once it is collected (`isRooted_of_mem_collect`).
-/

namespace EmphasisSpacing

open EmphasisSpacing.Path

section

variable {env : Environment} {cwd arg name path : Bytes}

theorem Source.isRooted_localPath (hcwd : isAbsolute cwd = true) (p : Bytes) :
    IsRooted (localPath env cwd p) :=
  isRooted_absolute hcwd _

/-- What an argument names is found at the path of its name. -/
theorem Source.eq_atPath_of_ofArgument? (h : ofArgument? env cwd arg = some (.file name path)) :
    Source.file name path = atPath env cwd name := by
  have hatPath : ∀ p, some (atPath env cwd p) = some (.file name path) →
      Source.file name path = atPath env cwd name := by
    intro p hp
    cases hp
    rfl
  unfold ofArgument? at h
  simp only at h
  split_ifs at h
  · cases h
  · split at h
    · split_ifs at h
      · cases h
      · exact hatPath _ h
      · exact hatPath _ h
    · exact hatPath _ h

/-- A walk finds paths below its root. -/
theorem Walk.isRooted_of_mem_events {o : Walk.Options} (hroot : isAbsolute o.root = true)
    {way : List Bytes} {d : Directory} (h : .found name path ∈ events o way d) : IsRooted path := by
  induction d generalizing way with
  | empty => cases h
  | file entry content rest ih =>
    rw [events] at h
    rcases List.mem_append.mp h with h | h
    · unfold onFile at h
      split_ifs at h
      · cases h
      · simp at h
      · obtain ⟨-, rfl⟩ := Event.found.inj (List.mem_singleton.mp h)
        exact isRooted_join hroot _
    · exact ih h
  | folder entry inside rest ihInside ihRest =>
    rw [events] at h
    rcases List.mem_append.mp h with h | h
    · split_ifs at h
      · cases h
      · simp at h
      · exact ihInside h
    · exact ihRest h

end

namespace Collect

variable {matcher : Pattern.Matcher} {fs : FileSystem} {env : Environment}
  {patterns arguments : List Bytes}
  {sources : List Source} {name path : Bytes}

/-- A local document of a source is the source itself, or a walk finds it. -/
theorem exists_of_mem_ofSource {source : Source} {notes : List Log.Entry}
    (h : ofSource matcher fs patterns source = .ok (notes, sources))
    (hmem : .file name path ∈ sources) :
    ∃ given place, source = .file given place ∧
      (name = given ∧ path = place ∨
        ∃ inside, fs.stat place = .ok (.folder inside) ∧
          .file name path ∈
            (walkBy matcher.holds patterns given place inside).filterMap sourceOf?) := by
  cases source with
  | standardInput =>
    cases h
    simp at hmem
  | web address =>
    cases h
    simp at hmem
  | file given place =>
    refine ⟨given, place, rfl, ?_⟩
    rw [ofSource] at h
    -- A path that leads nowhere, a file, or a folder to walk.
    split at h
    · cases h
    · split_ifs at h
      · cases h
        cases hmem
      · cases h
        cases List.mem_singleton.mp hmem
        exact .inl ⟨rfl, rfl⟩
    · next inside hstat =>
      cases h
      exact .inr ⟨inside, hstat, hmem⟩

theorem exists_of_mem_ofArguments (h : (ofArguments matcher fs env patterns arguments).2 = .ok sources)
    {source : Source} (hmem : source ∈ sources) :
    ∃ argument ∈ arguments, ∃ origin notes here, Source.ofArgument? env fs.cwd argument = some origin ∧
      ofSource matcher fs patterns origin = .ok (notes, here) ∧ source ∈ here := by
  induction arguments generalizing sources with
  | nil =>
    cases h
    cases hmem
  | cons argument arguments ih =>
    rw [ofArguments] at h
    split at h
    · cases h
    · next origin horigin =>
      split at h
      · cases h
      · next notes here hhere =>
        -- One argument that fails makes all of them fail.
        cases hrest : (ofArguments matcher fs env patterns arguments).2 with
        | error e =>
          simp only [hrest] at h
          cases h
        | ok rest =>
          simp only [hrest] at h
          cases h
          rcases List.mem_append.mp hmem with hmem | hmem
          · exact ⟨argument, List.mem_cons_self .., origin, notes, here, horigin, hhere, hmem⟩
          · obtain ⟨argument, hargument, hothers⟩ := ih hrest hmem
            exact ⟨argument, List.mem_cons_of_mem _ hargument, hothers⟩

/-- **Every local document comes from an argument.** -/
theorem exists_of_mem_collect {notes : List Log.Entry}
    (h : collect matcher fs env patterns arguments = (notes, .ok sources))
    (hmem : .file name path ∈ sources) :
    ∃ argument ∈ arguments, ∃ given,
      Source.ofArgument? env fs.cwd argument = some (Source.atPath env fs.cwd given) ∧
      (name = given ∧ path = Source.localPath env fs.cwd given ∨
        ∃ inside, fs.stat (Source.localPath env fs.cwd given) = .ok (.folder inside) ∧
          .file name path ∈
            (walkBy matcher.holds patterns given (Source.localPath env fs.cwd given) inside).filterMap
              sourceOf?) := by
  unfold collect at h
  split at h
  · cases h
  · split_ifs at h
    · cases h
      simp at hmem
    · obtain ⟨argument, hargument, source, notes, here, hsource, hhere, hmem⟩ :=
        exists_of_mem_ofArguments (by rw [h]) hmem
      obtain ⟨given, place, rfl, hfrom⟩ := exists_of_mem_ofSource hhere hmem
      have hplace := Source.eq_atPath_of_ofArgument? hsource
      obtain ⟨-, rfl⟩ := Source.file.inj hplace
      exact ⟨argument, hargument, given, hsource, hfrom⟩

end Collect

/-- **The paths of collected documents are rooted.** -/
theorem isRooted_of_mem_collect {matcher : Pattern.Matcher} {fs : FileSystem} {env : Environment}
    {patterns arguments : List Bytes} {notes : List Log.Entry} {sources : List Source}
    (hcwd : isAbsolute fs.cwd = true)
    (h : collect matcher fs env patterns arguments = (notes, .ok sources))
    (hlocal : ∀ source ∈ sources, source.isWritable = true) :
    ∀ source ∈ sources, IsRooted source.path := by
  intro source hmem
  have hwritable := hlocal source hmem
  cases source with
  | standardInput => cases hwritable
  | web address => cases hwritable
  | file name path =>
    obtain ⟨-, -, given, -, ⟨-, rfl⟩ | ⟨inside, -, hwalk⟩⟩ := Collect.exists_of_mem_collect h hmem
    · exact Source.isRooted_localPath hcwd given
    · obtain ⟨event, hevent, hfound⟩ := List.mem_filterMap.mp hwalk
      cases event with
      | found foundName foundPath =>
        cases hfound
        exact Walk.isRooted_of_mem_events (Source.isRooted_localPath hcwd given).1 hevent
      | excludedFile _ => cases hfound
      | excludedFolder _ => cases hfound

end EmphasisSpacing
