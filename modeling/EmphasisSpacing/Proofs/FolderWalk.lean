import Mathlib.Data.List.Lex
import EmphasisSpacing.Inputs.Collect
import EmphasisSpacing.Proofs.CleanPath
import EmphasisSpacing.Proofs.FileTree

/-!
# What a walk through a folder finds

A folder lists its entries by increasing names (`Directory.IsListing`), so its files stand in the order
of their locations (`Directory.pairwise_files`), and at each location stands what a lookup finds there
(`Directory.mem_files_iff`).

A walk goes through the same list and leaves files out. Which ones is told by their locations alone
(`Walk.Options.takes`): a folder that is passed over on the way takes everything below it along, and
nothing else. So the walk finds the files of the list that it takes (`Collect.filterMap_events`), and
`Collect.walk_finds` says in the words of the patterns which ones these are.
-/

namespace EmphasisSpacing

namespace Directory

/-! ### The order of locations -/

/-- The order of names: byte by byte, a proper beginning first. -/
def NameBefore : Bytes → Bytes → Prop := List.Lex (· < ·)

/-- The order in which a folder and the folders in it are gone through: name by name, and what is inside
of a folder where the folder stands. -/
def Before : List Bytes → List Bytes → Prop := List.Lex NameBefore

instance (q : Bytes) : Decidable (Path.IsName q) :=
  inferInstanceAs (Decidable (q ≠ [] ∧ q ≠ Path.dot ∧ q ≠ Path.dotDot ∧ Bytes.slash ∉ q))

instance : DecidableRel NameBefore := inferInstanceAs (DecidableRel (List.Lex (· < ·)))

section

variable {n n' : Bytes} {l l' : List Bytes}

theorem NameBefore.ne (h : NameBefore n n') : n ≠ n' :=
  List.Lex.to_ne (List.Lex.imp (fun _ _ hlt => UInt8.ne_of_lt hlt) _ _ h)

theorem Before.ne (h : Before l l') : l ≠ l' :=
  List.Lex.to_ne (List.Lex.imp (fun _ _ hbefore => NameBefore.ne hbefore) _ _ h)

end

/-! ### Listings -/

/-- Whether a directory lists entries of a folder: by increasing names, and so on in the folders. -/
def IsListing : Directory → Prop
  | .empty => True
  | .file name _ rest =>
    Path.IsName name ∧ (∀ other ∈ rest.names, NameBefore name other) ∧ rest.IsListing
  | .folder name inside rest =>
    Path.IsName name ∧ (∀ other ∈ rest.names, NameBefore name other) ∧ inside.IsListing ∧ rest.IsListing

instance decidableIsListing : (d : Directory) → Decidable d.IsListing
  | .empty => inferInstanceAs (Decidable True)
  | .file name _ rest =>
    have := decidableIsListing rest
    inferInstanceAs (Decidable (Path.IsName name ∧ (∀ other ∈ rest.names, NameBefore name other) ∧ _))
  | .folder name inside rest =>
    have := decidableIsListing inside
    have := decidableIsListing rest
    inferInstanceAs
      (Decidable (Path.IsName name ∧ (∀ other ∈ rest.names, NameBefore name other) ∧ _ ∧ _))

section

variable {d : Directory} {name content : Bytes} {way location : List Bytes}

/-- A way to the directory is a beginning of all locations in it. -/
theorem files_eq (d : Directory) (way : List Bytes) :
    d.files way = (d.files []).map (Prod.map (way ++ ·) id) := by
  induction d generalizing way with
  | empty => rfl
  | file name content rest ih =>
    rw [files, files, ih way, List.map_cons]
    rfl
  | folder name inside rest ihInside ihRest =>
    have hinside : (inside.files [name]).map (Prod.map (way ++ ·) id) =
        inside.files (way ++ [name]) := by
      rw [ihInside [name], ihInside (way ++ [name]), List.map_map]
      simp [Function.comp_def]
    rw [files, files, List.map_append, List.nil_append, hinside, ← ihRest way]

theorem files_folder (name : Bytes) (inside rest : Directory) :
    (folder name inside rest).files [] =
      (inside.files []).map (Prod.map (name :: ·) id) ++ rest.files [] := by
  rw [files, List.nil_append, files_eq inside [name]]
  rfl

/-- The location of a file starts with a name of the directory. -/
theorem exists_of_mem_files (h : (location, content) ∈ d.files []) :
    ∃ first more, location = first :: more ∧ first ∈ d.names := by
  induction d generalizing location with
  | empty => cases h
  | file name _ rest ih =>
    rcases List.mem_cons.mp h with h | h
    · obtain ⟨rfl, -⟩ := Prod.mk.inj h
      exact ⟨name, [], rfl, List.mem_cons_self ..⟩
    · obtain ⟨first, more, hlocation, hfirst⟩ := ih h
      exact ⟨first, more, hlocation, List.mem_cons_of_mem _ hfirst⟩
  | folder name inside rest _ ih =>
    rw [files_folder] at h
    rcases List.mem_append.mp h with h | h
    · obtain ⟨⟨more, _⟩, -, hpair⟩ := List.mem_map.mp h
      obtain ⟨rfl, -⟩ := Prod.mk.inj hpair
      exact ⟨name, more, rfl, List.mem_cons_self ..⟩
    · obtain ⟨first, more, hlocation, hfirst⟩ := ih h
      exact ⟨first, more, hlocation, List.mem_cons_of_mem _ hfirst⟩

/-- What stands in front comes before all that follows. -/
theorem before_of_mem_files (hname : ∀ other ∈ d.names, NameBefore name other) (more : List Bytes)
    (h : location ∈ (d.files []).map Prod.fst) : Before (name :: more) location := by
  obtain ⟨⟨location, content⟩, hmem, rfl⟩ := List.mem_map.mp h
  obtain ⟨first, tail, rfl, hfirst⟩ := exists_of_mem_files hmem
  exact .rel (hname first hfirst)

/-- **The files of a listing stand in the order of their locations.** -/
theorem pairwise_files (h : d.IsListing) : ((d.files []).map Prod.fst).Pairwise Before := by
  induction d with
  | empty => exact .nil
  | file name content rest ih =>
    obtain ⟨-, hnames, hrest⟩ := h
    rw [files, List.map_cons, List.pairwise_cons]
    exact ⟨fun location hmem => before_of_mem_files hnames [] hmem, ih hrest⟩
  | folder name inside rest ihInside ihRest =>
    obtain ⟨-, hnames, hinside, hrest⟩ := h
    have hbelow : ((inside.files []).map Prod.fst).Pairwise
        fun l l' => Before (name :: l) (name :: l') :=
      (ihInside hinside).imp .cons
    rw [files_folder, List.map_append, List.map_map, List.pairwise_append]
    refine ⟨?_, ihRest hrest, ?_⟩
    · rw [List.pairwise_map] at hbelow ⊢
      exact hbelow
    · intro l hl l' hl'
      obtain ⟨file, -, rfl⟩ := List.mem_map.mp hl
      exact before_of_mem_files hnames file.1 hl'

/-- The name in front stands for no other entry. -/
theorem notMem_files (hname : ∀ other ∈ d.names, NameBefore name other) (more : List Bytes) :
    (name :: more, content) ∉ d.files [] := by
  intro hmem
  have hbefore := before_of_mem_files hname more (List.mem_map_of_mem hmem)
  exact hbefore.ne rfl

theorem mem_map_files_iff (more : List Bytes) :
    (name :: more, content) ∈ (d.files []).map (Prod.map (name :: ·) id) ↔
      (more, content) ∈ d.files [] := by
  rw [List.mem_map]
  constructor
  · rintro ⟨⟨more', content'⟩, hmem, hpair⟩
    obtain ⟨hmore, rfl⟩ := Prod.mk.inj hpair
    rwa [← (List.cons.inj hmore).2]
  · exact fun hmem => ⟨(more, content), hmem, rfl⟩

/-- **The files of a listing are what stands at their locations.** -/
theorem mem_files_iff (h : d.IsListing) :
    (location, content) ∈ d.files [] ↔ d.view location = some (some content) := by
  induction d generalizing location with
  | empty =>
    cases location with
    | nil => simp [files, view, lookup, Entry.content?]
    | cons first more => simp [files, view_of_find?_none (d := empty) rfl]
  | file name text rest ih =>
    obtain ⟨-, hnames, hrest⟩ := h
    rw [files, List.nil_append, List.mem_cons, Prod.mk.injEq, ih hrest]
    cases location with
    | nil => simp [view, lookup, Entry.content?]
    | cons first more =>
      by_cases hfirst : name = first
      · subst hfirst
        have hfind : (file name text rest).find? name = some (.file text) := by simp [find?]
        -- Names are distinct, so the location lies in this entry and not behind it.
        rw [view_of_find?_file hfind, ← ih hrest, or_iff_left (notMem_files hnames more)]
        by_cases hmore : more = [] <;> simp [hmore, eq_comm]
      · have hfind : (file name text rest).find? first = rest.find? first := by simp [find?, hfirst]
        rw [view_eq_of_find?_eq hfind, or_iff_right]
        rintro ⟨hlocation, -⟩
        exact hfirst (List.cons.inj hlocation).1.symm
  | folder name inside rest ihInside ihRest =>
    obtain ⟨-, hnames, hinside, hrest⟩ := h
    rw [files_folder, List.mem_append, ihRest hrest]
    cases location with
    | nil => simp [view, lookup, Entry.content?]
    | cons first more =>
      by_cases hfirst : name = first
      · subst hfirst
        have hfind : (folder name inside rest).find? name = some (.folder inside) := by simp [find?]
        -- As for a file, but the rest of the location is looked up in the folder.
        rw [view_of_find?_folder hfind, ← ihInside hinside, ← ihRest hrest, mem_map_files_iff,
          or_iff_left (notMem_files hnames more)]
      · have hfind : (folder name inside rest).find? first = rest.find? first := by simp [find?, hfirst]
        rw [view_eq_of_find?_eq hfind, or_iff_right]
        intro hmem
        obtain ⟨file, -, hlocation⟩ := List.mem_map.mp hmem
        exact hfirst (List.cons.inj (Prod.mk.inj hlocation).1).1

theorem mem_locations_iff (h : d.IsListing) :
    location ∈ (d.files []).map Prod.fst ↔ ∃ content, d.fileAt location = some content := by
  rw [List.mem_map]
  constructor
  · rintro ⟨⟨_, content⟩, hmem, rfl⟩
    exact ⟨content, fileAt_eq_some_iff.mpr ((mem_files_iff h).mp hmem)⟩
  · rintro ⟨content, hfile⟩
    exact ⟨(location, content), (mem_files_iff h).mpr (fileAt_eq_some_iff.mp hfile), rfl⟩

/-- Every location of a listing is made of names. -/
theorem isName_of_mem_files (h : d.IsListing) (hmem : (location, content) ∈ d.files []) :
    ∀ q ∈ location, Path.IsName q := by
  induction d generalizing location with
  | empty => cases hmem
  | file name text rest ih =>
    obtain ⟨hname, -, hrest⟩ := h
    rcases List.mem_cons.mp hmem with hpair | hmem
    · obtain ⟨rfl, -⟩ := Prod.mk.inj hpair
      exact List.forall_mem_singleton.mpr hname
    · exact ih hrest hmem
  | folder name inside rest ihInside ihRest =>
    obtain ⟨hname, -, hinside, hrest⟩ := h
    rw [files_folder] at hmem
    rcases List.mem_append.mp hmem with hmem | hmem
    · obtain ⟨⟨more, _⟩, hmore, hpair⟩ := List.mem_map.mp hmem
      obtain ⟨rfl, rfl⟩ := Prod.mk.inj hpair
      exact List.forall_mem_cons.mpr ⟨hname, ihInside hinside hmore⟩
    · exact ihRest hrest hmem

/-- A folder of a listing is a listing. -/
theorem IsListing.of_find? {inside : Directory} (h : d.IsListing)
    (hfind : d.find? name = some (.folder inside)) : inside.IsListing := by
  induction d with
  | empty => cases hfind
  | file other content rest ih =>
    rw [find?] at hfind
    split_ifs at hfind
    · cases hfind
    · exact ih h.2.2 hfind
  | folder other below rest _ ih =>
    rw [find?] at hfind
    split_ifs at hfind
    · cases hfind
      exact h.2.2.1
    · exact ih h.2.2.2 hfind

theorem IsListing.of_lookup {inside : Directory} (h : d.IsListing)
    (hlookup : d.lookup location = some (.folder inside)) : inside.IsListing := by
  induction location generalizing d with
  | nil =>
    cases hlookup
    exact h
  | cons name more ih =>
    rw [lookup_cons] at hlookup
    split at hlookup
    · next below hfind => exact ih (h.of_find? hfind) hlookup
    · split_ifs at hlookup
      cases hlookup
    · cases hlookup

theorem isName_of_mem_locations (h : d.IsListing) (hmem : location ∈ (d.files []).map Prod.fst) :
    location ≠ [] ∧ ∀ q ∈ location, Path.IsName q := by
  obtain ⟨⟨location, content⟩, hfile, rfl⟩ := List.mem_map.mp hmem
  obtain ⟨first, more, hlocation, -⟩ := exists_of_mem_files hfile
  refine ⟨?_, isName_of_mem_files h hfile⟩
  rw [hlocation]
  exact List.cons_ne_nil first more

end

end Directory

/-! ### What a walk takes -/

namespace Walk

variable {o : Options} {way location : List Bytes} {name : Bytes}

/-- Whether a walk finds the file at a location, where `way` leads to the directory in which the location
starts: every folder on it is entered, and the file at its end is a document and not excluded. -/
def Options.takes (o : Options) : (way location : List Bytes) → Bool
  | _, [] => false
  | way, [name] => isMarkdown name && !o.excludes (way ++ [name])
  | way, folder :: next :: more =>
    !isHidden folder && !o.excludes (way ++ [folder]) && o.takes (way ++ [folder]) (next :: more)

theorem takes_cons (hlocation : location ≠ []) :
    o.takes way (name :: location) =
      (!isHidden name && !o.excludes (way ++ [name]) && o.takes (way ++ [name]) location) := by
  obtain ⟨next, more, rfl⟩ := List.exists_cons_of_ne_nil hlocation
  rw [Options.takes]

/-- What holds at each place of a list holds at its head and at each place behind it. -/
theorem forall_split_cons {α : Type} {P : List α → α → Prop} {a : α} {l : List α} :
    (∀ up x down, a :: l = up ++ x :: down → P up x) ↔
      P [] a ∧ ∀ up x down, l = up ++ x :: down → P (a :: up) x := by
  constructor
  · intro h
    refine ⟨h [] a l rfl, fun up x down hl => h (a :: up) x down ?_⟩
    rw [hl, List.cons_append]
  · rintro ⟨hhead, htail⟩ up x down hl
    cases up with
    | nil =>
      obtain ⟨rfl, -⟩ := List.cons.inj hl
      exact hhead
    | cons b up =>
      obtain ⟨rfl, hdown⟩ := List.cons.inj hl
      exact htail up x down hdown

/-- What is taken, folder by folder. -/
theorem takes_concat (folders : List Bytes) :
    o.takes way (folders ++ [name]) = true ↔
      (∀ up folder down, folders = up ++ folder :: down →
        isHidden folder = false ∧ o.excludes (way ++ (up ++ [folder])) = false) ∧
      isMarkdown name = true ∧ o.excludes (way ++ (folders ++ [name])) = false := by
  induction folders generalizing way with
  | nil => simp [Options.takes]
  | cons folder folders ih =>
    rw [List.cons_append, takes_cons (by simp), Bool.and_eq_true, ih, forall_split_cons]
    simp [and_assoc]

end Walk

namespace Collect

open EmphasisSpacing.Walk

theorem filterMap_onFile (o : Options) (way : List Bytes) (name : Bytes) :
    (onFile o (way ++ [name]) name).filterMap sourceOf? =
      if o.takes way [name] then [.file (o.name (way ++ [name])) (o.path (way ++ [name]))] else [] := by
  rw [Options.takes, onFile]
  cases isMarkdown name <;> cases o.excludes (way ++ [name]) <;> rfl

/-- Of what is inside of a folder, all that is taken there is taken if the folder is entered, and
nothing otherwise. -/
theorem filter_takes_folder (o : Options) (way : List Bytes) (name : Bytes) (d : Directory) :
    ((d.files []).map fun file => name :: file.1).filter (o.takes way) =
      if !isHidden name && !o.excludes (way ++ [name]) then
        (((d.files []).map Prod.fst).filter (o.takes (way ++ [name]))).map (name :: ·)
      else [] := by
  have htakes : ∀ file ∈ d.files [], o.takes way (name :: file.1) =
      (!isHidden name && !o.excludes (way ++ [name]) && o.takes (way ++ [name]) file.1) := by
    intro file hfile
    obtain ⟨first, more, hlocation, -⟩ := Directory.exists_of_mem_files hfile
    exact takes_cons (by rw [hlocation]; exact List.cons_ne_nil first more)
  have hfilter : (d.files []).filter (o.takes way ∘ fun file => name :: file.1) = (d.files []).filter
      fun file => !isHidden name && !o.excludes (way ++ [name]) && o.takes (way ++ [name]) file.1 :=
    List.filter_congr htakes
  rw [List.filter_map, hfilter, List.filter_map]
  cases !isHidden name && !o.excludes (way ++ [name]) <;> simp [Function.comp_def]

/-- **A walk finds the files that it takes, in the order in which they stand.** -/
theorem filterMap_events (o : Options) (way : List Bytes) (d : Directory) :
    (events o way d).filterMap sourceOf? =
      (((d.files []).map Prod.fst).filter (o.takes way)).map fun location =>
        .file (o.name (way ++ location)) (o.path (way ++ location)) := by
  induction d generalizing way with
  | empty => rfl
  | file name content rest ih =>
    rw [events, List.filterMap_append, filterMap_onFile, ih, Directory.files, List.map_cons,
      List.nil_append, List.filter_cons]
    split_ifs <;> rfl
  | folder name inside rest ihInside ihRest =>
    rw [events, List.filterMap_append, ihRest, Directory.files_folder, List.map_append,
      List.filter_append, List.map_append]
    congr 1
    rw [List.map_map]
    show _ = (((inside.files []).map fun file => name :: file.1).filter (o.takes way)).map _
    rw [filter_takes_folder]
    cases isHidden name with
    | true => rfl
    | false =>
      cases o.excludes (way ++ [name]) with
      | true => rfl
      | false =>
        show (events o (way ++ [name]) inside).filterMap sourceOf? = _
        rw [ihInside]
        simp

/-! ### What a walk finds -/

section

variable {matching : (pattern name : Bytes) → Bool} {patterns : List Bytes} {display root name : Bytes}
  {way location location' : List Bytes}

/-- Whether a pattern matches the entry `name` of the folder to which `way` leads: by its name below the
name of the root, by its path below the root, or by the entry's own name. -/
def IsExcluded (matching : (pattern name : Bytes) → Bool) (patterns : List Bytes) (display : Bytes)
    (way : List Bytes) (name : Bytes) : Prop :=
  ∃ p ∈ patterns, matching p (Path.join [display, relative (way ++ [name])]) = true ∨
    matching p (relative (way ++ [name])) = true ∨ matching p name = true

theorem clean_relative (hne : location ≠ []) (hnames : ∀ q ∈ location, Path.IsName q) :
    Path.clean (relative location) = relative location := by
  have hparts : relative location = Path.ofParts false location := by
    rw [Path.ofParts, if_neg Bool.false_ne_true, if_neg (by simpa using hne), relative]
  rw [hparts]
  exact Path.clean_ofParts (.of_names fun q hq => hnames q (List.mem_reverse.mp hq))

/-- The three spellings that are matched. -/
theorem excludes_concat_iff (hnames : ∀ q ∈ way ++ [name], Path.IsName q) :
    (optionsBy matching patterns display root).excludes (way ++ [name]) = true ↔
      IsExcluded matching patterns display way name := by
  have hne : way ++ [name] ≠ [] := by simp
  have hname : Path.IsName name := hnames name (by simp)
  have hjoin : Path.join [display, relative (way ++ [name])] =
      Path.ofParts (Path.isAbsolute display) (Path.parts display ++ (way ++ [name])) :=
    Path.join_names display hne hnames
  have hclean : Path.clean (Path.join [display, relative (way ++ [name])]) =
      Path.join [display, relative (way ++ [name])] := by
    rw [hjoin, Path.clean_ofParts (Path.resolved_append display hnames)]
  have hbase : Path.base (Path.join [display, relative (way ++ [name])]) = name := by
    rw [hjoin, ← List.append_assoc, Path.base_ofParts hname]
  show Pattern.excludesBy matching patterns
    [Path.join [display, relative (way ++ [name])], relative (way ++ [name])] = true ↔ _
  unfold Pattern.excludesBy IsExcluded
  simp [hclean, clean_relative hne hnames, hbase]

/-- What is taken, in the words of the patterns. -/
theorem takes_concat_iff (hnames : ∀ q ∈ way ++ [name], Path.IsName q) :
    (optionsBy matching patterns display root).takes [] (way ++ [name]) = true ↔
      LowerCase.text (Path.extension name) ∈ extensions ∧
      (∀ up folder down, way = up ++ folder :: down →
        folder.head? ≠ some 0x2E ∧ ¬ IsExcluded matching patterns display up folder) ∧
      ¬ IsExcluded matching patterns display way name := by
  have hfolder : ∀ up folder down, way = up ++ folder :: down →
      ((optionsBy matching patterns display root).excludes (up ++ [folder]) = true ↔
        IsExcluded matching patterns display up folder) := by
    rintro up folder down rfl
    refine excludes_concat_iff fun q hq => hnames q ?_
    rw [List.append_assoc, List.cons_append, List.append_cons]
    exact List.mem_append_left _ hq
  have hmarkdown : isMarkdown name = true ↔ LowerCase.text (Path.extension name) ∈ extensions := by
    rw [isMarkdown, List.contains_iff_mem]
  have hhidden : ∀ folder : Bytes, isHidden folder = false ↔ folder.head? ≠ some 0x2E := by
    intro folder
    rw [isHidden, beq_eq_false_iff_ne]
  rw [takes_concat, List.nil_append, ← Bool.not_eq_true, excludes_concat_iff hnames, hmarkdown,
    and_left_comm]
  refine and_congr_right fun _ => and_congr_left fun _ => ?_
  refine forall₃_congr fun up folder down => forall_congr' fun hway => ?_
  rw [List.nil_append, hhidden, ← Bool.not_eq_true, hfolder up folder down hway]

/-- Different locations have different paths. -/
theorem join_relative_inj (hne : location ≠ []) (hnames : ∀ q ∈ location, Path.IsName q)
    (hne' : location' ≠ []) (hnames' : ∀ q ∈ location', Path.IsName q)
    (h : Path.join [root, relative location] = Path.join [root, relative location']) :
    location = location' := by
  have hparts : Path.parts root ++ location = Path.parts root ++ location' := by
    rw [← Path.parts_ofParts (Path.resolved_append root hnames),
      ← Path.parts_ofParts (Path.resolved_append root hnames'), ← Path.join_names root hne hnames,
      ← Path.join_names root hne' hnames']
    exact congrArg Path.parts h
  exact List.append_cancel_left hparts

end

/-- **What a walk finds.** Whatever it means that a pattern matches a name, a walk finds the files of
the folder and of the folders in it in the order of their locations and each of them once: those with
the ending of a document, with no hidden and no excluded folder on the way, that are not excluded
themselves. A document has the name of its location below the name of the root, and the path of its
location below the root. -/
theorem walk_finds (matching : (pattern name : Bytes) → Bool) (patterns : List Bytes)
    (display root : Bytes) {inside : Directory} (hinside : inside.IsListing) :
    ∃ locations : List (List Bytes),
      (walkBy matching patterns display root inside).filterMap sourceOf? =
        locations.map (fun location =>
          .file (Path.join [display, relative location]) (Path.join [root, relative location])) ∧
      ((walkBy matching patterns display root inside).filterMap sourceOf?).Nodup ∧
      locations.Pairwise Directory.Before ∧
      ∀ location, location ∈ locations ↔ ∃ way name, location = way ++ [name] ∧
        (∃ content, inside.fileAt location = some content) ∧
        LowerCase.text (Path.extension name) ∈
          [bytes ".md", bytes ".markdown", bytes ".mdown", bytes ".mkd"] ∧
        (∀ up folder down, way = up ++ folder :: down →
          folder.head? ≠ some 0x2E ∧ ¬ IsExcluded matching patterns display up folder) ∧
        ¬ IsExcluded matching patterns display way name := by
  have hfinds : (walkBy matching patterns display root inside).filterMap sourceOf? = _ :=
    filterMap_events (optionsBy matching patterns display root) [] inside
  refine ⟨_, hfinds, ?_, (Directory.pairwise_files hinside).filter _, fun location => ?_⟩
  · -- A source that occurs twice would have one path at two locations.
    rw [hfinds, List.Nodup, List.pairwise_map]
    refine ((Directory.pairwise_files hinside).filter _).imp_of_mem ?_
    intro l l' hl hl' hbefore hsource
    obtain ⟨hne, hnames⟩ := Directory.isName_of_mem_locations hinside (List.mem_of_mem_filter hl)
    obtain ⟨hne', hnames'⟩ := Directory.isName_of_mem_locations hinside (List.mem_of_mem_filter hl')
    exact hbefore.ne (join_relative_inj hne hnames hne' hnames' (Source.file.inj hsource).2)
  · rw [List.mem_filter]
    constructor
    · rintro ⟨hmem, htakes⟩
      obtain ⟨hne, hnames⟩ := Directory.isName_of_mem_locations hinside hmem
      obtain ⟨way, name, rfl⟩ := (List.eq_nil_or_concat' location).resolve_left hne
      exact ⟨way, name, rfl, (Directory.mem_locations_iff hinside).mp hmem,
        (takes_concat_iff hnames).mp htakes⟩
    · rintro ⟨way, name, rfl, hfile, htaken⟩
      have hmem := (Directory.mem_locations_iff hinside).mpr hfile
      obtain ⟨-, hnames⟩ := Directory.isName_of_mem_locations hinside hmem
      exact ⟨hmem, (takes_concat_iff hnames).mpr htaken⟩

/-- A folder with a hidden folder, a folder and a file to exclude, and files that are no documents. -/
def sampleFolder : Directory :=
  .folder (bytes ".cache") (.file (bytes "x.md") [] .empty) <|
  .file (bytes "a.MD") [] <|
  .folder (bytes "drafts") (.file (bytes "b.md") [] .empty) <|
  .folder (bytes "sub")
    (.file (bytes "c.md") [] <| .file (bytes "notes.txt") [] <| .file (bytes "skip.md") [] .empty) <|
  .empty

/-- Of the five documents two are found: one lies in a hidden folder, one in an excluded folder, and one
is excluded by its path. -/
theorem walk_finds_pruned :
    sampleFolder.IsListing ∧ ∃ locations : List (List Bytes),
      [.file (bytes "docs/a.MD") (bytes "/docs/a.MD"),
          .file (bytes "docs/sub/c.md") (bytes "/docs/sub/c.md")] =
        locations.map (fun location => Source.file (Path.join [bytes "docs", relative location])
          (Path.join [bytes "/docs", relative location])) ∧
      locations.Pairwise Directory.Before ∧ [bytes "sub", bytes "c.md"] ∈ locations ∧
      [bytes ".cache", bytes "x.md"] ∉ locations := by
  have hlisting : sampleFolder.IsListing := by decide +kernel
  obtain ⟨locations, hfinds, -, hordered, hmem⟩ :=
    walk_finds (· == ·) [bytes "drafts", bytes "sub/skip.md"] (bytes "docs") (bytes "/docs") hlisting
  have hsources : (walkBy (· == ·) [bytes "drafts", bytes "sub/skip.md"] (bytes "docs")
      (bytes "/docs") sampleFolder).filterMap sourceOf? =
      [.file (bytes "docs/a.MD") (bytes "/docs/a.MD"),
        .file (bytes "docs/sub/c.md") (bytes "/docs/sub/c.md")] := by decide +kernel
  refine ⟨hlisting, locations, hsources.symm.trans hfinds, hordered, ?_, ?_⟩
  · refine (hmem _).mpr ⟨[bytes "sub"], bytes "c.md", rfl, ⟨[], by decide +kernel⟩,
      by decide +kernel, fun up folder down hway => ?_, by unfold IsExcluded; decide +kernel⟩
    obtain ⟨rfl, rfl⟩ : up = [] ∧ folder = bytes "sub" := by
      cases up with
      | nil => exact ⟨rfl, (List.cons.inj hway).1.symm⟩
      | cons first up => simp at hway
    exact ⟨by decide +kernel, by unfold IsExcluded; decide +kernel⟩
  · intro hcache
    obtain ⟨way, name, hlocation, -, -, hway, -⟩ := (hmem _).mp hcache
    have hsplit : [bytes ".cache"] ++ [bytes "x.md"] = way ++ [name] := hlocation
    obtain ⟨hcut, -⟩ := List.append_inj' hsplit rfl
    exact (hway [] (bytes ".cache") [] hcut.symm).1 (by decide +kernel)

end Collect

end EmphasisSpacing
