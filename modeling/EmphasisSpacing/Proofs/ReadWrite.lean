import EmphasisSpacing.Files.FileSystem
import EmphasisSpacing.Proofs.CleanPath
import EmphasisSpacing.Proofs.FileTree

/-!
# Reading and writing files

What the operations of the file system do at rooted paths, seen through locations. Where a path leads is
told by rules, one for each thing that can be done at a part of it (`FileSystem.LeadsTo`). A rooted path
leads to the location that it spells, so that the content of a file is read off the view there
(`FileSystem.content?_eq`), and writing or appending changes the view there and nowhere else
(`FileSystem.Puts`). Making folders changes no file at all (`FileSystem.fileAt_makeFolders`).
-/

namespace EmphasisSpacing

open EmphasisSpacing.Path Directory

namespace FileSystem

/-! ### Walking a path -/

/-- A part of a path that is looked up in a folder: it does not stay there, it does not lead out of it,
and it is not too long. -/
structure IsLookedUp (p : Bytes) : Prop where
  not_skipped : ¬ (p.isEmpty || p == Path.dot) = true
  not_up : ¬ (p == Path.dotDot) = true
  length_le : p.length ≤ maxName

theorem IsLookedUp.of_isName {p : Bytes} (hp : IsName p) (hlength : p.length ≤ maxName) :
    IsLookedUp p :=
  ⟨hp.not_skipped, hp.not_up, hlength⟩

/-- **The parts that lead somewhere** from the folder at location `here`. There is a rule for each thing
that a walk does at a part. -/
inductive LeadsTo (root : Directory) : (here parts : List Bytes) → Spot → Prop
  | arrive {here : List Bytes} {e : Entry} (h : root.lookup here = some e) :
      LeadsTo root here [] (.taken here e)
  | stay {here parts : List Bytes} {p : Bytes} {spot : Spot}
      (hskip : (p.isEmpty || p == Path.dot) = true) (h : LeadsTo root here parts spot) :
      LeadsTo root here (p :: parts) spot
  | up {here parts : List Bytes} {p : Bytes} {spot : Spot}
      (hskip : ¬ (p.isEmpty || p == Path.dot) = true) (hup : (p == Path.dotDot) = true)
      (h : LeadsTo root here.dropLast parts spot) : LeadsTo root here (p :: parts) spot
  | enter {here parts : List Bytes} {p : Bytes} {inside : Directory} {spot : Spot}
      (hp : IsLookedUp p) (hfolder : root.lookup (here ++ [p]) = some (.folder inside))
      (h : LeadsTo root (here ++ [p]) parts spot) : LeadsTo root here (p :: parts) spot
  | file {here : List Bytes} {p content : Bytes} (hp : IsLookedUp p)
      (hfile : root.lookup (here ++ [p]) = some (.file content)) :
      LeadsTo root here [p] (.taken (here ++ [p]) (.file content))
  | free {here : List Bytes} {p : Bytes} (hp : IsLookedUp p)
      (hfree : root.lookup (here ++ [p]) = none) : LeadsTo root here [p] (.free (here ++ [p]))

/-- The location that a path leads to. -/
def Spot.location : Spot → List Bytes
  | .taken location _ => location
  | .free location => location

section

variable {root : Directory} {here parts names location : List Bytes} {p old : Bytes} {e : Entry}
  {spot : Spot}

theorem walkParts_cons (hp : IsLookedUp p) (parts : List Bytes) :
    walkParts root here (p :: parts) = match root.lookup (here ++ [p]) with
      | some (.folder _) => walkParts root (here ++ [p]) parts
      | some (.file content) =>
        if parts.isEmpty then .ok (.taken (here ++ [p]) (.file content)) else .error .notDirectory
      | none => if parts.isEmpty then .ok (.free (here ++ [p])) else .error .notExist := by
  rewrite [walkParts, if_neg hp.not_skipped, if_neg hp.not_up, if_neg (Nat.not_lt.mpr hp.length_le)]
  cases root.lookup (here ++ [p]) with
  | none => rfl
  | some e => cases e <;> rfl

theorem leadsTo_of_walkParts (h : walkParts root here parts = .ok spot) :
    LeadsTo root here parts spot := by
  induction parts generalizing here with
  | nil =>
    rw [walkParts] at h
    cases hlookup : root.lookup here with
    | none =>
      rw [hlookup] at h
      cases h
    | some e =>
      rw [hlookup] at h
      cases h
      exact .arrive hlookup
  | cons p parts ih =>
    by_cases hskip : (p.isEmpty || p == Path.dot) = true
    · rw [walkParts, if_pos hskip] at h
      exact .stay hskip (ih h)
    by_cases hup : (p == Path.dotDot) = true
    · rw [walkParts, if_neg hskip, if_pos hup] at h
      exact .up hskip hup (ih h)
    by_cases hlong : maxName < p.length
    · rw [walkParts, if_neg hskip, if_neg hup, if_pos hlong] at h
      cases h
    have hp : IsLookedUp p := ⟨hskip, hup, Nat.le_of_not_lt hlong⟩
    rw [walkParts_cons hp] at h
    -- With parts left, the walk goes on only through a folder.
    cases hlookup : root.lookup (here ++ [p]) with
    | none =>
      rw [hlookup] at h
      cases parts with
      | nil =>
        cases h
        exact .free hp hlookup
      | cons q parts => cases h
    | some e =>
      rw [hlookup] at h
      cases e with
      | folder inside => exact .enter hp hlookup (ih h)
      | file content =>
        cases parts with
        | nil =>
          cases h
          exact .file hp hlookup
        | cons q parts => cases h

theorem LeadsTo.walkParts_eq (h : LeadsTo root here parts spot) :
    walkParts root here parts = .ok spot := by
  induction h with
  | arrive h => rw [walkParts, h]
  | stay hskip _ ih => rw [walkParts, if_pos hskip, ih]
  | up hskip hup _ ih => rw [walkParts, if_neg hskip, if_pos hup, ih]
  | enter hp hfolder _ ih =>
    rw [walkParts_cons hp, hfolder]
    exact ih
  | file hp hfile =>
    rw [walkParts_cons hp, hfile]
    rfl
  | free hp hfree =>
    rw [walkParts_cons hp, hfree]
    rfl

theorem walkParts_eq_ok_iff : walkParts root here parts = .ok spot ↔ LeadsTo root here parts spot :=
  ⟨leadsTo_of_walkParts, LeadsTo.walkParts_eq⟩

/-- What a path is taken by stands at its location. -/
theorem LeadsTo.lookup_eq (h : LeadsTo root here parts (.taken location e)) :
    root.lookup location = some e := by
  generalize hspot : Spot.taken location e = spot at h
  induction h with
  | arrive h =>
    cases hspot
    exact h
  | stay _ _ ih => exact ih hspot
  | up _ _ _ ih => exact ih hspot
  | enter _ _ _ ih => exact ih hspot
  | file _ hfile =>
    cases hspot
    exact hfile
  | free => cases hspot

/-- A free name lies in a folder. -/
theorem LeadsTo.isFolder_of_free (hhere : root.IsFolder here)
    (h : LeadsTo root here parts (.free location)) :
    location ≠ [] ∧ root.IsFolder location.dropLast ∧ root.view location = none := by
  generalize hspot : Spot.free location = spot at h
  induction h with
  | arrive => cases hspot
  | stay _ _ ih => exact ih hhere hspot
  | up _ _ _ ih =>
    refine ih (isFolder_dropLast ?_) hspot
    rw [hhere]
    simp
  | enter _ hfolder _ ih => exact ih (isFolder_iff.mpr ⟨_, hfolder⟩) hspot
  | file => cases hspot
  | free _ hfree =>
    cases hspot
    refine ⟨by simp, by rwa [List.dropLast_concat], ?_⟩
    rw [view, hfree]
    rfl

/-- Parts that lead to a file lead to it when the file has another content. -/
theorem LeadsTo.update (h : LeadsTo root here parts (.taken location (.file old)))
    (content : Bytes) :
    LeadsTo (root.update (.file content) location) here parts
      (.taken location (.file content)) := by
  have hfile := h.lookup_eq
  have hview := view_update_of_file (.file content) (fun h => by cases h) hfile
  have hself : (root.update (.file content) location).lookup location = some (.file content) := by
    rw [← view_eq_file_iff, hview, Function.update_self]
    rfl
  -- Folders on the way stay folders, since a file stands at the location.
  have hfolder : ∀ {way : List Bytes} {inside : Directory},
      root.lookup way = some (.folder inside) →
        ∃ inside', (root.update (.file content) location).lookup way = some (.folder inside') := by
    intro way inside hway
    have hne : way ≠ location := by
      rintro rfl
      rw [hfile] at hway
      cases hway
    rw [← isFolder_iff, IsFolder, hview, Function.update_of_ne hne]
    exact isFolder_iff.mpr ⟨inside, hway⟩
  generalize hspot : Spot.taken location (.file old) = spot at h
  induction h with
  | arrive =>
    cases hspot
    exact .arrive hself
  | stay hskip _ ih => exact .stay hskip (ih hspot)
  | up hskip hup _ ih => exact .up hskip hup (ih hspot)
  | enter hp hway _ ih =>
    obtain ⟨inside', hinside⟩ := hfolder hway
    exact .enter hp hinside (ih hspot)
  | file hp =>
    cases hspot
    exact .file hp hself
  | free => cases hspot

/-! ### Walking names -/

/-- No name on a way that was walked is too long. -/
theorem LeadsTo.length_le (hnames : ∀ q ∈ names, IsName q) (h : LeadsTo root here names spot) :
    ∀ q ∈ names, q.length ≤ maxName := by
  induction h with
  | arrive => simp
  | stay hskip => exact absurd hskip (hnames _ (List.mem_cons_self ..)).not_skipped
  | up _ hup => exact absurd hup (hnames _ (List.mem_cons_self ..)).not_up
  | enter hp _ _ ih =>
    exact List.forall_mem_cons.mpr ⟨hp.length_le, ih (List.forall_mem_cons.mp hnames).2⟩
  | file hp => simpa using hp.length_le
  | free hp => simpa using hp.length_le

/-- Names lead to the location that they spell. -/
theorem LeadsTo.location_eq (hnames : ∀ q ∈ names, IsName q) (h : LeadsTo root here names spot) :
    spot.location = here ++ names := by
  induction h with
  | arrive => rw [Spot.location, List.append_nil]
  | stay hskip => exact absurd hskip (hnames _ (List.mem_cons_self ..)).not_skipped
  | up _ hup => exact absurd hup (hnames _ (List.mem_cons_self ..)).not_up
  | enter _ _ _ ih =>
    rw [ih (List.forall_mem_cons.mp hnames).2, List.append_assoc, List.singleton_append]
  | file => rfl
  | free => rfl

/-- What stands at the location that names spell is found. -/
theorem leadsTo_of_lookup (hnames : ∀ q ∈ names, IsName q)
    (hlength : ∀ q ∈ names, q.length ≤ maxName) (h : root.lookup (here ++ names) = some e) :
    LeadsTo root here names (.taken (here ++ names) e) := by
  induction names generalizing here with
  | nil =>
    rw [List.append_nil] at h ⊢
    exact .arrive h
  | cons p names ih =>
    rw [List.forall_mem_cons] at hnames hlength
    have hp := IsLookedUp.of_isName hnames.1 hlength.1
    by_cases hfolder : root.IsFolder (here ++ [p])
    · obtain ⟨inside, hinside⟩ := isFolder_iff.mp hfolder
      have hrest : root.lookup (here ++ [p] ++ names) = some e →
          LeadsTo root (here ++ [p]) names (.taken (here ++ [p] ++ names) e) :=
        ih hnames.2 hlength.2
      rw [List.append_assoc, List.singleton_append] at hrest
      exact .enter hp hinside (hrest h)
    · -- Nothing stands below a file, so the name of one is the last.
      cases names with
      | nil =>
        cases e with
        | folder inside => exact absurd (isFolder_iff.mpr ⟨inside, h⟩) hfolder
        | file content => exact .file hp h
      | cons q names =>
        have hbelow := lookup_append_of_not_isFolder hfolder q names
        rw [List.append_assoc, List.singleton_append, h] at hbelow
        cases hbelow

theorem leadsTo_taken_iff (hnames : ∀ q ∈ names, IsName q)
    (hlength : ∀ q ∈ names, q.length ≤ maxName) :
    LeadsTo root here names (.taken location e) ↔
      location = here ++ names ∧ root.lookup (here ++ names) = some e := by
  constructor
  · intro h
    have hlocation : location = here ++ names := h.location_eq hnames
    exact ⟨hlocation, hlocation ▸ h.lookup_eq⟩
  · rintro ⟨rfl, h⟩
    exact leadsTo_of_lookup hnames hlength h

end

section

variable {fs : FileSystem} {path old : Bytes}

theorem read_eq_ok_iff {content : Bytes} :
    fs.read path = .ok content ↔ ∃ location, fs.spot path = .ok (.taken location (.file content)) := by
  unfold read
  cases fs.spot path with
  | error f => simp
  | ok spot =>
    cases spot with
    | free location => simp
    | taken location e => cases e <;> simp

/-- **A file that was read can be written.** Then it holds what was written, and writing that again
changes nothing. -/
theorem write_of_read (h : fs.read path = .ok old) (content : Bytes) :
    ∃ fs', fs.write path content = .ok fs' ∧ fs'.read path = .ok content ∧
      fs'.write path content = .ok fs' := by
  obtain ⟨location, hspot⟩ := read_eq_ok_iff.mp h
  let fs' : FileSystem := { fs with root := fs.root.update (.file content) location }
  have hspot' : fs'.spot path = .ok (.taken location (.file content)) := by
    unfold spot at hspot ⊢
    split_ifs at hspot ⊢
    · exact ((walkParts_eq_ok_iff.mp hspot).update content).walkParts_eq
    · exact ((walkParts_eq_ok_iff.mp hspot).update content).walkParts_eq
  refine ⟨fs', ?_, read_eq_ok_iff.mpr ⟨location, hspot'⟩, ?_⟩
  · rw [write, hspot]
  · rw [write, hspot']
    dsimp only [fs']
    rw [update_update]

end

/-! ### Rooted paths -/

/-- Whether the file system takes a path at all. -/
def IsUsable (p : Bytes) : Prop := 0 ∉ p ∧ ∀ q ∈ Path.parts p, q.length ≤ maxName

instance (p : Bytes) : Decidable (IsUsable p) := inferInstanceAs (Decidable (_ ∧ _))

section

variable {fs : FileSystem} {p : Bytes} {location : List Bytes} {e : Entry}

/-- A rooted path is walked from the root, name by name. -/
theorem spot_eq (hp : IsRooted p) :
    fs.spot p = if 0 ∈ p then .error .invalid else walkParts fs.root [] (Path.parts p) := by
  have hne : p ≠ [] := by
    rintro rfl
    cases hp.1
  have hsplit := splitOn_ofParts hp.isName
  rw [← hp.eq_ofParts] at hsplit
  unfold spot
  simp only [List.contains_iff_mem, List.isEmpty_iff, hne, if_false, hp.1, if_true, hsplit]
  have hskip : ∀ parts, walkParts fs.root [] ([] :: parts) = walkParts fs.root [] parts := by
    intro parts
    rw [walkParts]
    rfl
  rw [hskip]
  split_ifs with hnul hparts
  · rfl
  · rw [hparts, hskip]
  · rfl

theorem spot_eq_taken_iff (hp : IsRooted p) :
    fs.spot p = .ok (.taken location e) ↔
      IsUsable p ∧ location = Path.parts p ∧ fs.root.lookup (Path.parts p) = some e := by
  rw [spot_eq hp]
  by_cases hnul : 0 ∈ p
  · simp [hnul, IsUsable]
  rw [if_neg hnul, walkParts_eq_ok_iff]
  constructor
  · intro h
    have hlength := h.length_le hp.isName
    exact ⟨⟨hnul, hlength⟩, (leadsTo_taken_iff hp.isName hlength).mp h⟩
  · rintro ⟨⟨-, hlength⟩, h⟩
    exact (leadsTo_taken_iff hp.isName hlength).mpr h

theorem of_spot_eq_free (hp : IsRooted p) (h : fs.spot p = .ok (.free location)) :
    IsUsable p ∧ location = Path.parts p ∧ location ≠ [] ∧ fs.root.IsFolder location.dropLast ∧
      fs.root.view location = none := by
  rw [spot_eq hp] at h
  split_ifs at h with hnul
  have hleads := walkParts_eq_ok_iff.mp h
  exact ⟨⟨hnul, hleads.length_le hp.isName⟩, hleads.location_eq hp.isName,
    hleads.isFolder_of_free (isFolder_nil _)⟩

end

/-! ### Contents -/

/-- The content of the file at a path; nothing when it cannot be read. -/
def content? (fs : FileSystem) (p : Bytes) : Option Bytes := (fs.read p).toOption

section

variable {fs : FileSystem} {p content : Bytes}

theorem content?_eq_some_iff :
    fs.content? p = some content ↔ ∃ location, fs.spot p = .ok (.taken location (.file content)) := by
  rw [← read_eq_ok_iff, content?]
  cases fs.read p <;> simp [Except.toOption]

theorem spot_of_content? (hp : IsRooted p) (h : fs.content? p = some content) :
    fs.spot p = .ok (.taken (Path.parts p) (.file content)) := by
  obtain ⟨location, hspot⟩ := content?_eq_some_iff.mp h
  obtain ⟨-, rfl, -⟩ := (spot_eq_taken_iff hp).mp hspot
  exact hspot

theorem view_of_content? (hp : IsRooted p) (h : fs.content? p = some content) :
    IsUsable p ∧ fs.root.view (Path.parts p) = some (some content) := by
  obtain ⟨husable, -, hlookup⟩ := (spot_eq_taken_iff hp).mp (spot_of_content? hp h)
  exact ⟨husable, view_eq_file_iff.mpr hlookup⟩

/-- **The content of a file is what stands at the location that its path spells.** -/
theorem content?_eq (fs : FileSystem) (hp : IsRooted p) :
    fs.content? p = if IsUsable p then fs.root.fileAt (Path.parts p) else none := by
  ext content
  rw [content?_eq_some_iff]
  simp only [spot_eq_taken_iff hp, exists_and_left, exists_eq_left]
  by_cases husable : IsUsable p
  · simp only [husable, true_and, if_true, ← view_eq_file_iff, fileAt_eq_some_iff]
  · simp [husable]

end

/-- Whether `after` is `before` with the given content in the file at a path. -/
structure Puts (before after : FileSystem) (p content : Bytes) : Prop where
  usable : IsUsable p
  cwd : after.cwd = before.cwd
  view : after.root.view = Function.update before.root.view (Path.parts p) (some (some content))

namespace Puts

variable {before after : FileSystem} {p q content : Bytes}

theorem content?_self (h : Puts before after p content) (hp : IsRooted p) :
    after.content? p = some content := by
  rw [content?_eq after hp, if_pos h.usable, fileAt, h.view, Function.update_self]
  rfl

theorem fileAt_of_ne {location : List Bytes} (h : Puts before after p content)
    (hne : location ≠ Path.parts p) : after.root.fileAt location = before.root.fileAt location := by
  rw [fileAt, fileAt, h.view, Function.update_of_ne hne]

theorem content?_of_ne (h : Puts before after p content) (hp : IsRooted p) (hq : IsRooted q)
    (hne : q ≠ p) : after.content? q = before.content? q := by
  rw [content?_eq after hq, content?_eq before hq, h.fileAt_of_ne fun heq => hne (hq.ext hp heq)]

end Puts

section

variable {fs fs' : FileSystem} {p content : Bytes}

/-- What `update` does at a location where a file stands or can stand. -/
theorem puts_update (husable : IsUsable p) (hne : Path.parts p ≠ [])
    (hparent : fs.root.IsFolder (Path.parts p).dropLast) (hfree : ¬ fs.root.IsFolder (Path.parts p))
    (content : Bytes) :
    Puts fs { fs with root := fs.root.update (.file content) (Path.parts p) } p content where
  usable := husable
  cwd := rfl
  view := view_update (.file content) (fun h => by cases h) hne hparent hfree

theorem puts_of_content? {old : Bytes} (hp : IsRooted p) (h : fs.content? p = some old)
    (content : Bytes) :
    Puts fs { fs with root := fs.root.update (.file content) (Path.parts p) } p content := by
  obtain ⟨husable, -, hlookup⟩ := (spot_eq_taken_iff hp).mp (spot_of_content? hp h)
  exact ⟨husable, rfl, view_update_of_file (.file content) (fun h => by cases h) hlookup⟩

/-- Putting into a file what it holds changes nothing. -/
theorem puts_self (hp : IsRooted p) (h : fs.content? p = some content) : Puts fs fs p content := by
  obtain ⟨husable, hview⟩ := view_of_content? hp h
  exact ⟨husable, rfl, by rw [← hview, Function.update_eq_self]⟩

/-- A file that can be read can be written. -/
theorem write_of_content? {old : Bytes} (hp : IsRooted p) (h : fs.content? p = some old)
    (content : Bytes) : ∃ fs', fs.write p content = .ok fs' ∧ Puts fs fs' p content := by
  refine ⟨_, ?_, puts_of_content? hp h content⟩
  rw [write, spot_of_content? hp h]

theorem puts_of_write (hp : IsRooted p) (h : fs.write p content = .ok fs') :
    Puts fs fs' p content := by
  unfold write at h
  cases hspot : fs.spot p with
  | error f =>
    rw [hspot] at h
    cases h
  | ok spot =>
    rw [hspot] at h
    cases spot with
    | free location =>
      cases h
      obtain ⟨husable, rfl, hne, hparent, hview⟩ := of_spot_eq_free hp hspot
      refine puts_update husable hne hparent ?_ content
      rw [IsFolder, hview]
      simp
    | taken location e =>
      cases e with
      | folder inside => cases h
      | file old =>
        cases h
        -- A file is overwritten where it stands, so the folders around it are there.
        obtain ⟨-, rfl, -⟩ := (spot_eq_taken_iff hp).mp hspot
        exact puts_of_content? hp (content?_eq_some_iff.mpr ⟨_, hspot⟩) content

theorem puts_append {old : Bytes} (hp : IsRooted p) (h : fs.content? p = some old) (text : Bytes) :
    Puts fs (fs.append p text) p (old ++ text) := by
  rw [append, spot_of_content? hp h]
  exact puts_of_content? hp h (old ++ text)

end

/-! ### Folders -/

section

variable {fs fs' : FileSystem} {p : Bytes}

theorem fileAt_makeFolder (hp : IsRooted p) (h : fs.makeFolder p = .ok fs') :
    fs'.cwd = fs.cwd ∧ fs'.root.fileAt = fs.root.fileAt := by
  unfold makeFolder at h
  cases hspot : fs.spot p with
  | error f =>
    rw [hspot] at h
    cases h
  | ok spot =>
    rw [hspot] at h
    cases spot with
    | taken location e => cases h
    | free location =>
      cases h
      obtain ⟨-, -, hne, hparent, hview⟩ := of_spot_eq_free hp hspot
      have hfree : ¬ fs.root.IsFolder location := by
        rw [IsFolder, hview]
        simp
      refine ⟨rfl, ?_⟩
      funext location'
      rw [fileAt, fileAt, view_update (.folder .empty) (fun _ => rfl) hne hparent hfree]
      -- Where the folder is new there was nothing before, and a folder is no file.
      by_cases hlocation : location' = location
      · rw [hlocation, Function.update_self, hview]
        rfl
      · rw [Function.update_of_ne hlocation]

theorem fileAt_makeFoldersFrom {done names : List Bytes} (hdone : ∀ q ∈ done, IsName q)
    (hnames : ∀ q ∈ names, IsName q) (fs : FileSystem) :
    (makeFoldersFrom true fs done names).1.cwd = fs.cwd ∧
      (makeFoldersFrom true fs done names).1.root.fileAt = fs.root.fileAt := by
  induction names generalizing done fs with
  | nil =>
    rw [makeFoldersFrom]
    exact ⟨rfl, rfl⟩
  | cons q names ih =>
    have hq : IsName q := hnames q (List.mem_cons_self ..)
    have hrest : ∀ r ∈ names, IsName r := fun r hr => hnames r (List.mem_cons_of_mem _ hr)
    have hdone' : ∀ r ∈ done ++ [q], IsName r := by
      intro r hr
      rcases List.mem_append.mp hr with hr | hr
      · exact hdone r hr
      · rwa [List.mem_singleton.mp hr]
    rw [makeFoldersFrom]
    cases fs.stat (ofParts true (done ++ [q])) with
    | ok e =>
      cases e with
      | folder inside => exact ih hdone' hrest fs
      | file content => exact ⟨rfl, rfl⟩
    | error err =>
      cases hmade : fs.makeFolder (ofParts true (done ++ [q])) with
      | error err => exact ⟨rfl, rfl⟩
      | ok fs' =>
        -- One new folder holds no file, and the other ones are made in what comes of it.
        obtain ⟨hcwd, hfiles⟩ := fileAt_makeFolder (isRooted_ofParts hdone') hmade
        obtain ⟨hcwd', hfiles'⟩ := ih hdone' hrest fs'
        exact ⟨hcwd'.trans hcwd, hfiles'.trans hfiles⟩

/-- **Making folders changes no file.** -/
theorem fileAt_makeFolders (hp : IsRooted p) (fs : FileSystem) :
    (fs.makeFolders p).1.cwd = fs.cwd ∧ (fs.makeFolders p).1.root.fileAt = fs.root.fileAt := by
  rw [makeFolders, hp.1]
  exact fileAt_makeFoldersFrom (by simp) hp.isName fs

end

end FileSystem

end EmphasisSpacing
