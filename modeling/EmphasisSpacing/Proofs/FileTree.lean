import Mathlib.Logic.Function.Basic
import Mathlib.Tactic.Common
import EmphasisSpacing.Files.Directory

/-!
# What stands where in a directory

A directory is seen through its locations: at each of them stands nothing, a folder, or a file with
its content (`Directory.view`). Putting a file or an empty folder where no folder stands changes the
view there and nowhere else (`Directory.view_update`). That is all that later proofs use of the way in
which directories are stored; in particular, no order of the entries is needed for it.
-/

namespace EmphasisSpacing

/-- The content of a file; nothing for a folder. -/
def Entry.content? : Entry → Option Bytes
  | .file content => some content
  | .folder _ => none

namespace Directory

/-! ### Names in one directory -/

section

variable {wanted other : Bytes} {e : Entry}

theorem find?_cons_self (rest : Directory) : (cons wanted e rest).find? wanted = some e := by
  cases e <;> simp [cons, find?]

theorem find?_cons_of_ne (hne : wanted ≠ other) (rest : Directory) :
    (cons wanted e rest).find? other = rest.find? other := by
  cases e <;> simp [cons, find?, hne]

theorem find?_set_self (d : Directory) : (d.set wanted e).find? wanted = some e := by
  induction d with
  | empty => exact find?_cons_self _
  | file name content rest ih =>
    rw [set]
    split_ifs with hname hle
    · exact find?_cons_self _
    · exact find?_cons_self _
    · rw [find?, if_neg hname, ih]
  | folder name inside rest _ ih =>
    rw [set]
    split_ifs with hname hle
    · exact find?_cons_self _
    · exact find?_cons_self _
    · rw [find?, if_neg hname, ih]

theorem find?_set_of_ne (hne : wanted ≠ other) (d : Directory) :
    (d.set wanted e).find? other = d.find? other := by
  induction d with
  | empty => exact find?_cons_of_ne hne _
  | file name content rest ih =>
    rw [set]
    split_ifs with hname hle
    · rw [find?_cons_of_ne hne, find?, if_neg (by rw [beq_iff_eq.mp hname]; simpa using hne)]
    · exact find?_cons_of_ne hne _
    · rw [find?, find?, ih]
  | folder name inside rest _ ih =>
    rw [set]
    split_ifs with hname hle
    · rw [find?_cons_of_ne hne, find?, if_neg (by rw [beq_iff_eq.mp hname]; simpa using hne)]
    · exact find?_cons_of_ne hne _
    · rw [find?, find?, ih]

end

/-! ### Locations -/

/-- What stands at a location, without what is inside of a folder: nothing, a folder (`some none`), or
a file with its content. -/
def view (d : Directory) (location : List Bytes) : Option (Option Bytes) :=
  (d.lookup location).map Entry.content?

/-- The content of the file at a location; nothing when no file stands there. -/
def fileAt (d : Directory) (location : List Bytes) : Option Bytes := (d.view location).join

/-- Whether a folder stands at a location. -/
def IsFolder (d : Directory) (location : List Bytes) : Prop := d.view location = some none

section

variable {d inside : Directory} {name : Bytes} {more location location' : List Bytes}

theorem fileAt_eq_some_iff {content : Bytes} :
    d.fileAt location = some content ↔ d.view location = some (some content) := by
  rw [fileAt, Option.join_eq_some_iff]

theorem isFolder_nil (d : Directory) : d.IsFolder [] := rfl

/-- A location leads on only through a folder. -/
theorem lookup_cons (d : Directory) (name : Bytes) (more : List Bytes) :
    d.lookup (name :: more) = match d.find? name with
      | some (.folder inside) => inside.lookup more
      | some (.file content) => if more = [] then some (.file content) else none
      | none => none := by
  cases more with
  | nil =>
    show d.find? name = _
    cases d.find? name with
    | none => rfl
    | some e => cases e <;> rfl
  | cons next more =>
    rw [lookup]
    · cases d.find? name with
      | none => rfl
      | some e => cases e <;> rfl
    · simp

theorem view_of_find?_folder (h : d.find? name = some (.folder inside)) (more : List Bytes) :
    d.view (name :: more) = inside.view more := by
  rw [view, lookup_cons, h, view]

theorem view_of_find?_file {content : Bytes} (h : d.find? name = some (.file content))
    (more : List Bytes) :
    d.view (name :: more) = if more = [] then some (some content) else none := by
  rw [view, lookup_cons, h]
  split_ifs <;> rfl

theorem view_of_find?_none (h : d.find? name = none) (more : List Bytes) :
    d.view (name :: more) = none := by
  rw [view, lookup_cons, h]
  rfl

theorem view_eq_of_find?_eq {d' : Directory} (h : d'.find? name = d.find? name) (more : List Bytes) :
    d'.view (name :: more) = d.view (name :: more) := by
  rw [view, view, lookup_cons, lookup_cons, h]

/-- The first name of the way to a folder is that of a folder. -/
theorem IsFolder.exists_find? (h : d.IsFolder (name :: more)) :
    ∃ inside, d.find? name = some (.folder inside) ∧ inside.IsFolder more := by
  rw [IsFolder] at h
  cases hname : d.find? name with
  | none =>
    rw [view_of_find?_none hname] at h
    cases h
  | some e =>
    cases e with
    | file content =>
      rw [view_of_find?_file hname] at h
      split_ifs at h
      cases h
    | folder inside =>
      rw [view_of_find?_folder hname] at h
      exact ⟨inside, rfl, h⟩

theorem isFolder_iff : d.IsFolder location ↔ ∃ inside, d.lookup location = some (.folder inside) := by
  unfold IsFolder view
  cases d.lookup location with
  | none => simp
  | some e => cases e <;> simp [Entry.content?]

theorem view_eq_file_iff {content : Bytes} :
    d.view location = some (some content) ↔ d.lookup location = some (.file content) := by
  unfold view
  cases d.lookup location with
  | none => simp
  | some e => cases e <;> simp [Entry.content?]

/-- What leads on is a folder. -/
theorem isFolder_of_append (h : d.view (location ++ name :: more) ≠ none) : d.IsFolder location := by
  induction location generalizing d with
  | nil => exact isFolder_nil d
  | cons first location ih =>
    rw [List.cons_append] at h
    cases hfirst : d.find? first with
    | none => exact absurd (view_of_find?_none hfirst _) h
    | some e =>
      cases e with
      | file content =>
        rw [view_of_find?_file hfirst, if_neg (by simp)] at h
        exact absurd rfl h
      | folder inside =>
        rw [view_of_find?_folder hfirst] at h
        rw [IsFolder, view_of_find?_folder hfirst]
        exact ih h

theorem lookup_append_of_not_isFolder (h : ¬ d.IsFolder location) (name : Bytes) (more : List Bytes) :
    d.lookup (location ++ name :: more) = none := by
  by_contra hne
  have hview : d.view (location ++ name :: more) ≠ none := by
    rw [view, ne_eq, Option.map_eq_none_iff]
    exact hne
  exact h (isFolder_of_append hview)

theorem isFolder_dropLast (h : d.view location ≠ none) : d.IsFolder location.dropLast := by
  rcases List.eq_nil_or_concat location with rfl | ⟨front, name, rfl⟩
  · exact isFolder_nil d
  · rw [List.concat_eq_append] at h ⊢
    rw [List.dropLast_concat]
    exact isFolder_of_append h

/-! ### Changing an entry -/

theorem update_of_folder (e : Entry) {next : Bytes} (h : d.find? name = some (.folder inside)) :
    d.update e (name :: next :: more) =
      d.set name (.folder (inside.update e (next :: more))) := by
  rw [update, h]
  simp

/-- What can be put at a location: a file, or a folder with nothing inside. -/
def IsLeaf (e : Entry) : Prop := e.isFolder = true → e = .folder .empty

theorem view_set (e : Entry) (he : IsLeaf e) (hfree : ¬ d.IsFolder [name]) :
    (d.set name e).view = Function.update d.view [name] (some e.content?) := by
  funext location
  cases location with
  | nil => rfl
  | cons other more =>
    by_cases hother : name = other
    · subst hother
      cases more with
      | nil =>
        rw [Function.update_self, view, lookup_cons, find?_set_self]
        cases e <;> rfl
      | cons next more =>
        -- Below the location there is nothing, neither before nor after.
        have hbelow : d.view (name :: next :: more) = none := by
          cases hname : d.find? name with
          | none => exact view_of_find?_none hname _
          | some e =>
            cases e with
            | file content => rw [view_of_find?_file hname, if_neg (List.cons_ne_nil next more)]
            | folder inside => exact absurd (view_of_find?_folder hname []) hfree
        rw [Function.update_of_ne (by simp), hbelow]
        cases e with
        | file content =>
          rw [view_of_find?_file (find?_set_self d), if_neg (List.cons_ne_nil next more)]
        | folder inside =>
          rw [view_of_find?_folder (find?_set_self d)]
          obtain rfl : inside = .empty := Entry.folder.inj (he rfl)
          exact view_of_find?_none rfl _
    · rw [Function.update_of_ne (by simp [Ne.symm hother]),
        view_eq_of_find?_eq (find?_set_of_ne hother d)]

/-- **Putting an entry where no folder stands changes nothing but that place.** -/
theorem view_update (e : Entry) (he : IsLeaf e) (hne : location ≠ [])
    (hparent : d.IsFolder location.dropLast) (hfree : ¬ d.IsFolder location) :
    (d.update e location).view = Function.update d.view location (some e.content?) := by
  induction location generalizing d with
  | nil => exact absurd rfl hne
  | cons name more ih =>
    cases more with
    | nil => exact view_set e he hfree
    | cons next more =>
      -- The way goes through a folder, and inside of it the rest of the way is known already.
      rw [List.dropLast_cons_cons] at hparent
      obtain ⟨inside, hfind, hinside⟩ := hparent.exists_find?
      have hfree' : ¬ inside.IsFolder (next :: more) := by
        rwa [IsFolder, view_of_find?_folder hfind] at hfree
      have hview := ih (List.cons_ne_nil next more) hinside hfree'
      rw [update_of_folder e hfind]
      funext location'
      cases location' with
      | nil => rfl
      | cons other more' =>
        by_cases hother : name = other
        · subst hother
          rw [view_of_find?_folder (find?_set_self d), hview]
          by_cases hmore : more' = next :: more
          · rw [hmore, Function.update_self, Function.update_self]
          · rw [Function.update_of_ne hmore, Function.update_of_ne (by simpa using hmore),
              view_of_find?_folder hfind]
        · rw [Function.update_of_ne (by simp [Ne.symm hother]),
            view_eq_of_find?_eq (find?_set_of_ne hother d)]

/-- **Putting an entry in the place of a file** changes that place, and nothing else. -/
theorem view_update_of_file (e : Entry) (he : IsLeaf e) {old : Bytes}
    (h : d.lookup location = some (.file old)) :
    (d.update e location).view = Function.update d.view location (some e.content?) := by
  have hview := view_eq_file_iff.mpr h
  have hfree : ¬ d.IsFolder location := by
    rw [IsFolder, hview]
    simp
  have hne : location ≠ [] := by
    rintro rfl
    exact hfree (isFolder_nil d)
  exact view_update e he hne (isFolder_dropLast (by rw [hview]; simp)) hfree

end

/-! ### Changing an entry twice -/

theorem set_cons (wanted : Bytes) (e e' : Entry) (rest : Directory) :
    (cons wanted e rest).set wanted e' = cons wanted e' rest := by
  cases e <;> simp [cons, set]

theorem set_set (wanted : Bytes) (e e' : Entry) (d : Directory) :
    (d.set wanted e).set wanted e' = d.set wanted e' := by
  induction d with
  | empty => exact set_cons wanted e e' .empty
  | file name content rest ih =>
    rw [set, set]
    split_ifs with hname hle
    · exact set_cons wanted e e' rest
    · exact set_cons wanted e e' _
    · rw [set, if_neg hname, if_neg hle, ih]
  | folder name inside rest _ ih =>
    rw [set, set]
    split_ifs with hname hle
    · exact set_cons wanted e e' rest
    · exact set_cons wanted e e' _
    · rw [set, if_neg hname, if_neg hle, ih]

/-- Putting an entry where it stands changes nothing. -/
theorem update_update (e : Entry) (d : Directory) (location : List Bytes) :
    (d.update e location).update e location = d.update e location := by
  induction location generalizing d with
  | nil => rfl
  | cons name more ih =>
    cases more with
    | nil => exact set_set name e e d
    | cons next more =>
      by_cases hfolder : ∃ inside, d.find? name = some (.folder inside)
      · obtain ⟨inside, hfind⟩ := hfolder
        rw [update_of_folder e hfind, update_of_folder e (find?_set_self d), ih, set_set]
      · have hsame : d.update e (name :: next :: more) = d := by
          unfold update
          split
          · next inside hfind => exact absurd ⟨inside, hfind⟩ hfolder
          · rfl
        rw [hsame, hsame]

end Directory

end EmphasisSpacing
