import EmphasisSpacing.Command.ShowHints
import EmphasisSpacing.Proofs.Collected
import EmphasisSpacing.Proofs.FileAddress
import EmphasisSpacing.Proofs.FolderWalk
import EmphasisSpacing.Proofs.ReadWrite
import EmphasisSpacing.Proofs.Token

/-!
# What the links of hints open

A hint links to an address that is made from the name of its document, while the document was read from
its path. The two are made in different ways: a tilde in front of a path stands for the home directory,
and in front of a name it does not.

The address is that of a path for names that a link takes for paths (`Link.IsPath`), and then of the path
that the name has in the working directory (`Link.target_eq_fileAddress_iff`). All documents that a walk
finds have such names (`Link.isPath_join`). So the link of a document opens the file that was read
exactly if its argument has the path that it would have without a home directory
(`Collect.target_of_mem_collect`), and with a tilde it opens another one
(`Collect.target_of_mem_collect_tilde`).
-/

namespace EmphasisSpacing

/-! ### Names that a link takes for paths -/

namespace Link

/-- Whether a link takes a name for a path: it is not that of standard input, and no web address. -/
def IsPath (name : Bytes) : Prop :=
  name ≠ [] ∧ name ≠ bytes "-" ∧ ¬ bytes "http://" <+: name ∧ ¬ bytes "https://" <+: name

section

variable {cwd name p : Bytes}

theorem fileAddress_ne_nil (p : Bytes) : fileAddress p ≠ [] := by
  rw [fileAddress, bytes_file]
  exact List.cons_ne_nil _ _

/-- The address of a file is no web address. -/
theorem not_prefix_fileAddress {start : Bytes} (hstart : start.head? = some 0x68) (p : Bytes) :
    ¬ start <+: fileAddress p := by
  rintro ⟨rest, hrest⟩
  have hhead := congrArg List.head? hrest
  rw [List.head?_append, hstart, fileAddress, bytes_file] at hhead
  exact absurd hhead (by simp)

/-- What is tested before a name is taken for a path. -/
theorem isPath_iff :
    IsPath name ↔ (name.isEmpty || name == bytes "-") = false ∧
      (Bytes.startsWith name (bytes "http://") || Bytes.startsWith name (bytes "https://")) = false := by
  have hstart : ∀ start, Bytes.startsWith name start = false ↔ ¬ start <+: name := by
    intro start
    rw [← Bool.not_eq_true, Bytes.startsWith_iff]
    simp [List.IsPrefix, eq_comm]
  rw [Bool.or_eq_false_iff, Bool.or_eq_false_iff, hstart, hstart]
  simp [IsPath, and_assoc]

/-- **A name links to the address of a file** if it is taken for a path, and the file has this path in the
working directory. -/
theorem target_eq_fileAddress_iff :
    target cwd name = fileAddress p ↔ IsPath name ∧ Path.absolute cwd name = p := by
  by_cases hpath : IsPath name
  · obtain ⟨hinput, hweb⟩ := isPath_iff.mp hpath
    rw [target, hinput, hweb]
    exact ⟨fun h => ⟨hpath, fileAddress_injective h⟩, fun h => congrArg fileAddress h.2⟩
  · refine iff_of_false (fun h => hpath ?_) fun h => hpath h.1
    unfold target at h
    split_ifs at h with hinput hweb
    · exact absurd h.symm (fileAddress_ne_nil p)
    · rw [h, Bool.or_eq_true, Bytes.startsWith_iff, Bytes.startsWith_iff] at hweb
      rcases hweb with ⟨rest, hrest⟩ | ⟨rest, hrest⟩
      · exact absurd ⟨rest, hrest.symm⟩ (not_prefix_fileAddress (by decide) p)
      · exact absurd ⟨rest, hrest.symm⟩ (not_prefix_fileAddress (by decide) p)
    · exact isPath_iff.mpr ⟨Bool.eq_false_iff.mpr hinput, Bool.eq_false_iff.mpr hweb⟩

/-- A path without empty parts is no web address. -/
theorem not_prefix_ofParts {rooted : Bool} {ps : List Bytes} {start : Bytes}
    (hresolved : Path.Resolved rooted ps.reverse) (hne : ps ≠ []) (hstart : start ≠ [])
    (hslash : Bytes.slash ∉ start) :
    ¬ start ++ [Bytes.slash, Bytes.slash] <+: Path.ofParts rooted ps := by
  rintro ⟨rest, hrest⟩
  have hrelative : rooted = false := by
    rw [← Path.isAbsolute_ofParts hresolved, ← hrest, List.append_assoc,
      Path.isAbsolute_append hstart, Path.isAbsolute_eq_false hslash]
  subst hrelative
  have hsplit : Bytes.splitOn Bytes.slash (Path.ofParts false ps) = ps := by
    rw [Path.ofParts, if_neg Bool.false_ne_true, if_neg (by simpa using hne)]
    exact Bytes.splitOn_joinWith hne fun q hq =>
      hresolved.slash_notMem q (List.mem_reverse.mpr hq)
  -- Between the two slashes there is an empty part.
  have hempty : [] ∈ ps := by
    rw [← hsplit, ← hrest, List.append_assoc, List.cons_append, Bytes.splitOn_append_cons,
      List.cons_append, List.nil_append, ← List.nil_append (Bytes.slash :: rest),
      Bytes.splitOn_append_cons]
    exact List.mem_append_right _ (List.mem_append_left _ (List.mem_singleton_self _))
  exact hresolved.ne_nil [] (List.mem_reverse.mpr hempty) rfl

/-- **The documents below a folder have names that are taken for paths.** -/
theorem isPath_join {way : List Bytes} {last : Bytes} (hnames : ∀ q ∈ way ++ [last], Path.IsName q)
    (hlast : Walk.isMarkdown last = true) (given : Bytes) :
    IsPath (Path.join [given, Walk.relative (way ++ [last])]) := by
  have hne : Path.parts given ++ (way ++ [last]) ≠ [] := by simp
  have hresolved := Path.resolved_append given hnames
  rw [show Path.join [given, Walk.relative (way ++ [last])] = _ from
    Path.join_names given (by simp) hnames]
  have hbase : Path.base (Path.ofParts (Path.isAbsolute given)
      (Path.parts given ++ (way ++ [last]))) = last := by
    rw [← List.append_assoc]
    exact Path.base_ofParts (hnames last (by simp))
  refine ⟨fun hnil => ?_, fun hhyphen => ?_, ?_, ?_⟩
  · rw [hnil] at hbase
    exact (hnames last (by simp)).2.1 hbase.symm
  · rw [hhyphen] at hbase
    rw [← hbase] at hlast
    exact absurd hlast (by decide +kernel)
  · show ¬ bytes "http:" ++ [Bytes.slash, Bytes.slash] <+: _
    exact not_prefix_ofParts hresolved hne (by decide) (by decide)
  · show ¬ bytes "https:" ++ [Bytes.slash, Bytes.slash] <+: _
    exact not_prefix_ofParts hresolved hne (by decide) (by decide)

end

end Link

/-! ### The home directory -/

namespace Source

/-- Whether a tilde in front of a path can stand for the home directory. -/
def HasTilde (p : Bytes) : Prop := p = bytes "~" ∨ bytes "~/" <+: p

theorem expandHome_eq_self {env : Environment} {p : Bytes}
    (h : env.get (bytes "HOME") = [] ∨ ¬ HasTilde p) : expandHome env p = p := by
  unfold expandHome
  by_cases hhome : (env.get (bytes "HOME")).isEmpty = true
  · exact if_pos hhome
  · have hno : ¬ HasTilde p := h.resolve_left (by simpa using hhome)
    rw [if_neg hhome]
    split
    · exact absurd (.inl rfl) hno
    · next rest => exact absurd (.inr (List.prefix_append (bytes "~/") rest)) hno
    · rfl

end Source

/-! ### Links to collected documents -/

namespace Collect

variable {matcher : Pattern.Matcher} {fs : FileSystem} {env : Environment}
  {patterns arguments : List Bytes} {notes : List Log.Entry} {sources : List Source} {name path : Bytes}

theorem isListing_of_stat {inside : Directory} (hroot : fs.root.IsListing)
    (h : fs.stat path = .ok (.folder inside)) : inside.IsListing := by
  unfold FileSystem.stat at h
  split at h
  · next location e hspot =>
    cases h
    unfold FileSystem.spot at hspot
    split_ifs at hspot
    · exact hroot.of_lookup (FileSystem.walkParts_eq_ok_iff.mp hspot).lookup_eq
    · exact hroot.of_lookup (FileSystem.walkParts_eq_ok_iff.mp hspot).lookup_eq
  · cases h
  · cases h

/-- What a walk finds stands at a location of the folder that is made of names, the last of them that
of a document. -/
theorem exists_of_mem_walk {inside : Directory} {given place : Bytes} (hinside : inside.IsListing)
    (h : .file name path ∈
      (walkBy matcher.holds patterns given place inside).filterMap sourceOf?) :
    ∃ way last, (∀ q ∈ way ++ [last], Path.IsName q) ∧ Walk.isMarkdown last = true ∧
      name = Path.join [given, Walk.relative (way ++ [last])] ∧
      path = Path.join [place, Walk.relative (way ++ [last])] := by
  have hfinds : (walkBy matcher.holds patterns given place inside).filterMap sourceOf? = _ :=
    filterMap_events (optionsBy matcher.holds patterns given place) [] inside
  rw [hfinds] at h
  obtain ⟨location, hlocation, hsource⟩ := List.mem_map.mp h
  obtain ⟨hmem, htakes⟩ := List.mem_filter.mp hlocation
  obtain ⟨hne, hnames⟩ := Directory.isName_of_mem_locations hinside hmem
  obtain ⟨way, last, rfl⟩ := (List.eq_nil_or_concat' location).resolve_left hne
  obtain ⟨rfl, rfl⟩ := Source.file.inj hsource
  exact ⟨way, last, hnames, ((Walk.takes_concat way).mp htakes).2.1, rfl, rfl⟩

/-- Below two folders, the same names lead to the same path only if the folders are the same. -/
theorem absolute_join_eq_iff {cwd given place : Bytes} {names : List Bytes}
    (hcwd : Path.isAbsolute cwd = true) (hplace : Path.IsRooted place) (hne : names ≠ [])
    (hnames : ∀ q ∈ names, Path.IsName q) :
    Path.absolute cwd (Path.join [given, Walk.relative names]) =
        Path.join [place, Walk.relative names] ↔
      place = Path.absolute cwd given := by
  have hgiven := Path.isRooted_absolute hcwd given
  have hleft : Path.absolute cwd (Path.join [given, Walk.relative names]) = _ :=
    Path.absolute_join_names hcwd hne hnames
  have hright : Path.join [place, Walk.relative names] = _ := Path.join_names place hne hnames
  rw [hplace.1] at hright
  rw [hleft, hright]
  constructor
  · intro h
    have hparts := congrArg Path.parts h
    have hresolved := Path.resolved_append place hnames
    have hresolved' := Path.resolved_append (Path.absolute cwd given) hnames
    rw [hplace.1] at hresolved
    rw [hgiven.1] at hresolved'
    rw [Path.parts_ofParts hresolved, Path.parts_ofParts hresolved'] at hparts
    exact hplace.ext hgiven (List.append_cancel_right hparts).symm
  · intro h
    rw [h]

/-- **What the link of a document opens.** Every local document that is collected comes from an argument
that names a path. The link made from the name of the document is the address of the file that is read
exactly if the name is taken for a path, and the path of the argument is the one that it has in the
working directory. Only a name that was given as it is can be taken for something else than a path, and
the path of an argument is another one only if a tilde stands for a home directory. -/
theorem target_of_mem_collect (hcwd : Path.isAbsolute fs.cwd = true) (hroot : fs.root.IsListing)
    (h : collect matcher fs env patterns arguments = (notes, .ok sources))
    (hmem : .file name path ∈ sources) :
    ∃ argument ∈ arguments, ∃ given,
      Source.ofArgument? env fs.cwd argument = some (Source.atPath env fs.cwd given) ∧
      (Link.target fs.cwd name = Link.fileAddress path ↔
        Link.IsPath name ∧ Source.localPath env fs.cwd given = Path.absolute fs.cwd given) ∧
      (name = given ∨ Link.IsPath name) ∧
      (env.get (bytes "HOME") = [] ∨ ¬ Source.HasTilde given →
        Source.localPath env fs.cwd given = Path.absolute fs.cwd given) := by
  obtain ⟨argument, hargument, given, hgiven, hfrom⟩ := exists_of_mem_collect h hmem
  refine ⟨argument, hargument, given, hgiven, ?_, ?_, fun hhome => ?_⟩
  · rw [Link.target_eq_fileAddress_iff]
    refine and_congr_right fun _ => ?_
    rcases hfrom with ⟨rfl, rfl⟩ | ⟨inside, hstat, hwalk⟩
    · exact eq_comm
    · obtain ⟨way, last, hnames, -, rfl, rfl⟩ :=
        exists_of_mem_walk (isListing_of_stat hroot hstat) hwalk
      exact absolute_join_eq_iff hcwd (Source.isRooted_localPath hcwd given) (by simp) hnames
  · rcases hfrom with ⟨rfl, -⟩ | ⟨inside, hstat, hwalk⟩
    · exact .inl rfl
    · obtain ⟨way, last, hnames, hlast, rfl, -⟩ :=
        exists_of_mem_walk (isListing_of_stat hroot hstat) hwalk
      exact .inr (Link.isPath_join hnames hlast given)
  · rw [Source.localPath, Source.expandHome_eq_self hhome]

/-- A document of a folder in the working directory, where there is a home directory too. -/
theorem target_of_mem_collect_folder :
    let fs : FileSystem :=
      ⟨.folder (bytes "work") (.folder (bytes "docs") (.file (bytes "a b.md") [] .empty) .empty) .empty,
        bytes "/work"⟩
    let env : Environment := [(bytes "HOME", bytes "/home")]
    collect Pattern.standard fs env [] [bytes "docs/../docs"] =
        ([], .ok [.file (bytes "docs/a b.md") (bytes "/work/docs/a b.md")]) ∧
      Link.target fs.cwd (bytes "docs/a b.md") = Link.fileAddress (bytes "/work/docs/a b.md") := by
  intro fs env
  have hcollect : collect Pattern.standard fs env [] [bytes "docs/../docs"] =
      ([], .ok [.file (bytes "docs/a b.md") (bytes "/work/docs/a b.md")]) := by decide +kernel
  obtain ⟨argument, hargument, given, hgiven, hlink, hname, -⟩ :=
    target_of_mem_collect (by decide +kernel) (by decide +kernel) hcollect
      (List.mem_singleton_self _)
  have hsource : Source.ofArgument? env fs.cwd (bytes "docs/../docs") =
      some (Source.atPath env fs.cwd (bytes "docs/../docs")) := by decide +kernel
  rw [List.mem_singleton.mp hargument, hsource] at hgiven
  obtain ⟨rfl, -⟩ := Source.file.inj (Option.some.inj hgiven)
  exact ⟨hcollect, hlink.mpr ⟨hname.resolve_left (by decide +kernel), by decide +kernel⟩⟩

/-- **A tilde is not followed by the link.** The file is read from the home directory, and its hint links
to a file below the working directory. -/
theorem target_of_mem_collect_tilde :
    let fs : FileSystem :=
      ⟨.folder (bytes "home") (.file (bytes "a.md") (bytes "中**粗**\n") .empty)
        (.folder (bytes "work") .empty .empty), bytes "/work"⟩
    let env : Environment := [(bytes "HOME", bytes "/home")]
    let opts : ShowHints.Options :=
      ⟨Settings.standard, false, -1, [], none, 80, bytes "on", []⟩
    collect Pattern.standard fs env [] [bytes "~/a.md"] =
        ([], .ok [.file (bytes "~/a.md") (bytes "/home/a.md")]) ∧
      Link.target fs.cwd (bytes "~/a.md") = Link.fileAddress (bytes "/work/~/a.md") ∧
      (ShowHints.run (.standard env none fun _ => .failed []) opts [bytes "~/a.md"]
          (.start fs [])).1.output =
        Link.wrap (bytes "file:///work/~/a.md") (bytes "~/a.md:1:2:") ++
          bytes " add a space before **\n    中**粗**\n      ^^\n" := by
  exact ⟨by decide +kernel, by decide +kernel, by decide +kernel⟩

end Collect

end EmphasisSpacing
