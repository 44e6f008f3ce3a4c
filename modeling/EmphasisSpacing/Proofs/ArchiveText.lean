import EmphasisSpacing.Golden.Archive
import EmphasisSpacing.Proofs.Lines
import EmphasisSpacing.Proofs.Splitting
import EmphasisSpacing.Proofs.Token
import EmphasisSpacing.Proofs.WhiteSpace

/-!
# Archives as text

An archive is *sound* if its names and texts can stand in an archive: no line of a text is a marker,
and every line has a terminator. Two halves meet there.

* A sound archive is read back as it was written (`Archive.read_write`).
* What is read is sound (`Archive.sound_read`), with one exception. At the end of a text, a marker line
  may be followed by a carriage return without a line feed. It is no marker then, but reading ends it
  with a line feed, and with that it is one (`Archive.HidesMarker`).

All of this is about the standard codec. What is asked of a codec is to split a text at its marker lines
and to end its parts (`Archive.Codec.Lawful`), and there is only one that does
(`Archive.Codec.Lawful.eq_standard`).
-/

namespace EmphasisSpacing

namespace Bytes

theorem dropSuffix?_eq_some_iff {p s r : Bytes} : dropSuffix? p s = some r ↔ s = r ++ p := by
  unfold dropSuffix?
  rw [Option.map_eq_some_iff]
  constructor
  · rintro ⟨t, ht, rfl⟩
    rw [← List.reverse_inj, dropPrefix?_eq_some_iff.mp ht]
    simp
  · rintro rfl
    exact ⟨r.reverse, dropPrefix?_eq_some_iff.mpr (by simp), r.reverse_reverse⟩

theorem dropSuffix?_eq_none_iff {p s : Bytes} : dropSuffix? p s = none ↔ ¬ p <:+ s := by
  rw [Option.eq_none_iff_forall_ne_some]
  constructor
  · rintro h ⟨r, rfl⟩
    exact h r (dropSuffix?_eq_some_iff.mpr rfl)
  · intro h r hr
    exact h ⟨r, (dropSuffix?_eq_some_iff.mp hr).symm⟩

end Bytes

namespace Archive

/-! ### Marker lines -/

/-- A text without a line feed is its own body. -/
theorem lineBody_of_notMem {w : Bytes} (hw : Bytes.lf ∉ w) : lineBody w = w := by
  have hnone : Bytes.dropSuffix? [Bytes.lf] w = none := by
    rw [Bytes.dropSuffix?_eq_none_iff]
    exact fun h => hw (h.subset (List.mem_singleton.mpr rfl))
  rw [lineBody, hnone]

theorem lineBody_bytes {l : Line} (hl : l.Fits) : lineBody l.bytes = l.content := by
  obtain ⟨content, ending⟩ := l
  obtain ⟨hlf, hfits⟩ := hl
  cases ending with
  | none =>
    show lineBody (content ++ []) = content
    rw [List.append_nil, lineBody_of_notMem hlf]
  | lf =>
    have hdrop : Bytes.dropSuffix? [Bytes.lf] (content ++ [Bytes.lf]) = some content :=
      Bytes.dropSuffix?_eq_some_iff.mpr rfl
    -- A carriage return at the end would belong to the terminator.
    have hcr : Bytes.dropSuffix? [Bytes.cr] content = none := by
      rw [Bytes.dropSuffix?_eq_none_iff]
      rintro ⟨r, rfl⟩
      exact hfits List.getLast?_concat
    show lineBody (content ++ [Bytes.lf]) = content
    rw [lineBody, hdrop]
    dsimp only
    rw [hcr]
    rfl
  | crlf =>
    have hdrop : Bytes.dropSuffix? [Bytes.lf] (content ++ [Bytes.cr, Bytes.lf]) =
        some (content ++ [Bytes.cr]) := Bytes.dropSuffix?_eq_some_iff.mpr (by simp)
    have hcr : Bytes.dropSuffix? [Bytes.cr] (content ++ [Bytes.cr]) = some content :=
      Bytes.dropSuffix?_eq_some_iff.mpr rfl
    show lineBody (content ++ [Bytes.cr, Bytes.lf]) = content
    rw [lineBody, hdrop]
    dsimp only
    rw [hcr]
    rfl

/-- Whether a line is a marker does not depend on its terminator. -/
theorem marker?_bytes {l : Line} (hl : l.Fits) : marker? l.bytes = marker? l.content := by
  unfold marker?
  rw [lineBody_bytes hl, lineBody_of_notMem hl.1]

theorem marker?_eq_some_iff {w name : Bytes} (hw : Bytes.lf ∉ w) :
    marker? w = some name ↔
      ∃ x, w = opening ++ x ++ closing ∧ name = WhiteSpace.trim x ∧ name ≠ [] := by
  unfold marker?
  rw [lineBody_of_notMem hw]
  simp only [Option.bind_eq_bind, Option.bind_eq_some_iff, Bytes.dropPrefix?_eq_some_iff,
    Bytes.dropSuffix?_eq_some_iff, List.isEmpty_iff, Option.ite_none_left_eq_some, Option.pure_def,
    Option.some.injEq]
  constructor
  · rintro ⟨inner, rfl, x, rfl, hne, rfl⟩
    exact ⟨x, (List.append_assoc ..).symm, rfl, hne⟩
  · rintro ⟨x, rfl, rfl, hne⟩
    exact ⟨x ++ closing, List.append_assoc .., x, rfl, hne, rfl⟩

theorem marker?_eq_none_iff {w : Bytes} (hw : Bytes.lf ∉ w) :
    marker? w = none ↔ ∀ x, w = opening ++ x ++ closing → WhiteSpace.trim x = [] := by
  rw [Option.eq_none_iff_forall_ne_some]
  constructor
  · intro h x hx
    by_contra hne
    exact h _ ((marker?_eq_some_iff hw).mpr ⟨x, hx, rfl, hne⟩)
  · intro h name hname
    obtain ⟨x, hx, rfl, hne⟩ := (marker?_eq_some_iff hw).mp hname
    exact hne (h x hx)

/-! ### One line more -/

section

variable {l : Bytes}

theorem ofLines_cons_marker {name : Bytes} (h : marker? l = some name) (ls : List Bytes) :
    ofLines (l :: ls) = ⟨[], ⟨name, (ofLines ls).comment⟩ :: (ofLines ls).members⟩ := by
  rw [ofLines, h]

theorem ofLines_cons_text (h : marker? l = none) (ls : List Bytes) :
    ofLines (l :: ls) = ⟨endLine l ++ (ofLines ls).comment, (ofLines ls).members⟩ := by
  rw [ofLines, h]

end

/-! ### Lawful codecs -/

/-- Whether the content of a line is the marker of a member with the given name. -/
def IsMarker (content name : Bytes) : Prop :=
  ∃ x, content = opening ++ x ++ closing ∧ name = WhiteSpace.trim x ∧ name ≠ []

/-- What is asked of a codec: reading goes line by line, a marker starts a member, any other line goes to
the comment or to the data that it stands in and is ended, and writing puts a marker in front of each
member. -/
structure Codec.Lawful (codec : Codec) : Prop where
  read_nil : codec.read [] = ⟨[], []⟩
  read_marker {l : Line} {ls : List Line} {name : Bytes} (hlines : Line.Proper (l :: ls))
    (hmarker : IsMarker l.content name) :
    codec.read (Line.join (l :: ls)) =
      ⟨[], ⟨name, (codec.read (Line.join ls)).comment⟩ :: (codec.read (Line.join ls)).members⟩
  read_text {l : Line} {ls : List Line} (hlines : Line.Proper (l :: ls))
    (hmarker : ∀ name, ¬ IsMarker l.content name) :
    codec.read (Line.join (l :: ls)) =
      ⟨endLine l.bytes ++ (codec.read (Line.join ls)).comment, (codec.read (Line.join ls)).members⟩
  write_eq (a : Archive) : codec.write a = endLine a.comment ++
    a.members.flatMap fun m => opening ++ m.name ++ closing ++ [Bytes.lf] ++ endLine m.data

theorem read_join {ls : List Line} (h : Line.Proper ls) :
    read (Line.join ls) = ofLines (ls.map Line.bytes) := by
  rw [read, Line.splitAfterLf_eq, Line.split_join h]

theorem Codec.lawful_standard : Codec.standard.Lawful where
  read_nil := rfl
  read_marker := by
    intro l ls name hlines hmarker
    have hname : marker? l.bytes = some name := by
      rw [marker?_bytes hlines.1]
      exact (marker?_eq_some_iff hlines.1.1).mpr hmarker
    show Archive.read _ = ⟨[], ⟨name, (Archive.read _).comment⟩ :: (Archive.read _).members⟩
    rw [read_join hlines, read_join hlines.2.2, List.map_cons, ofLines_cons_marker hname]
  read_text := by
    intro l ls hlines hmarker
    have hnone : marker? l.bytes = none := by
      rw [marker?_bytes hlines.1, Option.eq_none_iff_forall_ne_some]
      exact fun name hname => hmarker name ((marker?_eq_some_iff hlines.1.1).mp hname)
    show Archive.read _ = ⟨endLine l.bytes ++ (Archive.read _).comment, (Archive.read _).members⟩
    rw [read_join hlines, read_join hlines.2.2, List.map_cons, ofLines_cons_text hnone]
  write_eq := fun a => rfl

/-- **There is one lawful codec.** -/
theorem Codec.Lawful.eq_standard {codec : Codec} (h : codec.Lawful) : codec = .standard := by
  have hlines : ∀ ls, Line.Proper ls → codec.read (Line.join ls) = Archive.read (Line.join ls) := by
    intro ls
    induction ls with
    | nil => exact fun _ => h.read_nil
    | cons l ls ih =>
      intro hproper
      have hstandard := Codec.lawful_standard
      by_cases hmarker : ∃ name, IsMarker l.content name
      · obtain ⟨name, hname⟩ := hmarker
        rw [h.read_marker hproper hname, ih hproper.2.2]
        exact (hstandard.read_marker hproper hname).symm
      · rw [not_exists] at hmarker
        rw [h.read_text hproper hmarker, ih hproper.2.2]
        exact (hstandard.read_text hproper hmarker).symm
  obtain ⟨read, write⟩ := codec
  have hread : read = Archive.read := by
    funext s
    rw [← Line.join_split s]
    exact hlines _ (Line.proper_split s)
  have hwrite : write = Archive.write := funext h.write_eq
  rw [hread, hwrite]
  rfl

/-! ### Sound archives -/

/-- Whether a text can be the name of a member. -/
structure IsMemberName (name : Bytes) : Prop where
  ne_nil : name ≠ []
  trimmed : WhiteSpace.trim name = name
  one_line : Bytes.lf ∉ name

/-- Whether a text can be the data of a member, or a comment: every line has a terminator, and no line
is a marker. -/
def Plain (s : Bytes) : Prop := ∀ l ∈ Line.split s, l.ending ≠ .none ∧ marker? l.content = none

/-- Whether the parts of an archive can stand in one. -/
structure Sound (a : Archive) : Prop where
  comment : Plain a.comment
  name : ∀ m ∈ a.members, IsMemberName m.name
  data : ∀ m ∈ a.members, Plain m.data

section

variable {s t : Bytes}

theorem Plain.ended (h : Plain s) : Line.Ended s := fun l hl => (h l hl).1

theorem plain_append_iff (hs : Line.Ended s) : Plain (s ++ t) ↔ Plain s ∧ Plain t := by
  unfold Plain
  rw [Line.split_append hs, List.forall_mem_append]

theorem plain_bytes_iff {l : Line} (hl : l.Fits) (hended : l.ending ≠ .none) :
    Plain l.bytes ↔ marker? l.content = none := by
  unfold Plain
  rw [Line.split_bytes hl, List.forall_mem_singleton, and_iff_right hended]

theorem endLine_eq_self (hs : Line.Ended s) : endLine s = s := by
  unfold endLine
  cases hlast : s.getLast? with
  | none => rfl
  | some b =>
    rw [Line.ended_iff.mp hs b hlast]
    rfl

theorem endLine_of_notMem (hs : Bytes.lf ∉ s) (hne : s ≠ []) : endLine s = s ++ [Bytes.lf] := by
  have hlast : s.getLast? = some (s.getLast hne) := List.getLast?_eq_some_getLast hne
  have hlf : (s.getLast hne == Bytes.lf) = false :=
    beq_eq_false_iff_ne.mpr fun h => hs (h ▸ List.getLast_mem hne)
  rw [endLine, hlast]
  dsimp only
  rw [hlf]
  rfl

theorem ended_endLine (s : Bytes) : Line.Ended (endLine s) := by
  unfold endLine
  cases hlast : s.getLast? with
  | none =>
    rw [List.getLast?_eq_none_iff.mp hlast]
    exact Line.ended_nil
  | some b =>
    dsimp only
    split_ifs with hb
    · rw [Line.ended_iff]
      intro b' hb'
      rw [hlast] at hb'
      rw [← Option.some.inj hb', beq_iff_eq.mp hb]
    · exact Line.ended_concat s

end

/-! ### Reading what was written -/

theorem read_eq (s : Bytes) : read s = ofLines ((Line.split s).map Line.bytes) := by
  rw [read, Line.splitAfterLf_eq]

/-- Plain text in front goes to the comment. -/
theorem read_append {s : Bytes} (hs : Plain s) (t : Bytes) :
    read (s ++ t) = ⟨s ++ (read t).comment, (read t).members⟩ := by
  have hlines : ∀ ls : List Line, Line.Proper ls →
      (∀ l ∈ ls, l.ending ≠ .none ∧ marker? l.content = none) → ∀ more : List Bytes,
        ofLines (ls.map Line.bytes ++ more) =
          ⟨Line.join ls ++ (ofLines more).comment, (ofLines more).members⟩ := by
    intro ls
    induction ls with
    | nil =>
      intro _ _ more
      rfl
    | cons l ls ih =>
      intro hproper hplain more
      rw [List.forall_mem_cons] at hplain
      obtain ⟨⟨hending, hmarker⟩, hrest⟩ := hplain
      rw [List.map_cons, List.cons_append,
        ofLines_cons_text (by rw [marker?_bytes hproper.1, hmarker]), ih hproper.2.2 hrest more,
        endLine_eq_self (Line.ended_bytes hending), Line.join_cons, List.append_assoc]
  rw [read_eq, Line.split_append hs.ended, List.map_append, hlines _ (Line.proper_split s) hs,
    Line.join_split, ← read_eq]

theorem lf_notMem_marker {name : Bytes} (h : Bytes.lf ∉ name) :
    Bytes.lf ∉ opening ++ name ++ closing := by
  have hopening : Bytes.lf ∉ opening := by decide
  have hclosing : Bytes.lf ∉ closing := by decide
  simp [hopening, hclosing, h]

/-- The line of a member. -/
def markerLine (name : Bytes) : Line := ⟨opening ++ name ++ closing, .lf⟩

theorem fits_markerLine {name : Bytes} (hname : IsMemberName name) : (markerLine name).Fits := by
  have hlast : (opening ++ name ++ closing).getLast? = some 0x2D := by
    rw [List.getLast?_append]
    rfl
  refine ⟨lf_notMem_marker hname.one_line, ?_⟩
  show (opening ++ name ++ closing).getLast? ≠ some Bytes.cr
  rw [hlast]
  decide

theorem marker?_markerLine {name : Bytes} (hname : IsMemberName name) :
    marker? (markerLine name).content = some name :=
  (marker?_eq_some_iff (fits_markerLine hname).1).mpr
    ⟨name, rfl, hname.trimmed.symm, hname.ne_nil⟩

/-- A marker in front makes a member of the comment. -/
theorem read_markerLine {name : Bytes} (hname : IsMemberName name) (t : Bytes) :
    read ((markerLine name).bytes ++ t) = ⟨[], ⟨name, (read t).comment⟩ :: (read t).members⟩ := by
  have hfits := fits_markerLine hname
  have hended : Line.Ended (markerLine name).bytes := Line.ended_bytes fun h => by cases h
  have hmarker : marker? (markerLine name).bytes = some name := by
    rw [marker?_bytes hfits, marker?_markerLine hname]
  rw [read_eq, Line.split_append hended, Line.split_bytes hfits, List.map_append, List.map_singleton,
    List.singleton_append, ofLines_cons_marker hmarker, ← read_eq]

/-- **A sound archive is read back as it was written.** -/
theorem read_write {a : Archive} (ha : a.Sound) : read a.write = a := by
  have hmembers : ∀ ms : List Member, (∀ m ∈ ms, IsMemberName m.name) → (∀ m ∈ ms, Plain m.data) →
      read (ms.flatMap writeMember) = ⟨[], ms⟩ := by
    intro ms
    induction ms with
    | nil =>
      intro _ _
      rfl
    | cons m ms ih =>
      intro hnames hdata
      rw [List.forall_mem_cons] at hnames hdata
      have hwrite : writeMember m = (markerLine m.name).bytes ++ m.data := by
        rw [writeMember, endLine_eq_self hdata.1.ended]
        rfl
      rw [List.flatMap_cons, hwrite, List.append_assoc, read_markerLine hnames.1,
        read_append hdata.1, ih hnames.2 hdata.2, List.append_nil]
  rw [write, endLine_eq_self ha.comment.ended, read_append ha.comment, hmembers _ ha.name ha.data,
    List.append_nil]

/-- Every line of what is written has a terminator. -/
theorem ended_write (a : Archive) : Line.Ended a.write := by
  refine (ended_endLine _).append ?_
  induction a.members with
  | nil => exact Line.ended_nil
  | cons m ms ih =>
    rw [List.flatMap_cons, writeMember]
    exact ((Line.ended_concat _).append (ended_endLine _)).append ih

/-! ### What is read -/

theorem isMemberName_of_marker? {w name : Bytes} (hw : Bytes.lf ∉ w) (h : marker? w = some name) :
    IsMemberName name := by
  obtain ⟨x, rfl, rfl, hne⟩ := (marker?_eq_some_iff hw).mp h
  refine ⟨hne, WhiteSpace.trim_trim x, fun hlf => hw ?_⟩
  obtain ⟨v, v', -, -, hx⟩ := WhiteSpace.exists_trim x
  rw [hx]
  simp [hlf]

/-- What is read from a text that has ended is sound. -/
theorem sound_read_of_ended {text : Bytes} (h : Line.Ended text) : (read text).Sound := by
  have hlines : ∀ ls : List Line, Line.Proper ls → (∀ l ∈ ls, l.ending ≠ .none) →
      (ofLines (ls.map Line.bytes)).Sound := by
    intro ls
    induction ls with
    | nil =>
      intro _ _
      exact ⟨fun l hl => (by cases hl), fun m hm => (by cases hm), fun m hm => (by cases hm)⟩
    | cons l ls ih =>
      intro hproper hended
      rw [List.forall_mem_cons] at hended
      have hrest := ih hproper.2.2 hended.2
      have hbytes := marker?_bytes hproper.1
      cases hmarker : marker? l.content with
      | some name =>
        -- What was the comment of the rest becomes the data of the new member.
        rw [List.map_cons, ofLines_cons_marker (hbytes.trans hmarker)]
        refine ⟨fun l hl => (by cases hl), ?_, ?_⟩
        · exact List.forall_mem_cons.mpr
            ⟨isMemberName_of_marker? hproper.1.1 hmarker, hrest.name⟩
        · exact List.forall_mem_cons.mpr ⟨hrest.comment, hrest.data⟩
      | none =>
        have hplain := (plain_bytes_iff hproper.1 hended.1).mpr hmarker
        rw [List.map_cons, ofLines_cons_text (hbytes.trans hmarker), endLine_eq_self hplain.ended]
        refine ⟨?_, hrest.name, hrest.data⟩
        exact (plain_append_iff hplain.ended).mpr ⟨hplain, hrest.comment⟩
  rw [read_eq]
  exact hlines _ (Line.proper_split text) h

/-- Whether a text ends with a marker line that a carriage return follows, but no line feed. -/
def HidesMarker (text : Bytes) : Prop :=
  ∃ front name, text = front ++ (opening ++ name ++ closing ++ [Bytes.cr]) ∧
    (∀ b, front.getLast? = some b → b = Bytes.lf) ∧ Bytes.lf ∉ name ∧ WhiteSpace.trim name ≠ []

theorem marker?_cr {v : Bytes} (hv : Bytes.lf ∉ v) : marker? (v ++ [Bytes.cr]) = none := by
  have hlf : Bytes.lf ∉ v ++ [Bytes.cr] := by
    rw [List.mem_append, not_or]
    exact ⟨hv, by decide⟩
  rw [marker?_eq_none_iff hlf]
  intro x hx
  have hlast := congrArg List.getLast? hx
  rw [List.getLast?_concat, List.getLast?_append] at hlast
  cases hlast

theorem bytes_crlf (v : Bytes) : v ++ [Bytes.cr] ++ [Bytes.lf] = (Line.mk v .crlf).bytes := by
  simp [Line.bytes, Ending.bytes]

/-- A line feed behind the last line makes no marker of it, unless it hides one. -/
theorem marker?_concat {c : Bytes} (hlf : Bytes.lf ∉ c) (hhides : ¬ HidesMarker c) :
    marker? (c ++ [Bytes.lf]) = marker? c := by
  by_cases hcr : c.getLast? = some Bytes.cr
  · obtain ⟨v, rfl⟩ := List.getLast?_eq_some_iff.mp hcr
    have hv : Bytes.lf ∉ v := fun h => hlf (List.mem_append_left _ h)
    have hfits : Line.Fits ⟨v, .crlf⟩ := ⟨hv, trivial⟩
    rw [bytes_crlf, marker?_bytes hfits, marker?_cr hv, marker?_eq_none_iff hv]
    intro x hx
    by_contra hne
    refine hhides ⟨[], x, by rw [hx]; simp, by simp, fun h => hv ?_, hne⟩
    rw [hx]
    simp [h]
  · have hfits : Line.Fits ⟨c, .lf⟩ := ⟨hlf, hcr⟩
    exact marker?_bytes hfits

/-- What stands behind lines matters only for what is read from it. -/
theorem ofLines_append_congr {ls ls' : List Bytes} (h : ofLines ls = ofLines ls')
    (front : List Bytes) : ofLines (front ++ ls) = ofLines (front ++ ls') := by
  induction front with
  | nil => exact h
  | cons l front ih => rw [List.cons_append, List.cons_append, ofLines, ofLines, ih]

section

variable {c : Bytes} (hlf : Bytes.lf ∉ c) (hne : c ≠ [])

include hlf hne

theorem splitAfterLf_last : Bytes.splitAfterLf c = [c] := by
  have hsplit : Line.split c = [⟨c, .none⟩] := by
    have hbytes := Line.split_bytes (show Line.Fits ⟨c, .none⟩ from ⟨hlf, hne⟩)
    rwa [show (Line.mk c .none).bytes = c from List.append_nil c] at hbytes
  rw [Line.splitAfterLf_eq, hsplit, List.map_singleton]
  exact congrArg (fun w => [w]) (List.append_nil c)

theorem endLine_last (u : Bytes) : endLine (u ++ c) = u ++ (c ++ [Bytes.lf]) := by
  rw [← endLine_of_notMem hlf hne]
  unfold endLine
  rw [List.getLast?_append, List.getLast?_eq_some_getLast hne, Option.some_or]
  dsimp only
  split_ifs
  · rfl
  · exact List.append_assoc ..

end

/-- Ending the last line makes no difference, unless it hides a marker. -/
theorem read_endLine {text : Bytes} (h : ¬ HidesMarker text) : read (endLine text) = read text := by
  rcases Line.ended_or_exists text with hended | ⟨u, c, rfl, hu, hlf, hne⟩
  · rw [endLine_eq_self hended]
  have hhides : ¬ HidesMarker c := by
    rintro ⟨front, name, rfl, hfront, hname, htrim⟩
    refine h ⟨u ++ front, name, by simp, ?_, hname, htrim⟩
    exact Line.ended_iff.mp (hu.append (Line.ended_iff.mpr hfront))
  have hlast : ofLines [c ++ [Bytes.lf]] = ofLines [c] := by
    have hmarker := marker?_concat hlf hhides
    cases hc : marker? c with
    | some name => rw [ofLines_cons_marker hc, ofLines_cons_marker (hmarker.trans hc)]
    | none =>
      rw [ofLines_cons_text hc, ofLines_cons_text (hmarker.trans hc),
        endLine_eq_self (Line.ended_concat c), endLine_of_notMem hlf hne]
  rw [endLine_last hlf hne, read, read, Line.splitAfterLf_append hu, Line.splitAfterLf_append hu,
    splitAfterLf_last hlf hne, Bytes.splitAfterLf_append hlf []]
  exact ofLines_append_congr hlast _

/-- **What is read is sound**, unless the text hides a marker. -/
theorem sound_read {text : Bytes} (h : ¬ HidesMarker text) : (read text).Sound := by
  rw [← read_endLine h]
  exact sound_read_of_ended (ended_endLine text)

/-! ### Where a hidden marker goes -/

/-- A line of text at the end joins the data of the last member, or the comment if there is none. -/
theorem ofLines_concat_text {c : Bytes} (hc : marker? c = none) (ls : List Bytes) :
    (ofLines ls).members = [] ∧
        ofLines (ls ++ [c]) = ⟨(ofLines ls).comment ++ endLine c, []⟩ ∨
      ∃ ms m, (ofLines ls).members = ms ++ [m] ∧
        ofLines (ls ++ [c]) = ⟨(ofLines ls).comment, ms ++ [⟨m.name, m.data ++ endLine c⟩]⟩ := by
  induction ls with
  | nil =>
    left
    rw [List.nil_append, ofLines_cons_text hc]
    exact ⟨rfl, by simp [ofLines]⟩
  | cons l ls ih =>
    rw [List.cons_append]
    cases hl : marker? l with
    | some name =>
      rw [ofLines_cons_marker hl, ofLines_cons_marker hl]
      right
      -- The comment of the rest is the data of this member, so with none behind it the line goes
      -- there.
      rcases ih with ⟨hnil, hread⟩ | ⟨ms, m, hms, hread⟩
      · exact ⟨[], ⟨name, (ofLines ls).comment⟩, by rw [hnil]; rfl, by rw [hread]; rfl⟩
      · exact ⟨⟨name, (ofLines ls).comment⟩ :: ms, m, by rw [hms]; rfl, by rw [hread]; rfl⟩
    | none =>
      rw [ofLines_cons_text hl, ofLines_cons_text hl]
      rcases ih with ⟨hnil, hread⟩ | ⟨ms, m, hms, hread⟩
      · exact .inl ⟨hnil, by rw [hread, List.append_assoc]⟩
      · exact .inr ⟨ms, m, hms, by rw [hread]⟩

/-- **A hidden marker spoils the text at the end and nothing else.** What is read is a sound archive,
with a text behind its last text that is not plain. -/
theorem exists_of_hidesMarker {text : Bytes} (h : HidesMarker text) :
    ∃ (a : Archive) (x : Bytes), a.Sound ∧ ¬ Plain x ∧
      (a.members = [] ∧ read text = ⟨a.comment ++ x, []⟩ ∨
        ∃ ms m, a.members = ms ++ [m] ∧
          read text = ⟨a.comment, ms ++ [⟨m.name, m.data ++ x⟩]⟩) := by
  obtain ⟨front, name, rfl, hfront, hname, htrim⟩ := h
  have hv := lf_notMem_marker hname
  have hlf : Bytes.lf ∉ opening ++ name ++ closing ++ [Bytes.cr] := by
    rw [List.mem_append, not_or]
    exact ⟨hv, by decide⟩
  have hne : opening ++ name ++ closing ++ [Bytes.cr] ≠ [] := by simp
  have hended := Line.ended_iff.mpr hfront
  have hfits : Line.Fits ⟨opening ++ name ++ closing, .crlf⟩ := ⟨hv, trivial⟩
  refine ⟨read front, (Line.mk (opening ++ name ++ closing) .crlf).bytes,
    sound_read_of_ended hended, ?_, ?_⟩
  · -- With the line feed, the last line is a marker.
    rw [plain_bytes_iff hfits (fun h => by cases h), marker?_eq_none_iff hv]
    exact fun h => htrim (h name rfl)
  · have hlast := ofLines_concat_text (marker?_cr hv) (Bytes.splitAfterLf front)
    rw [endLine_of_notMem hlf hne, bytes_crlf, ← splitAfterLf_last hlf hne,
      ← Line.splitAfterLf_append hended] at hlast
    exact hlast

end Archive

end EmphasisSpacing
