import EmphasisSpacing.Golden.Regenerate
import EmphasisSpacing.Proofs.ArchiveText
import EmphasisSpacing.Proofs.LineEnds
import EmphasisSpacing.Proofs.ReadWrite

/-!
# Regenerated archives

Regenerating keeps the comment and all members but the golden ones, and puts a golden member behind
every document (`Golden.IsRegenerated`). The archive is written and read again as it is, because
formatting never makes a marker of a line (`Archive.Plain.format`): a line with a star that starts and
ends like a marker has done so before, and was a marker then.

So running again changes nothing (`Golden.onFile_regenerates`). The exception is a marker that a text hides
at its end, in a part of the archive that regenerating keeps.
-/

namespace EmphasisSpacing

open Archive

/-! ### Formatting makes no marker -/

theorem isQuiet_hyphen : IsQuiet 0x2D where
  ascii := by decide
  alnum := by decide
  ne_star := by decide
  ne_mark := by decide
  ne_delimiter := fun d => by cases d <;> decide

theorem isQuiet_space : IsQuiet 0x20 where
  ascii := by decide
  alnum := by decide
  ne_star := by decide
  ne_mark := by decide
  ne_delimiter := fun d => by cases d <;> decide

theorem isQuiet_opening : ∀ b ∈ opening, IsQuiet b := by
  rw [show opening = [0x2D, 0x2D, 0x20] by decide]
  simp [isQuiet_hyphen, isQuiet_space]

theorem isQuiet_closing : ∀ b ∈ closing, IsQuiet b := by
  rw [show closing = [0x20, 0x2D, 0x2D] by decide]
  simp [isQuiet_hyphen, isQuiet_space]

/-- A line that starts like a marker has no bullet. -/
theorem Frame.front_eq_nil {head front rest : Bytes} {regions : List Bytes}
    (h : Frame head front regions) (hopening : opening <+: front ++ rest) : front = [] := by
  obtain ⟨t, ht⟩ := hopening
  have hfirst : (front ++ rest).head? = some 0x2D := by
    rw [← ht]
    rfl
  cases h with
  | bare => rfl
  | bullet indent b hindent hb =>
    cases indent with
    | nil => cases hfirst
    | cons x indent =>
      have hx : Bytes.isBlank x = true := hindent x (List.mem_cons_self ..)
      rw [show x = 0x2D from Option.some.inj hfirst] at hx
      cases hx

section

variable (settings : Settings) {content : Bytes}

theorem lf_notMem_onContent (stage : Stage) (hlf : Bytes.lf ∉ content) :
    Bytes.lf ∉ Stage.onContent settings content stage := by
  unfold Stage.onContent
  split_ifs with hscan
  · exact fun h => hlf ((stage.reworked settings hscan).mem _ h (by decide) (by decide))
  · exact hlf

/-- **A stage makes no marker of a line.** A line that starts and ends like a marker after the stage did
so before, and the star in it, for which it is scanned, makes it one. -/
theorem marker?_onContent (stage : Stage) (hlf : Bytes.lf ∉ content)
    (h : marker? content = none) : marker? (Stage.onContent settings content stage) = none := by
  have hlf' := lf_notMem_onContent settings stage hlf
  unfold Stage.onContent at hlf' ⊢
  split_ifs at hlf' ⊢ with hscan
  · rw [marker?_eq_none_iff hlf']
    intro x hx
    exfalso
    obtain ⟨head, front, regions, rest, gs, hpass⟩ := exists_passage stage settings hscan
    have hstart : opening <+: content := by
      refine hpass.isPrefix_of_onLine isQuiet_opening ?_
      rw [hx, List.append_assoc]
      exact List.prefix_append ..
    -- A marker starts with no blank and no star, so no bullet stands in front.
    have hfront : front = [] := hpass.frame.front_eq_nil (hpass.line_eq ▸ hstart)
    have hend : closing <:+ content := by
      refine hpass.isSuffix_of_onLine isQuiet_closing hfront ?_
      rw [hx]
      exact List.suffix_append ..
    -- Between both ends lies the star for which the line was scanned, and no trimming takes it.
    have hstar : Bytes.star ∈ content := (needsScan_iff.mp hscan).1
    obtain ⟨y, hy, hmem⟩ := exists_between hstart hend hstar (by decide) (by decide)
    have htrim : Bytes.star ∈ WhiteSpace.trim y := (WhiteSpace.mem_trim_iff (by decide)).mpr hmem
    rw [(marker?_eq_none_iff hlf).mp h y hy] at htrim
    cases htrim
  · exact h

theorem marker?_passStages (stages : List Stage) (hlf : Bytes.lf ∉ content)
    (h : marker? content = none) : marker? (passStages settings stages content) = none := by
  induction stages generalizing content with
  | nil => exact h
  | cons stage stages ih =>
    rw [passStages, List.foldl_cons]
    exact ih (lf_notMem_onContent settings stage hlf) (marker?_onContent settings stage hlf h)

end

/-- **Formatted text can stand in an archive** if the original text can. -/
theorem Archive.Plain.format {s : Bytes} (hs : Plain s) (settings : Settings) :
    Plain (format settings s) := by
  have hrun := foldl_onDocument settings (Stage.all.filter (Stage.enabled settings))
    (Line.proper_split s)
  rw [Line.join_split] at hrun
  have hsplit : Line.split (EmphasisSpacing.format settings s) =
      List.zipWith (passLine settings (Stage.all.filter (Stage.enabled settings)))
        (openLines settings (Line.split s)) (Line.split s) := by
    rw [EmphasisSpacing.format, hrun.1]
    exact Line.split_join hrun.2
  unfold Plain
  rw [hsplit]
  intro l' hl'
  obtain ⟨isOpen, l, hl, rfl⟩ : ∃ isOpen, ∃ l ∈ Line.split s,
      passLine settings (Stage.all.filter (Stage.enabled settings)) isOpen l = l' := by
    rw [← List.map_uncurry_zip_eq_zipWith, List.mem_map] at hl'
    obtain ⟨⟨isOpen, l⟩, hmem, heq⟩ := hl'
    exact ⟨isOpen, l, (List.of_mem_zip hmem).2, heq⟩
  obtain ⟨hending, hmarker⟩ := hs l hl
  cases isOpen with
  | false => exact ⟨hending, hmarker⟩
  | true =>
    have hlf : Bytes.lf ∉ l.content := ((Line.proper_split s).fits hl).1
    exact ⟨hending, marker?_passStages settings _ hlf hmarker⟩

namespace Golden

/-! ### Names -/

theorem endsWith_iff {s p : Bytes} : Bytes.endsWith s p = true ↔ p <:+ s := by
  unfold Bytes.endsWith
  rw [Bytes.startsWith_iff, ← List.reverse_prefix]
  exact exists_congr fun t => eq_comm

theorem isGolden_iff {m : Member} : isGolden m = true ↔ ∃ stem, m.name = stem ++ goldenEnding := by
  unfold isGolden
  rw [endsWith_iff]
  exact exists_congr fun stem => eq_comm

theorem getLast?_golden (stem : Bytes) : (stem ++ goldenEnding).getLast? = some 0x6E := by
  rw [List.getLast?_append]
  rfl

/-- No name has both endings. -/
theorem document_ne_golden (stem stem' : Bytes) : stem ++ documentEnding ≠ stem' ++ goldenEnding := by
  intro h
  have hdocument : (stem ++ documentEnding).getLast? = some 0x64 := by
    rw [List.getLast?_append]
    rfl
  rw [h, getLast?_golden] at hdocument
  exact absurd hdocument (by decide)

theorem isGolden_eq_false {m : Member} {stem : Bytes} (h : m.name = stem ++ documentEnding) :
    isGolden m = false := by
  rw [← Bool.not_eq_true, isGolden_iff]
  rintro ⟨stem', h'⟩
  exact document_ne_golden stem stem' (h.symm.trans h')

theorem goldenOf?_eq_some_iff {settings : Settings} {m g : Member} :
    goldenOf? settings m = some g ↔ ∃ stem, m.name = stem ++ documentEnding ∧
      g = ⟨stem ++ goldenEnding, format settings m.data⟩ := by
  unfold goldenOf?
  rw [Option.map_eq_some_iff]
  constructor
  · rintro ⟨stem, hstem, rfl⟩
    exact ⟨stem, Bytes.dropSuffix?_eq_some_iff.mp hstem, rfl⟩
  · rintro ⟨stem, hstem, rfl⟩
    exact ⟨stem, Bytes.dropSuffix?_eq_some_iff.mpr hstem, rfl⟩

theorem isGolden_of_goldenOf? {settings : Settings} {m g : Member}
    (h : goldenOf? settings m = some g) : isGolden g = true := by
  obtain ⟨stem, -, rfl⟩ := goldenOf?_eq_some_iff.mp h
  exact isGolden_iff.mpr ⟨stem, rfl⟩

/-- The name of a golden member can stand in an archive if that of the document can. -/
theorem isMemberName_golden {stem : Bytes} (h : IsMemberName (stem ++ documentEnding)) :
    IsMemberName (stem ++ goldenEnding) := by
  have hdot : goldenEnding = 0x2E :: [0x67, 0x6F, 0x6C, 0x64, 0x65, 0x6E] := by decide
  refine ⟨by rw [hdot]; simp, ?_, ?_⟩
  · have hfront := (WhiteSpace.trim_eq_self_iff.mp h.trimmed).1
    rw [WhiteSpace.trim_eq_self_iff]
    constructor
    · -- White text in front ends before the dot, where both names are the same.
      intro w hw hpre
      refine hfront w hw ?_
      rw [hdot] at hpre
      have hsolid : 0x2E ∉ w := fun hmem => absurd (hw.isSolid_eq _ hmem) (by decide)
      exact (isPrefix_of_notMem hsolid hpre).trans (List.prefix_append ..)
    · intro w hw hsuf
      rcases List.eq_nil_or_concat w with rfl | ⟨w', b, rfl⟩
      · rfl
      · obtain ⟨t, ht⟩ := hsuf
        have hlast := getLast?_golden stem
        rw [← ht, List.concat_eq_append, ← List.append_assoc, List.getLast?_concat] at hlast
        have hb := hw.isSolid_eq b (by simp)
        rw [Option.some.inj hlast] at hb
        cases hb
  · have hstem : Bytes.lf ∉ stem := fun hmem => h.one_line (List.mem_append_left _ hmem)
    have hending : Bytes.lf ∉ goldenEnding := by decide
    rw [List.mem_append, not_or]
    exact ⟨hstem, hending⟩

/-! ### One archive -/

/-- An archive without its golden members. -/
def withoutGolden (a : Archive) : Archive := ⟨a.comment, sources a⟩

theorem mem_sources_iff {a : Archive} {m : Member} :
    m ∈ sources a ↔ m ∈ a.members ∧ isGolden m = false := by
  unfold sources
  rw [List.mem_filter, Bool.not_eq_true']

/-- What regenerating makes of an archive is sound if what it keeps is. -/
theorem sound_regenerate {a : Archive} (h : (withoutGolden a).Sound) (settings : Settings) :
    (regenerate settings a).Sound := by
  have hmember : ∀ m' ∈ (regenerate settings a).members, IsMemberName m'.name ∧ Plain m'.data := by
    intro m' hm'
    obtain ⟨m, hm, hmem⟩ := List.mem_flatMap.mp hm'
    rcases List.mem_cons.mp hmem with rfl | hmem
    · exact ⟨h.name m' hm, h.data m' hm⟩
    · obtain ⟨stem, hstem, rfl⟩ := goldenOf?_eq_some_iff.mp (Option.mem_toList.mp hmem)
      exact ⟨isMemberName_golden (hstem ▸ h.name m hm), (h.data m hm).format settings⟩
  exact ⟨h.comment, fun m hm => (hmember m hm).1, fun m hm => (hmember m hm).2⟩

/-- Whether an archive is another one with its golden members anew. -/
structure IsRegenerated (settings : Settings) (old new : Archive) : Prop where
  comment : new.comment = old.comment
  sources : sources new = sources old
  /-- Behind every document stands its golden member. -/
  document : ∀ (i : Nat) (m : Member) (stem : Bytes), new.members[i]? = some m →
    m.name = stem ++ documentEnding →
      new.members[i + 1]? = some ⟨stem ++ goldenEnding, format settings m.data⟩
  /-- There is no other golden member. -/
  golden : ∀ (i : Nat) (g : Member), new.members[i]? = some g → isGolden g = true →
    ∃ (j : Nat) (m : Member) (stem : Bytes), i = j + 1 ∧ new.members[j]? = some m ∧
      m.name = stem ++ documentEnding ∧ g = ⟨stem ++ goldenEnding, format settings m.data⟩

theorem filter_withGolden (settings : Settings) {ms : List Member}
    (hms : ∀ m ∈ ms, isGolden m = false) :
    (ms.flatMap (withGolden settings)).filter (!isGolden ·) = ms := by
  induction ms with
  | nil => rfl
  | cons m ms ih =>
    rw [List.forall_mem_cons] at hms
    have hgolden : (goldenOf? settings m).toList.filter (!isGolden ·) = [] := by
      rw [List.filter_eq_nil_iff]
      intro g hg
      simp [isGolden_of_goldenOf? (Option.mem_toList.mp hg)]
    rw [List.flatMap_cons, List.filter_append, ih hms.2, withGolden, List.filter_cons_of_pos
      (by simp [hms.1]), hgolden]
    rfl

/-- Whether what stands at a place of a list of members belongs there: a source has its golden member
behind it if it is a document, and a golden member has its document in front of it. -/
def Placed (settings : Settings) (ms : List Member) (i : Nat) (m : Member) : Prop :=
  isGolden m = false ∧ (∀ g, goldenOf? settings m = some g → ms[i + 1]? = some g) ∨
    ∃ j m', i = j + 1 ∧ ms[j]? = some m' ∧ goldenOf? settings m' = some m

theorem Placed.cons {settings : Settings} {ms : List Member} {i : Nat} {m : Member}
    (h : Placed settings ms i m) (first : Member) : Placed settings (first :: ms) (i + 1) m := by
  rcases h with ⟨hsource, hbehind⟩ | ⟨j, m', rfl, hj, hgolden⟩
  · exact .inl ⟨hsource, fun g hg => by rw [List.getElem?_cons_succ, hbehind g hg]⟩
  · exact .inr ⟨j + 1, m', rfl, by rw [List.getElem?_cons_succ, hj], hgolden⟩

theorem placed_withGolden (settings : Settings) {ms : List Member}
    (hms : ∀ m ∈ ms, isGolden m = false) {i : Nat} {m : Member}
    (hi : (ms.flatMap (withGolden settings))[i]? = some m) :
    Placed settings (ms.flatMap (withGolden settings)) i m := by
  induction ms generalizing i with
  | nil => cases hi
  | cons s ms ih =>
    rw [List.forall_mem_cons] at hms
    cases hs : goldenOf? settings s with
    | none =>
      have hlist : (s :: ms).flatMap (withGolden settings) = s :: ms.flatMap (withGolden settings) := by
        rw [List.flatMap_cons, withGolden, hs]
        rfl
      rw [hlist] at hi ⊢
      cases i with
      | zero =>
        obtain rfl : s = m := Option.some.inj hi
        exact .inl ⟨hms.1, fun g hg => by rw [hs] at hg; cases hg⟩
      | succ i => exact (ih hms.2 hi).cons s
    | some g =>
      -- A golden member stands right behind its document.
      have hlist : (s :: ms).flatMap (withGolden settings) =
          s :: g :: ms.flatMap (withGolden settings) := by
        rw [List.flatMap_cons, withGolden, hs]
        rfl
      rw [hlist] at hi ⊢
      cases i with
      | zero =>
        obtain rfl : s = m := Option.some.inj hi
        exact .inl ⟨hms.1, fun g' hg' => by rw [← hg', hs]; rfl⟩
      | succ i =>
        cases i with
        | zero =>
          obtain rfl : g = m := Option.some.inj hi
          exact .inr ⟨0, s, rfl, rfl, hs⟩
        | succ i => exact ((ih hms.2 hi).cons g).cons s

theorem sources_regenerate (settings : Settings) (a : Archive) :
    sources (regenerate settings a) = sources a :=
  filter_withGolden settings fun _ hm => (mem_sources_iff.mp hm).2

/-- **Regenerating drops the golden members and puts new ones behind the documents.** -/
theorem isRegenerated_regenerate (settings : Settings) (a : Archive) :
    IsRegenerated settings a (regenerate settings a) := by
  have hplaced : ∀ (i : Nat) (m : Member), (regenerate settings a).members[i]? = some m →
      Placed settings (regenerate settings a).members i m := fun i m hi =>
    placed_withGolden settings (fun _ hm => (mem_sources_iff.mp hm).2) hi
  refine ⟨rfl, sources_regenerate settings a, ?_, ?_⟩
  · intro i m stem hi hstem
    rcases hplaced i m hi with ⟨-, hbehind⟩ | ⟨j, m', -, -, hgolden⟩
    · exact hbehind _ (goldenOf?_eq_some_iff.mpr ⟨stem, hstem, rfl⟩)
    · -- A golden member is no document.
      have hfalse := isGolden_eq_false hstem
      rw [isGolden_of_goldenOf? hgolden] at hfalse
      cases hfalse
  · intro i g hi hgolden
    rcases hplaced i g hi with ⟨hsource, -⟩ | ⟨j, m, rfl, hj, hm⟩
    · rw [hgolden] at hsource
      cases hsource
    · obtain ⟨stem, hstem, rfl⟩ := goldenOf?_eq_some_iff.mp hm
      exact ⟨j, m, stem, rfl, hj, hstem, rfl⟩

theorem regenerate_regenerate (settings : Settings) (a : Archive) :
    regenerate settings (regenerate settings a) = regenerate settings a := by
  show Archive.mk a.comment ((sources (regenerate settings a)).flatMap (withGolden settings)) = _
  rw [sources_regenerate]
  rfl

theorem caseCount_regenerate (settings : Settings) (a : Archive) :
    caseCount (regenerate settings a) = caseCount a := by
  unfold caseCount
  rw [sources_regenerate]

/-! ### Texts -/

/-- Whether a text hides a marker at its end, in the comment or in a member that is no golden one. -/
def KeepsHiddenMarker (codec : Codec) (text : Bytes) : Prop :=
  HidesMarker text ∧
    ∀ m, (codec.read text).members.getLast? = some m → isGolden m = false

/-- **What regenerating keeps of a text is sound**, exactly if it keeps no hidden marker. -/
theorem sound_withoutGolden_iff {text : Bytes} :
    (withoutGolden (Archive.read text)).Sound ↔ ¬ KeepsHiddenMarker .standard text := by
  have hsound : ∀ a b : Archive, a.Sound → b.comment = a.comment → sources b ⊆ a.members →
      (withoutGolden b).Sound := fun a b ha hcomment hsub =>
    ⟨show Plain b.comment from hcomment ▸ ha.comment, fun m hm => ha.name m (hsub hm),
      fun m hm => ha.data m (hsub hm)⟩
  by_cases hhides : HidesMarker text
  · obtain ⟨a, x, ha, hx, hcases⟩ := exists_of_hidesMarker hhides
    rcases hcases with ⟨-, hread⟩ | ⟨ms, m, hms, hread⟩
    · -- The marker is in the comment.
      refine iff_of_false (fun h => hx ?_) (not_not.mpr ⟨hhides, by simp [Codec.standard, hread]⟩)
      have hcomment := h.comment
      rw [hread] at hcomment
      exact ((plain_append_iff ha.comment.ended).mp hcomment).2
    · have hlast : (Archive.read text).members.getLast? = some ⟨m.name, m.data ++ x⟩ := by
        rw [hread]
        exact List.getLast?_concat
      have hkeeps : KeepsHiddenMarker .standard text ↔ isGolden m = false := by
        unfold KeepsHiddenMarker
        rw [show Codec.standard.read = Archive.read from rfl, hlast]
        constructor
        · exact fun h => h.2 ⟨m.name, m.data ++ x⟩ rfl
        · intro h
          refine ⟨hhides, fun m' hm' => ?_⟩
          rw [← Option.some.inj hm']
          exact h
      rw [hkeeps]
      cases hgolden : isGolden m with
      | true =>
        -- The marker is in a golden member, which is dropped.
        refine iff_of_true (hsound a _ ha (by rw [hread]) ?_) (by simp)
        intro m' hm'
        obtain ⟨hmem, hsource⟩ := mem_sources_iff.mp hm'
        rw [hread] at hmem
        rcases List.mem_append.mp hmem with hmem | hmem
        · rw [hms]
          exact List.mem_append_left _ hmem
        · rw [List.mem_singleton.mp hmem, show isGolden ⟨m.name, m.data ++ x⟩ = isGolden m from rfl,
            hgolden] at hsource
          cases hsource
      | false =>
        refine iff_of_false (fun h => hx ?_) (by simp)
        have hmem : ⟨m.name, m.data ++ x⟩ ∈ sources (Archive.read text) :=
          mem_sources_iff.mpr ⟨List.mem_of_getLast? hlast, hgolden⟩
        have hm : m ∈ a.members := by
          rw [hms]
          simp
        exact ((plain_append_iff (ha.data m hm).ended).mp (h.data _ hmem)).2
  · refine iff_of_true ?_ fun h => hhides h.1
    exact hsound _ _ (sound_read hhides) rfl fun m hm => (mem_sources_iff.mp hm).1

theorem not_hidesMarker_of_ended {text : Bytes} (h : Line.Ended text) : ¬ HidesMarker text := by
  rintro ⟨front, name, rfl, -⟩
  have hlast := Line.ended_iff.mp h Bytes.cr (by rw [← List.append_assoc, List.getLast?_concat])
  exact absurd hlast (by decide)

section

variable {fill? : Settings → Bytes → Option Settings} {text : Bytes} {settings : Settings}

theorem regenerateText?_eq (h : fill? .standard (Archive.read text).comment = some settings) :
    regenerateText? ⟨.standard, fill?⟩ text =
      some ((regenerate settings (Archive.read text)).write, caseCount (Archive.read text)) := by
  unfold regenerateText?
  dsimp only [Codec.standard]
  rw [h]
  rfl

/-- The regenerated text is the archive with its golden members anew, exactly if no hidden marker is
kept. -/
theorem isRegenerated_write_iff :
    IsRegenerated settings (Archive.read text)
        (Archive.read (regenerate settings (Archive.read text)).write) ↔
      ¬ KeepsHiddenMarker .standard text := by
  rw [← sound_withoutGolden_iff]
  constructor
  · intro h
    -- What is kept is the same, and what was written hides no marker.
    have hsame : withoutGolden (Archive.read (regenerate settings (Archive.read text)).write) =
        withoutGolden (Archive.read text) := by
      unfold withoutGolden
      rw [h.comment, h.sources]
    rw [← hsame, sound_withoutGolden_iff]
    exact fun hkeeps => not_hidesMarker_of_ended (ended_write _) hkeeps.1
  · intro h
    rw [read_write (sound_regenerate h settings)]
    exact isRegenerated_regenerate settings _

/-- **Regenerating a regenerated text changes nothing.** -/
theorem regenerateText?_write (h : fill? .standard (Archive.read text).comment = some settings)
    (hkeeps : ¬ KeepsHiddenMarker .standard text) :
    regenerateText? ⟨.standard, fill?⟩ (regenerate settings (Archive.read text)).write =
      some ((regenerate settings (Archive.read text)).write, caseCount (Archive.read text)) := by
  have hread := read_write (sound_regenerate (sound_withoutGolden_iff.mpr hkeeps) settings)
  have hsettings : fill? .standard
      (Archive.read (regenerate settings (Archive.read text)).write).comment = some settings := by
    rw [hread]
    exact h
  rw [regenerateText?_eq hsettings, hread, regenerate_regenerate, caseCount_regenerate]

end

/-! ### Files -/

section

variable {tools : Tools} {fs : FileSystem} {path text : Bytes}

theorem onFile_of_some (hread : fs.read path = .ok text) {text' : Bytes} {n : Nat}
    (h : regenerateText? tools text = some (text', n)) {fs' : FileSystem}
    (hwrite : fs.write path text' = .ok fs') : onFile tools fs path = .ok (fs', n) := by
  unfold onFile
  simp only [hread, Except.mapError, bind, Except.bind, h, hwrite, pure, Except.pure]

theorem onFile_of_none (hread : fs.read path = .ok text) (h : regenerateText? tools text = none) :
    onFile tools fs path = .error (.badComment path) := by
  unfold onFile
  simp only [hread, Except.mapError, bind, Except.bind, h]

/-- **Regenerating an archive file.** If its comment holds settings, the file is written. It then holds
the archive with its golden members anew exactly if no hidden marker is kept, and in that case running
again leaves all files as they are and counts the same documents. What was written hides no marker. If
the comment holds no settings, the run stops, and nothing has changed. -/
theorem onFile_regenerates (hcodec : tools.codec.Lawful) (hread : fs.read path = .ok text) :
    (∀ settings, tools.settings? .standard (tools.codec.read text).comment = some settings →
      ∃ fs' text', onFile tools fs path = .ok (fs', caseCount (tools.codec.read text)) ∧
        fs'.read path = .ok text' ∧ ¬ HidesMarker text' ∧
        (IsRegenerated settings (tools.codec.read text) (tools.codec.read text') ↔
          ¬ KeepsHiddenMarker tools.codec text) ∧
        (¬ KeepsHiddenMarker tools.codec text →
          onFile tools fs' path = .ok (fs', caseCount (tools.codec.read text)))) ∧
    (tools.settings? .standard (tools.codec.read text).comment = none →
      onFile tools fs path = .error (.badComment path) ∧
        ∀ rest, onFiles tools fs (path :: rest) = ⟨fs, [], some (.badComment path)⟩) := by
  obtain ⟨codec, fill?⟩ := tools
  obtain rfl : codec = .standard := hcodec.eq_standard
  constructor
  · intro settings hsettings
    obtain ⟨fs', hwrite, hread', hagain⟩ :=
      FileSystem.write_of_read hread (regenerate settings (Archive.read text)).write
    refine ⟨fs', _, onFile_of_some hread (regenerateText?_eq hsettings) hwrite, hread',
      not_hidesMarker_of_ended (ended_write _), isRegenerated_write_iff, fun hkeeps => ?_⟩
    exact onFile_of_some hread' (regenerateText?_write hsettings hkeeps) hagain
  · intro hsettings
    have hnone : regenerateText? ⟨.standard, fill?⟩ text = none := by
      unfold regenerateText?
      dsimp only at hsettings ⊢
      rw [hsettings]
      rfl
    have hfile := onFile_of_none hread hnone
    refine ⟨hfile, fun rest => ?_⟩
    rw [onFiles, hfile]

end

/-- A document with a padded marker, in an archive without a comment. -/
theorem onFile_regenerates_padded :
    ∃ (fs : FileSystem) (path text : Bytes), fs.read path = .ok text ∧
      Comment.settings? .standard (Archive.read text).comment = some Settings.standard ∧
      ¬ KeepsHiddenMarker .standard text ∧
      ∃ fs' text', onFile .standard fs path = .ok (fs', 1) ∧ fs'.read path = .ok text' ∧
        IsRegenerated Settings.standard (Archive.read text) (Archive.read text') ∧
        onFile .standard fs' path = .ok (fs', 1) := by
  have hread : FileSystem.read
      ⟨.file (bytes "x.txtar") (bytes "-- a.md --\n** a**\n") .empty, bytes "/"⟩ (bytes "x.txtar") =
        .ok (bytes "-- a.md --\n** a**\n") := by decide +kernel
  have hsettings : Comment.settings? .standard (Archive.read (bytes "-- a.md --\n** a**\n")).comment =
      some Settings.standard := by decide +kernel
  have hcount : caseCount (Archive.read (bytes "-- a.md --\n** a**\n")) = 1 := by decide +kernel
  have hkeeps : ¬ KeepsHiddenMarker .standard (bytes "-- a.md --\n** a**\n") := by
    refine fun h => not_hidesMarker_of_ended ?_ h.1
    decide +kernel
  have hlawful : Tools.standard.codec.Lawful := Codec.lawful_standard
  obtain ⟨fs', text', hfirst, hread', -, hregenerated, hagain⟩ :=
    (onFile_regenerates hlawful hread).1 _ hsettings
  have hcount' : caseCount (Tools.standard.codec.read (bytes "-- a.md --\n** a**\n")) = 1 := hcount
  rw [hcount'] at hfirst hagain
  exact ⟨_, _, _, hread, hsettings, hkeeps, fs', text', hfirst, hread', hregenerated.mpr hkeeps,
    hagain hkeeps⟩

/-- A document whose only line is a marker with a carriage return behind it, at the end of the file.
The first run counts one document. It ends the line, and then there are three. -/
theorem onFile_counts_hidden_document :
    ∃ (fs fs' fs'' : FileSystem) (path text : Bytes), fs.read path = .ok text ∧
      Comment.settings? .standard (Archive.read text).comment = some Settings.standard ∧
      onFile .standard fs path = .ok (fs', 1) ∧ onFile .standard fs' path = .ok (fs'', 3) ∧
      fs'' ≠ fs' := by
  refine ⟨⟨.file (bytes "x.txtar") (bytes "-- a.md --\n-- b.md --\r") .empty, bytes "/"⟩,
    ⟨.file (bytes "x.txtar")
      (bytes "-- a.md --\n-- b.md --\r\n-- a.golden --\n-- b.md --\r\n") .empty, bytes "/"⟩,
    ⟨.file (bytes "x.txtar") (bytes ("-- a.md --\n-- a.golden --\n" ++
      "-- b.md --\n-- b.golden --\n-- b.md --\n-- b.golden --\n")) .empty, bytes "/"⟩,
    bytes "x.txtar", bytes "-- a.md --\n-- b.md --\r", ?_, ?_, ?_, ?_, ?_⟩
  · decide +kernel
  · decide +kernel
  · decide +kernel
  · decide +kernel
  · decide +kernel

end Golden

end EmphasisSpacing
