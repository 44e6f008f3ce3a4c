import EmphasisSpacing.Proofs.OnLine
import EmphasisSpacing.Proofs.WhiteSpace

/-!
# What a stage cannot do to the blocks of a document

A stage that rewrites an open line leaves a line that opens or closes no block, is no thematic
break, and does not look like front matter unless it did before. This holds also for lines that are
not put together again as they were: `Reworked` says what can become of a line, and each section
below reads one feature of lines off it.
-/

namespace EmphasisSpacing

open LineSymbol WhiteSpace

/-! ### Thematic breaks -/

/-- A star in a line of stars lies between the white texts. -/
theorem exists_star_split {w m w' u v : Bytes} (hw : White w) (hw' : White w')
    (h : u ++ Bytes.star :: v = w ++ (m ++ w')) :
    ∃ m₁ m₂, m = m₁ ++ Bytes.star :: m₂ ∧ u = w ++ m₁ ∧ v = m₂ ++ w' := by
  -- The star lies in one of the three parts, and white text holds none.
  rcases List.append_eq_append_iff.mp h with ⟨r, hr, hrest⟩ | ⟨m₁, hu, hrest⟩
  · cases r with
    | nil =>
      rw [List.append_nil] at hr
      rw [List.nil_append] at hrest
      cases m with
      | nil =>
        rw [List.nil_append] at hrest
        exact (hw'.star_notMem (by rw [← hrest]; simp)).elim
      | cons x m =>
        obtain ⟨rfl, rfl⟩ := List.cons.inj hrest
        exact ⟨[], m, rfl, by rw [hr, List.append_nil], rfl⟩
    | cons x r =>
      obtain ⟨rfl, -⟩ := List.cons.inj hrest
      exact (hw.star_notMem (by rw [hr]; simp)).elim
  · rcases List.append_eq_append_iff.mp hrest with ⟨r, -, hrest'⟩ | ⟨r, hr, hrest'⟩
    · exact (hw'.star_notMem (by rw [hrest']; simp)).elim
    · cases r with
      | nil => exact (hw'.star_notMem (by rw [List.nil_append] at hrest'; rw [← hrest']; simp)).elim
      | cons x r =>
        obtain ⟨rfl, rfl⟩ := List.cons.inj hrest'
        exact ⟨m₁, r, hr, hu, rfl⟩

/-- A blank more or less among stars and blanks leaves as many stars. -/
theorem starred_insert {b : UInt8} (hb : Bytes.isBlank b = true) (m₁ m₂ : Bytes) :
    ((∀ y ∈ m₁ ++ b :: m₂, y = Bytes.star ∨ Bytes.isBlank y = true) ∧
        3 ≤ (m₁ ++ b :: m₂).count Bytes.star) ↔
      (∀ y ∈ m₁ ++ m₂, y = Bytes.star ∨ Bytes.isBlank y = true) ∧
        3 ≤ (m₁ ++ m₂).count Bytes.star := by
  have hne : b ≠ Bytes.star := by
    rintro rfl
    exact absurd hb (by decide)
  have hcount : (m₁ ++ b :: m₂).count Bytes.star = (m₁ ++ m₂).count Bytes.star := by
    rw [List.count_append, List.count_append, List.count_cons_of_ne hne]
  rw [hcount]
  refine and_congr_left fun _ => ?_
  simp only [List.forall_mem_append, List.forall_mem_cons, hb, or_true, true_and]

/-- A line stays a line of stars when a blank comes next to one of them. A blank at an end of the
stars may be counted to the white text around them. -/
theorem starBreak_of_shift {s t : Bytes} (h : Shift s t) : StarBreak s ↔ StarBreak t := by
  cases h with
  | behind u v x b hx hb hv =>
    obtain rfl : x = Bytes.star := beq_iff_eq.mp hx
    have hinsert := fun m₁ m₂ => starred_insert hb (m₁ ++ [Bytes.star]) m₂
    simp only [List.append_assoc, List.singleton_append] at hinsert
    constructor
    · rintro ⟨w, m, w', hw, hw', hs, hstarred⟩
      obtain ⟨m₁, m₂, rfl, rfl, rfl⟩ := exists_star_split hw hw' hs
      exact ⟨w, m₁ ++ Bytes.star :: b :: m₂, w', hw, hw', by simp, (hinsert m₁ m₂).mpr hstarred⟩
    · rintro ⟨w, m, w', hw, hw', hs, hstarred⟩
      obtain ⟨m₁, m₂, rfl, rfl, hv'⟩ := exists_star_split hw hw' hs
      cases m₂ with
      | nil =>
        -- The blank belongs to the white text behind the stars.
        rw [List.nil_append] at hv'
        rw [← hv'] at hw'
        exact ⟨w, m₁ ++ [Bytes.star], v, hw, hw'.of_cons hb, by simp, hstarred⟩
      | cons y m₂ =>
        obtain ⟨rfl, rfl⟩ := List.cons.inj hv'
        exact ⟨w, m₁ ++ Bytes.star :: m₂, w', hw, hw', by simp, (hinsert m₁ m₂).mp hstarred⟩
  | before u v x b hx hb hu =>
    obtain rfl : x = Bytes.star := beq_iff_eq.mp hx
    have hinsert := fun m₁ m₂ => starred_insert hb m₁ (Bytes.star :: m₂)
    constructor
    · rintro ⟨w, m, w', hw, hw', hs, hstarred⟩
      obtain ⟨m₁, m₂, rfl, rfl, rfl⟩ := exists_star_split hw hw' hs
      exact ⟨w, m₁ ++ b :: Bytes.star :: m₂, w', hw, hw', by simp, (hinsert m₁ m₂).mpr hstarred⟩
    · rintro ⟨w, m, w', hw, hw', hs, hstarred⟩
      rw [show u ++ b :: Bytes.star :: v = (u ++ [b]) ++ Bytes.star :: v by simp] at hs
      obtain ⟨m₁, m₂, rfl, hu', rfl⟩ := exists_star_split hw hw' hs
      rcases List.eq_nil_or_concat m₁ with rfl | ⟨m₁, y, rfl⟩
      · -- The blank belongs to the white text in front of the stars.
        rw [List.append_nil] at hu'
        rw [← hu'] at hw
        exact ⟨u, Bytes.star :: m₂, w', hw.of_concat hb, hw', by simp, hstarred⟩
      · rw [List.concat_eq_append] at hu' hstarred
        rw [← List.append_assoc] at hu'
        obtain ⟨rfl, hy⟩ := List.append_inj' hu' rfl
        obtain rfl : b = y := List.singleton_inj.mp hy
        rw [List.append_assoc, List.singleton_append] at hstarred
        exact ⟨w, m₁ ++ Bytes.star :: m₂, w', hw, hw', by simp, (hinsert m₁ m₂).mp hstarred⟩

/-- Thematic breaks stay what they are when blanks come and go next to stars. -/
theorem isThematicBreak_respaced {s t : Bytes} (h : Respaced s t) (hs : Bytes.star ∈ s) :
    Block.isThematicBreak (trim s) = Block.isThematicBreak (trim t) := by
  have ht : Bytes.star ∈ t := (h.mem_iff (by decide)).mp hs
  rw [Bool.eq_iff_iff, isThematicBreak_trim_iff hs, isThematicBreak_trim_iff ht]
  exact iff_of_eq (h.value StarBreak fun s t hshift => propext (starBreak_of_shift hshift))

/-! ### Open lines -/

namespace Block

/-- Whether a line lies in no block. -/
def State.IsOutside (state : State) : Prop := state.inCode = false ∧ state.inMath = false

/-- Open lines lie outside all blocks, and neither start nor look like one. -/
theorem step_snd_iff {settings : Settings} {state : State} {line : Bytes} :
    (step settings state line).2 = true ↔
      state.IsOutside ∧ (settings.skipCodeBlocks = true → fence? (trim line) = none) ∧
        Bytes.startsWith (trim line) mathMark = false ∧ isThematicBreak (trim line) = false := by
  obtain ⟨inCode, fence, inMath⟩ := state
  cases hskip : settings.skipCodeBlocks <;> cases hfence : fence? (trim line) <;>
    cases hmath : Bytes.startsWith (trim line) mathMark <;> cases inCode <;> cases inMath <;>
    simp [step, State.IsOutside, hskip, hfence, hmath]

/-- An open line leaves the state as it is. -/
theorem step_of_open {settings : Settings} {state : State} {line : Bytes}
    (h : (step settings state line).2 = true) : step settings state line = (state, true) := by
  obtain ⟨⟨hcode, hmathState⟩, hfence, hmath, hbreak⟩ := step_snd_iff.mp h
  cases hskip : settings.skipCodeBlocks with
  | false => simp [step, hskip, hcode, hmathState, hmath, hbreak]
  | true => simp [step, hskip, hfence hskip, hcode, hmathState, hmath, hbreak]

theorem fence?_eq_none_iff {line : Bytes} :
    fence? line = none ↔ ∀ f : Fence, Bytes.startsWith line f.bytes = false := by
  rw [fence?]
  constructor
  · intro h f
    split_ifs at h with hg ht
    cases f with
    | graves => simpa using hg
    | tildes => simpa using ht
  · intro h
    simp [h .graves, h .tildes]

end Block

/-! ### Front matter -/

theorem looksLikeMetadata_iff {line : Bytes} : FrontMatter.looksLikeMetadata line = true ↔
    Bytes.startsWith (trim line) [0x7B] = true ∨ Bytes.startsWith (trim line) [0x5B] = true ∨
      0x3A ∈ line ∨ 0x3D ∈ line := by
  rw [← mem_trim_iff (b := 0x3A) (by decide), ← mem_trim_iff (b := 0x3D) (by decide),
    Bytes.startsWith_iff, Bytes.startsWith_iff, FrontMatter.looksLikeMetadata]
  cases trim line with
  | nil => simp
  | cons b s =>
    have hany : (b :: s).any (fun c => c == 0x3A || c == 0x3D) = true ↔
        0x3A ∈ b :: s ∨ 0x3D ∈ b :: s := by
      simp only [List.any_eq_true, Bool.or_eq_true, beq_iff_eq]
      constructor
      · rintro ⟨c, hc, rfl | rfl⟩
        · exact .inl hc
        · exact .inr hc
      · rintro (hc | hc)
        · exact ⟨_, hc, .inl rfl⟩
        · exact ⟨_, hc, .inr rfl⟩
    dsimp only
    rw [Bool.or_eq_true, Bool.or_eq_true, beq_iff_eq, beq_iff_eq, hany, or_assoc]
    simp

/-- A text with a star or a NUL is no delimiter of front matter. -/
theorem trim_notMem_delimiters {line : Bytes} (h : Bytes.star ∈ line ∨ tokenMark ∈ line) :
    trim line ∉ FrontMatter.delimiters := by
  have hdelim : ∀ delim ∈ FrontMatter.delimiters, Bytes.star ∉ delim ∧ tokenMark ∉ delim := by
    decide
  intro hmem
  rcases h with h | h
  · exact (hdelim _ hmem).1 ((mem_trim_iff (by decide)).mpr h)
  · exact (hdelim _ hmem).2 ((mem_trim_iff (by decide)).mpr h)

theorem opening?_eq_none {line : Bytes} (h : Bytes.star ∈ line ∨ tokenMark ∈ line) :
    FrontMatter.opening? line = none := by
  rw [FrontMatter.opening?]
  refine if_neg fun hmem => ?_
  refine trim_notMem_delimiters ?_ (List.contains_iff_mem.mp hmem)
  cases hbom : Bytes.dropPrefix? FrontMatter.byteOrderMark line with
  | none => exact h
  | some rest =>
    -- The byte order mark holds neither.
    rw [Bytes.dropPrefix?_eq_some_iff.mp hbom, List.mem_append, List.mem_append] at h
    exact h.imp (fun h => h.resolve_left (by decide)) fun h => h.resolve_left (by decide)

/-! ### Lines that a stage rewrites -/

/-- What a stage can make of a line: a respaced line, or a broken one that agrees with it up to the
first NUL. -/
structure Reworked (line line' : Bytes) : Prop where
  star : Bytes.star ∈ line
  cases : ∃ t, Respaced line t ∧
    (line' = t ∨ ∃ u v, line' = u ++ tokenMark :: v ∧ tokenMark ∉ u ∧ u <+: t)
  mem : ∀ x ∈ line', Bytes.isBlank x = false → Atom.outsideTokens x = true → x ∈ line
  last : line'.getLast? = some Bytes.cr → line.getLast? = some Bytes.cr

theorem Stage.reworked (stage : Stage) (settings : Settings) {line : Bytes}
    (hscan : needsScan line = true) : Reworked line (stage.onLine settings line) := by
  obtain ⟨head, front, regions, rest, gs, h⟩ := exists_passage stage settings hscan
  exact ⟨(needsScan_iff.mp hscan).1, ⟨_, h.respaced_line, h.onLine_cases⟩,
    fun x hx hblank htoken => h.mem_of_mem_onLine hx hblank htoken, h.getLast?_of_onLine⟩

theorem Reworked.of_respaced {line line' : Bytes} (h : Respaced line line')
    (hstar : Bytes.star ∈ line) : Reworked line line' :=
  ⟨hstar, ⟨line', h, .inl rfl⟩, fun _ hx hblank _ => (h.mem_iff hblank).mpr hx,
    (h.getLast?_eq_some_iff rfl rfl).mpr⟩

namespace Reworked

variable {line line' : Bytes} (h : Reworked line line')

include h

/-- The new line holds a star or a NUL. -/
theorem star_or_mark : Bytes.star ∈ line' ∨ tokenMark ∈ line' := by
  obtain ⟨t, ht, rfl | ⟨u, v, rfl, -, -⟩⟩ := h.cases
  · exact .inl ((ht.mem_iff (by decide)).mp h.star)
  · exact .inr (by simp)

/-- No beginning without stars comes in. -/
theorem isPrefix {w : Bytes} (hw : ∀ b ∈ w, b ≠ Bytes.star ∧ b ≠ tokenMark)
    (hlast : ∀ b ∈ w.getLast?, Bytes.isBlank b = false) (hpre : w <+: line') : w <+: line := by
  obtain ⟨t, ht, hcases⟩ := h.cases
  refine (ht.isPrefix_iff (fun b hb => beq_eq_false_iff_ne.mpr (hw b hb).1) hlast).mpr ?_
  rcases hcases with rfl | ⟨u, v, rfl, hu, hut⟩
  · exact hpre
  · -- The beginning holds no NUL, so it ends before the first one.
    refine List.IsPrefix.trans ?_ hut
    obtain ⟨r, hr⟩ := hpre
    rcases List.append_eq_append_iff.mp hr with ⟨a, ha, -⟩ | ⟨a, rfl, ha⟩
    · exact ⟨a, ha.symm⟩
    · cases a with
      | nil => simp
      | cons x a => exact absurd (List.cons.inj ha).1.symm (hw x (by simp)).2

theorem startsWith_trim {p : Bytes} (hne : p ≠ []) (hp : p.all isSolid = true)
    (hstar : Bytes.star ∉ p) (hmark : tokenMark ∉ p)
    (hstart : Bytes.startsWith (trim line') p = true) : Bytes.startsWith (trim line) p = true := by
  rw [startsWith_trim_iff hne (List.all_eq_true.mp hp)] at hstart ⊢
  obtain ⟨w, hw, hpre⟩ := hstart
  have hmarkSolid : isSolid tokenMark = true := by decide
  -- White text and the solid text behind it hold no star, no NUL, and end with no blank.
  refine ⟨w, hw, h.isPrefix (fun b hb => ?_) (fun b hb => ?_) hpre⟩
  · rcases List.mem_append.mp hb with hb | hb
    · refine ⟨fun hs => hw.star_notMem (hs ▸ hb), fun hm => ?_⟩
      rw [← hm, hw.isSolid_eq b hb] at hmarkSolid
      cases hmarkSolid
    · exact ⟨fun hs => hstar (hs ▸ hb), fun hm => hmark (hm ▸ hb)⟩
  · rw [List.getLast?_append] at hb
    obtain ⟨c, hc⟩ := List.getLast?_isSome.mpr hne |> Option.isSome_iff_exists.mp
    rw [hc] at hb
    obtain rfl : c = b := Option.some.inj hb
    have hsolid := List.all_eq_true.mp hp c (List.mem_of_getLast? hc)
    by_contra hblank
    rw [Bool.not_eq_false] at hblank
    rcases Bool.or_eq_true_iff.mp hblank with hc' | hc' <;> rw [beq_iff_eq.mp hc'] at hsolid <;>
      exact absurd hsolid (by decide)

theorem isThematicBreak_trim (hbreak : Block.isThematicBreak (trim line') = true) :
    Block.isThematicBreak (trim line) = true := by
  obtain ⟨t, ht, rfl | ⟨u, v, rfl, -, -⟩⟩ := h.cases
  · rwa [isThematicBreak_respaced ht h.star]
  · -- A NUL is neither a mark nor a blank.
    have hmem : tokenMark ∈ trim (u ++ tokenMark :: v) :=
      (mem_trim_iff (by decide)).mpr (by simp)
    cases htrim : trim (u ++ tokenMark :: v) with
    | nil =>
      rw [htrim] at hbreak
      cases hbreak
    | cons mark s =>
      rw [htrim] at hbreak hmem
      simp only [Block.isThematicBreak, Bool.and_eq_true, List.all_eq_true, Bool.or_eq_true,
        beq_iff_eq, decide_eq_true_eq] at hbreak
      obtain ⟨⟨hmark, hall⟩, -⟩ := hbreak
      have heq : tokenMark = mark := (hall _ hmem).resolve_right (by decide)
      rw [← heq] at hmark
      exact absurd hmark (by decide)

/-- **An open line stays open, and the block around it stays the same.** -/
theorem step_eq {settings : Settings} {state : Block.State}
    (hopen : (Block.step settings state line).2 = true) :
    Block.step settings state line' = Block.step settings state line := by
  have hstart : ∀ {p : Bytes}, p ≠ [] → p.all isSolid = true → Bytes.star ∉ p →
      tokenMark ∉ p → Bytes.startsWith (trim line) p = false →
        Bytes.startsWith (trim line') p = false := by
    intro p hne hp hstar hmark hno
    by_contra hyes
    rw [Bool.not_eq_false] at hyes
    rw [h.startsWith_trim hne hp hstar hmark hyes] at hno
    cases hno
  obtain ⟨hstate, hfence, hmath, hbreak⟩ := Block.step_snd_iff.mp hopen
  -- A fence, a math delimiter or a thematic break of the new line would be one of the old line.
  have hopen' : (Block.step settings state line').2 = true := by
    refine Block.step_snd_iff.mpr ⟨hstate, fun hskip => ?_, ?_, ?_⟩
    · refine Block.fence?_eq_none_iff.mpr fun f => ?_
      have hno := Block.fence?_eq_none_iff.mp (hfence hskip) f
      cases f <;> exact hstart (by decide) (by decide) (by decide) (by decide) hno
    · exact hstart (by decide) (by decide) (by decide) (by decide) hmath
    · by_contra hyes
      rw [Bool.not_eq_false] at hyes
      rw [h.isThematicBreak_trim hyes] at hbreak
      cases hbreak
  rw [Block.step_of_open hopen, Block.step_of_open hopen']

/-- A rewritten line looks like metadata only if it did before. -/
theorem looksLikeMetadata (hmeta : FrontMatter.looksLikeMetadata line' = true) :
    FrontMatter.looksLikeMetadata line = true := by
  rw [looksLikeMetadata_iff] at hmeta ⊢
  have hstart : ∀ b : UInt8, b = 0x7B ∨ b = 0x5B → Bytes.startsWith (trim line') [b] = true →
      Bytes.startsWith (trim line) [b] = true := by
    rintro b (rfl | rfl)
    all_goals exact h.startsWith_trim (by decide) (by decide) (by decide) (by decide)
  rcases hmeta with hmeta | hmeta | hmeta | hmeta
  · exact .inl (hstart _ (.inl rfl) hmeta)
  · exact .inr (.inl (hstart _ (.inr rfl) hmeta))
  · exact .inr (.inr (.inl (h.mem _ hmeta (by decide) (by decide))))
  · exact .inr (.inr (.inr (h.mem _ hmeta (by decide) (by decide))))

end Reworked

end EmphasisSpacing
