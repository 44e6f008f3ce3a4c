import EmphasisSpacing.Proofs.Apart
import EmphasisSpacing.Proofs.Compose

/-!
# Bullets that stay bullets

Whether a line has a bullet depends on the blanks behind its leading star: with one, it always has;
with none, it never has; and with more, it depends on the whole line (`wrapsInItalics`), so that a
stage may change it. No stage adds to these blanks, nor to the blanks in front of the star
(`padding_chars_le`, `lead_chars`). Hence a line with at most one of them keeps its bullet
(`Passage.bulletLength_fill`), and then it is protected in the same way after a stage
(`Passage.ofLine_fill`).
-/

namespace EmphasisSpacing

open LineSymbol Atom Delimiter

/-! ### Blanks at the start of a line -/

section

variable {α β : Type} [LineSymbol α] [LineSymbol β]

/-- The number of blanks that a line starts with. -/
def lead (l : List α) : Nat := (l.takeWhile isBlank).length

/-- The number of blanks behind the star that a line starts with, apart from blanks in front of it;
0 when the line starts otherwise. -/
def padding (l : List α) : Nat :=
  match l.dropWhile isBlank with
  | s :: t => if isStar s then lead t else 0
  | [] => 0

theorem lead_blank {b : α} (hb : isBlank b = true) (l : List α) : lead (b :: l) = lead l + 1 := by
  rw [lead, List.takeWhile_cons, if_pos hb, List.length_cons]
  rfl

theorem lead_solid {a : α} (ha : isBlank a = false) (l : List α) : lead (a :: l) = 0 := by
  rw [lead, List.takeWhile_cons, if_neg (by simp [ha])]
  rfl

theorem padding_blank {b : α} (hb : isBlank b = true) (l : List α) :
    padding (b :: l) = padding l := by
  rw [padding, List.dropWhile_cons, if_pos hb]
  rfl

theorem padding_star {s : α} (hs : isStar s = true) (l : List α) : padding (s :: l) = lead l := by
  rw [padding, List.dropWhile_cons, if_neg (by simp [isBlank_of_isStar s hs])]
  exact if_pos hs

theorem padding_solid {a : α} (hstar : isStar a = false) (hblank : isBlank a = false)
    (l : List α) : padding (a :: l) = 0 := by
  rw [padding, List.dropWhile_cons, if_neg (by simp [hblank])]
  exact if_neg (by simp [hstar])

theorem lead_blanks {g : List α} (hg : ∀ b ∈ g, isBlank b = true) (l : List α) :
    lead (g ++ l) = g.length + lead l := by
  induction g with
  | nil => simp
  | cons b g ih =>
    rw [List.forall_mem_cons] at hg
    rw [List.cons_append, lead_blank hg.1, ih hg.2, List.length_cons]
    omega

theorem padding_blanks {g : List α} (hg : ∀ b ∈ g, isBlank b = true) (l : List α) :
    padding (g ++ l) = padding l := by
  induction g with
  | nil => rfl
  | cons b g ih =>
    rw [List.forall_mem_cons] at hg
    rw [List.cons_append, padding_blank hg.1, ih hg.2]

/-- Behind the first element that is no blank, nothing counts. -/
theorem lead_append {s : List α} (h : ∃ x ∈ s, isBlank x = false) (t : List α) :
    lead (s ++ t) = lead s := by
  induction s with
  | nil => simp at h
  | cons a s ih =>
    cases ha : isBlank a with
    | true =>
      have hs : ∃ x ∈ s, isBlank x = false := by
        obtain ⟨x, hx, hsolid⟩ := h
        rcases List.mem_cons.mp hx with rfl | hx
        · rw [ha] at hsolid
          cases hsolid
        · exact ⟨x, hx, hsolid⟩
      rw [List.cons_append, lead_blank ha, lead_blank ha, ih hs]
    | false => rw [List.cons_append, lead_solid ha, lead_solid ha]

/-- Behind the first element that is neither a blank nor a leading star, nothing counts. -/
theorem padding_append {s : List α}
    (h : (∃ x ∈ s, isStar x = false ∧ isBlank x = false) ∨
      ∃ u v, s = u ++ v ∧ (∃ x ∈ u, isBlank x = false) ∧ ∃ y ∈ v, isBlank y = false)
    (t : List α) : padding (s ++ t) = padding s := by
  induction s with
  | nil =>
    rcases h with h | ⟨u, v, hs, ⟨x, hx, -⟩, -⟩
    · simp at h
    · rw [(List.append_eq_nil_iff.mp hs.symm).1] at hx
      cases hx
  | cons a s ih =>
    cases hblank : isBlank a with
    | true =>
      rw [List.cons_append, padding_blank hblank, padding_blank hblank]
      -- What is asked for is no blank, so it stands behind this one.
      refine ih ?_
      rcases h with ⟨x, hx, hsolid⟩ | ⟨u, v, hs, ⟨x, hx, hxsolid⟩, hv⟩
      · rcases List.mem_cons.mp hx with rfl | hx
        · rw [hblank] at hsolid
          exact absurd hsolid.2 (by decide)
        · exact .inl ⟨x, hx, hsolid⟩
      · cases u with
        | nil => cases hx
        | cons b u =>
          obtain ⟨rfl, rfl⟩ := List.cons.inj hs
          rcases List.mem_cons.mp hx with rfl | hx
          · rw [hblank] at hxsolid
            cases hxsolid
          · exact .inr ⟨u, v, rfl, ⟨x, hx, hxsolid⟩, hv⟩
    | false =>
      cases hstar : isStar a with
      | false => rw [List.cons_append, padding_solid hstar hblank, padding_solid hstar hblank]
      | true =>
        rw [List.cons_append, padding_star hstar, padding_star hstar]
        -- Behind a star, one more element that is no blank is enough.
        refine lead_append ?_ t
        rcases h with ⟨x, hx, hsolid⟩ | ⟨u, v, hs, ⟨x, hx, -⟩, y, hy, hysolid⟩
        · rcases List.mem_cons.mp hx with rfl | hx
          · rw [hstar] at hsolid
            cases hsolid.1
          · exact ⟨x, hx, hsolid.2⟩
        · cases u with
          | nil => cases hx
          | cons b u =>
            obtain ⟨rfl, rfl⟩ := List.cons.inj hs
            exact ⟨y, List.mem_append_right _ hy, hysolid⟩

theorem lead_flatMap {f : α → List β} (hf : Spelling f) (l : List α) :
    lead (l.flatMap f) = lead l := by
  induction l with
  | nil => rfl
  | cons a l ih =>
    rw [List.flatMap_cons]
    cases hblank : isBlank a with
    | true =>
      obtain ⟨b, hfa, hb⟩ := hf.blank a hblank
      rw [hfa, List.singleton_append, lead_blank hb, lead_blank hblank, ih]
    | false =>
      rw [lead_solid hblank]
      cases hstar : isStar a with
      | true =>
        obtain ⟨s, hfa, hs⟩ := hf.star a hstar
        rw [hfa, List.singleton_append, lead_solid (isBlank_of_isStar s hs)]
      | false =>
        obtain ⟨x, t, hfa, -, hx, -⟩ := hf.solid a hstar hblank
        rw [hfa, List.cons_append, lead_solid hx]

theorem padding_flatMap {f : α → List β} (hf : Spelling f) (l : List α) :
    padding (l.flatMap f) = padding l := by
  induction l with
  | nil => rfl
  | cons a l ih =>
    rw [List.flatMap_cons]
    cases hblank : isBlank a with
    | true =>
      obtain ⟨b, hfa, hb⟩ := hf.blank a hblank
      rw [hfa, List.singleton_append, padding_blank hb, padding_blank hblank, ih]
    | false =>
      cases hstar : isStar a with
      | true =>
        obtain ⟨s, hfa, hs⟩ := hf.star a hstar
        rw [hfa, List.singleton_append, padding_star hs, padding_star hstar, lead_flatMap hf]
      | false =>
        obtain ⟨x, t, hfa, hx, hx', -⟩ := hf.solid a hstar hblank
        rw [hfa, List.cons_append, padding_solid hx hx', padding_solid hstar hblank]

end

/-! ### Stages add no blanks there -/

namespace Scan

/-- A solid starts with no blank. -/
theorem lead_chars_append {s : Piece} (hs : s.isSolid = true) (cs : List Char) :
    lead (s.chars ++ cs) = 0 := by
  cases s with
  | char c =>
    simp only [Piece.isSolid, Bool.and_eq_true, Bool.not_eq_true'] at hs
    exact lead_solid hs.1 cs
  | stars n =>
    cases n with
    | zero => cases hs
    | succ n => exact lead_solid rfl _

/-- The first gap is what a line starts with. -/
theorem lead_weave {g : List Char} {gaps : List (List Char)} {solids : List Piece}
    (hw : Woven (g :: gaps) solids) : lead (spell (weave (g :: gaps) solids)) = g.length := by
  obtain ⟨g, _, ⟨⟩, hg⟩ := hw.exists_cons
  cases solids with
  | nil =>
    have h := lead_blanks hg []
    rw [List.append_nil] at h
    rw [weave, spell_plain, h]
    rfl
  | cons s solids =>
    rw [weave, spell_append, spell_plain, lead_blanks hg, spell_cons, lead_chars_append hw.2.1]
    rfl

/-- The second gap is the padding of a line that starts with one star. -/
theorem padding_weave {g g' : List Char} {gaps : List (List Char)} {s : Piece}
    {solids : List Piece} (hw : Woven (g :: g' :: gaps) (s :: solids)) :
    padding (spell (weave (g :: g' :: gaps) (s :: solids))) =
      if s = .stars 1 then g'.length else 0 := by
  obtain ⟨hg, hs, -, hrest⟩ := hw
  rw [weave, spell_append, spell_plain, padding_blanks hg, spell_cons]
  cases s with
  | char c =>
    simp only [Piece.isSolid, Bool.and_eq_true, Bool.not_eq_true', bne_iff_ne] at hs
    rw [if_neg (by simp)]
    exact padding_solid (beq_eq_false_iff_ne.mpr hs.2) hs.1 _
  | stars n =>
    cases n with
    | zero => cases hs
    | succ n =>
      cases n with
      | zero =>
        rw [if_pos rfl, ← lead_weave hrest]
        exact padding_star rfl _
      | succ n =>
        rw [if_neg (by simp)]
        exact (padding_star rfl _).trans (lead_solid rfl _)

/-- Without a closing marker or a character in front, the first gap is kept. -/
theorem spaceRules_none (takes : Nat → Bool) (wants : Int → Bool) (frames : List Nat)
    (solids : List Piece) :
    ∃ rs, spaceRules takes wants frames false none solids = .keep :: rs := by
  cases solids with
  | nil => exact ⟨[], rfl⟩
  | cons s solids =>
    cases s with
    | char c => exact ⟨_, rfl⟩
    | stars n =>
      rw [spaceRules]
      split_ifs with hskip hcloses hasks
      · exact ⟨_, rfl⟩
      · exact ⟨_, rfl⟩
      · cases hasks
      · exact ⟨_, rfl⟩

theorem rules_first (stage : Stage) (settings : Settings) (solids : List Piece) :
    ∃ rs, rules stage settings solids = .keep :: rs := by
  cases stage with
  | trim => exact trimRules_first solids
  | bold => exact spaceRules_none _ _ [] solids
  | italic => exact spaceRules_none _ _ [] solids

/-- A marker that starts a line closes nothing, so no space is put behind it. -/
theorem spaceRules_stars (takes : Nat → Bool) (wants : Int → Bool) (n : Nat) (solids : List Piece) :
    ∃ rs, spaceRules takes wants [] false none (.stars n :: solids) = .keep :: .keep :: rs := by
  have hcloses : ¬ closes n [] = true := by simp [closes]
  rw [spaceRules, if_neg hcloses]
  split_ifs with hskip hasks
  · obtain ⟨rs, hrs⟩ := spaceRules_none takes wants [] solids
    exact ⟨rs, by rw [hrs]⟩
  · cases hasks
  · obtain ⟨rs, hrs⟩ := spaceRules_none takes wants [n] solids
    exact ⟨rs, by rw [hrs]⟩

theorem rules_stars (stage : Stage) (settings : Settings) (n : Nat) (solids : List Piece) :
    ∃ r rs, rules stage settings (.stars n :: solids) = .keep :: r :: rs ∧ r ≠ .fill := by
  cases stage with
  | trim =>
    obtain ⟨rs, hrs⟩ := trimRules_first (.stars n :: solids)
    have hlength := (local_rules .trim settings (.stars n :: solids)).length_eq
    rw [show rules .trim settings (.stars n :: solids) = trimRules [] .other (.stars n :: solids)
      from rfl, hrs] at hlength
    obtain ⟨r, rs, rfl⟩ := List.exists_cons_of_length_eq_add_one (Nat.succ.inj hlength)
    refine ⟨r, rs, hrs, ne_fill_of_mem_trimRules (.stars n :: solids) [] .other r ?_⟩
    rw [hrs]
    simp
  | bold =>
    obtain ⟨rs, hrs⟩ := spaceRules_stars (2 ≤ ·) (boldSpace settings) n solids
    exact ⟨.keep, rs, hrs, by decide⟩
  | italic =>
    obtain ⟨rs, hrs⟩ := spaceRules_stars (· == 1) italicSpace n solids
    exact ⟨.keep, rs, hrs, by decide⟩

theorem Rule.length_apply_le {r : Rule} (hr : r ≠ .fill) (g : List Char) :
    (r.apply g).length ≤ g.length := by
  cases r with
  | keep => exact le_rfl
  | clear => exact Nat.zero_le _
  | fill => exact absurd rfl hr

/-- The blanks in front of a line stay. -/
theorem lead_chars (stage : Stage) (settings : Settings) (cs : List Char) :
    lead (chars stage settings cs) = lead cs := by
  obtain ⟨gaps, solids, hw, rfl⟩ := exists_woven cs
  obtain ⟨g, gaps, rfl, -⟩ := hw.exists_cons
  obtain ⟨rs, hrs⟩ := rules_first stage settings solids
  have hw' := woven_treat hw (local_rules stage settings solids)
  rw [hrs, treat_cons] at hw'
  rw [chars_weave stage settings hw, hrs, treat_cons, lead_weave hw', lead_weave hw]
  rfl

/-- No blanks are put behind the star that a line starts with. -/
theorem padding_chars_le (stage : Stage) (settings : Settings) (cs : List Char) :
    padding (chars stage settings cs) ≤ padding cs := by
  obtain ⟨gaps, solids, hw, rfl⟩ := exists_woven cs
  obtain ⟨g, gaps, rfl, hg⟩ := hw.exists_cons
  have hw' := woven_treat hw (local_rules stage settings solids)
  rw [chars_weave stage settings hw]
  cases solids with
  | nil =>
    -- A line of blanks.
    obtain ⟨rs, hrs⟩ := rules_first stage settings []
    rw [hrs, treat_cons, weave, weave]
    exact le_rfl
  | cons s solids =>
    obtain ⟨g', gaps, rfl, -⟩ := hw.2.2.2.exists_cons
    rw [padding_weave hw]
    by_cases hs : s = .stars 1
    · obtain ⟨r, rs, hrs, hr⟩ := rules_stars stage settings 1 solids
      rw [hs, hrs, treat_cons, treat_cons] at hw' ⊢
      rw [padding_weave hw', if_pos rfl, if_pos rfl]
      exact Rule.length_apply_le hr g'
    · -- Nothing counts as padding here.
      obtain ⟨t, ts, hts, -⟩ := hw'.exists_cons
      rw [hts] at hw' ⊢
      obtain ⟨t', ts, rfl, -⟩ := hw'.2.2.2.exists_cons
      rw [padding_weave hw', if_neg hs, if_neg hs]

variable (stage : Stage) (settings : Settings) {s : Bytes}

theorem lead_line (hs : Utf8.isValid s = true) : lead (line stage settings s) = lead s := by
  have hline : lead (line stage settings s) = lead (Utf8.decode s) := by
    rw [line_eq_encode stage settings hs]
    exact (lead_flatMap Utf8.spelling_encodeChar _).trans (lead_chars stage settings _)
  have hs' : lead (Utf8.encode (Utf8.decode s)) = lead (Utf8.decode s) :=
    lead_flatMap Utf8.spelling_encodeChar _
  rw [hline, ← hs', Utf8.encode_decode hs]

theorem padding_line_le (hs : Utf8.isValid s = true) :
    padding (line stage settings s) ≤ padding s := by
  have hline : padding (line stage settings s) ≤ padding (Utf8.decode s) := by
    rw [line_eq_encode stage settings hs]
    exact (padding_flatMap Utf8.spelling_encodeChar _).trans_le (padding_chars_le stage settings _)
  have hs' : padding (Utf8.encode (Utf8.decode s)) = padding (Utf8.decode s) :=
    padding_flatMap Utf8.spelling_encodeChar _
  rwa [← hs', Utf8.encode_decode hs] at hline

end Scan

/-! ### Outlines start as their lines do -/

namespace Outline

variable (settings : Settings) (line : Bytes) (as : List Atom)

theorem lead_fill : lead ((ofLine settings line).fill as) = lead as := by
  have hcode := spelling_plug (n := 0) (isSpan_of_mem_codes settings line)
  have hmath := spelling_plug (n := (ofLine settings line).codes.length)
    (isSpan_of_mem_maths settings line)
  rw [fill, fillCode, fillMath, plug_eq_flatMap, plug_eq_flatMap _ as]
  exact (lead_flatMap (spelling_bytes 0) _).trans
    ((lead_flatMap hcode _).trans (lead_flatMap hmath as))

theorem padding_fill : padding ((ofLine settings line).fill as) = padding as := by
  have hcode := spelling_plug (n := 0) (isSpan_of_mem_codes settings line)
  have hmath := spelling_plug (n := (ofLine settings line).codes.length)
    (isSpan_of_mem_maths settings line)
  rw [fill, fillCode, fillMath, plug_eq_flatMap, plug_eq_flatMap _ as]
  exact (padding_flatMap (spelling_bytes 0) _).trans
    ((padding_flatMap hcode _).trans (padding_flatMap hmath as))

end Outline

/-! ### Bullets -/

/-- Whether a line starts with a star and two blanks, apart from blanks in front of the star. -/
def opensWide (line : Bytes) : Bool :=
  match line.dropWhile Bytes.isBlank with
  | a :: b :: c :: _ => a == Bytes.star && Bytes.isBlank b && Bytes.isBlank c
  | _ => false

/-- The shape of a line with padding. -/
theorem exists_of_padding {line : Bytes} (h : 0 < padding line) :
    ∃ indent b rest, (∀ x ∈ indent, Bytes.isBlank x = true) ∧ Bytes.isBlank b = true ∧
      line = indent ++ Bytes.star :: b :: rest := by
  induction line with
  | nil => cases h
  | cons a line ih =>
    cases hblank : isBlank a with
    | true =>
      rw [padding_blank hblank] at h
      obtain ⟨indent, b, rest, hindent, hb, rfl⟩ := ih h
      exact ⟨a :: indent, b, rest, List.forall_mem_cons.mpr ⟨hblank, hindent⟩, hb, rfl⟩
    | false =>
      cases hstar : isStar a with
      | false =>
        rw [padding_solid hstar hblank] at h
        cases h
      | true =>
        rw [padding_star hstar] at h
        obtain rfl : a = Bytes.star := beq_iff_eq.mp hstar
        cases line with
        | nil => cases h
        | cons b rest =>
          refine ⟨[], b, rest, by simp, ?_, rfl⟩
          cases hb : Bytes.isBlank b with
          | true => rfl
          | false =>
            rw [lead_solid hb] at h
            cases h

section

variable {indent rest : Bytes} {b : UInt8} (hindent : ∀ x ∈ indent, Bytes.isBlank x = true)
  (hb : Bytes.isBlank b = true)

include hindent

theorem dropWhile_indent (t : Bytes) :
    (indent ++ Bytes.star :: t).dropWhile Bytes.isBlank = Bytes.star :: t := by
  rw [List.dropWhile_append_of_pos hindent]
  rfl

include hb

theorem padding_bullet : padding (indent ++ Bytes.star :: b :: rest) = lead rest + 1 := by
  rw [padding_blanks hindent, padding_star rfl, lead_blank hb]

theorem bulletLength_star :
    bulletLength (indent ++ Bytes.star :: b :: rest) =
      if wrapsInItalics (b :: rest) then 0 else indent.length + 1 := by
  have htake : (indent ++ Bytes.star :: b :: rest).takeWhile Bytes.isBlank = indent := by
    rw [List.takeWhile_append_of_pos hindent]
    exact List.append_nil indent
  rw [bulletLength, drop_takeWhile_length, dropWhile_indent hindent, htake]
  dsimp only
  rw [hb]
  cases wrapsInItalics (b :: rest) <;> rfl

theorem bulletLength_indent (hrest : lead rest = 0) :
    bulletLength (indent ++ Bytes.star :: b :: rest) = indent.length + 1 := by
  have hwraps : wrapsInItalics (b :: rest) = false := by
    cases rest with
    | nil => rfl
    | cons c rest =>
      have hc : ¬ Bytes.isBlank c = true := by
        intro hc
        rw [lead_blank hc] at hrest
        cases hrest
      rw [wrapsInItalics, if_neg hc]
  rw [bulletLength_star hindent hb, hwraps, if_neg Bool.false_ne_true]

end

theorem padding_le_one_of_not_opensWide {line : Bytes} (h : opensWide line = false) :
    padding line ≤ 1 := by
  by_contra hwide
  obtain ⟨indent, b, rest, hindent, hb, rfl⟩ := exists_of_padding (by omega : 0 < padding line)
  rw [padding_bullet hindent hb] at hwide
  rw [opensWide, dropWhile_indent hindent] at h
  cases rest with
  | nil => exact hwide le_rfl
  | cons c rest =>
    have hc : Bytes.isBlank c = false := by simpa [hb] using h
    rw [lead_solid hc] at hwide
    exact hwide le_rfl

theorem bulletLength_eq_zero {line : Bytes} (h : padding line = 0) : bulletLength line = 0 := by
  rcases bulletLength_cases line with hzero | ⟨indent, b, rest, hindent, hb, rfl, -⟩
  · exact hzero
  · rw [padding_bullet hindent hb] at h
    cases h

/-- **A line with at most one blank behind its leading star keeps its bullet**, as long as no blanks
come in at its start. -/
theorem Frame.bulletLength_eq {head front rest rest' : Bytes} {regions : List Bytes}
    (hframe : Frame head front regions)
    (hlength : bulletLength (front ++ rest) = front.length - 1)
    (hpad : padding (front ++ rest) ≤ 1) (hlead : lead rest' = lead rest)
    (hle : padding rest' ≤ padding rest) :
    bulletLength (front ++ rest') = front.length - 1 ∧ padding (front ++ rest') ≤ 1 := by
  cases hframe with
  | bare =>
    -- Without a bullet there is no padding, and none comes in.
    have hzero : padding rest = 0 := by
      by_contra hne
      obtain ⟨indent, b, t, hindent, hb, rfl⟩ := exists_of_padding (Nat.pos_of_ne_zero hne)
      rw [List.nil_append, padding_bullet hindent hb] at hpad
      rw [List.nil_append, bulletLength_indent hindent hb (by omega)] at hlength
      cases hlength
    rw [hzero] at hle
    exact ⟨bulletLength_eq_zero (Nat.le_zero.mp hle), hle.trans (Nat.zero_le 1)⟩
  | bullet indent b hindent hb =>
    have hassoc : ∀ t : Bytes, indent ++ [Bytes.star, b] ++ t = indent ++ Bytes.star :: b :: t := by
      simp
    rw [hassoc, padding_bullet hindent hb] at hpad
    have hrest : lead rest' = 0 := by omega
    constructor
    · rw [hassoc, bulletLength_indent hindent hb hrest]
      simp
    · rw [hassoc, padding_bullet hindent hb, hrest]

namespace Passage

variable {stage : Stage} {settings : Settings} {line head front rest : Bytes} {regions : List Bytes}
  {gs : List Atom} (h : Passage stage settings line head front regions rest gs)

include h

theorem lead_fill_eq : lead ((Outline.ofLine settings rest).fill gs) = lead rest := by
  have htext := Frame.isValid_text settings regions.length h.valid
  have hrender : ∀ as, lead (render regions.length as) = lead as :=
    lead_flatMap (spelling_bytes regions.length)
  calc lead ((Outline.ofLine settings rest).fill gs)
      = lead (render regions.length gs) := by rw [Outline.lead_fill, hrender]
    _ = lead (render regions.length (Outline.ofLine settings rest).atoms) := by
        rw [h.scanned, Scan.lead_line stage settings htext]
    _ = lead rest := by
        rw [hrender, ← Outline.lead_fill settings rest, Outline.fill_atoms]

theorem padding_fill_le : padding ((Outline.ofLine settings rest).fill gs) ≤ padding rest := by
  have htext := Frame.isValid_text settings regions.length h.valid
  have hrender : ∀ as, padding (render regions.length as) = padding as :=
    padding_flatMap (spelling_bytes regions.length)
  calc padding ((Outline.ofLine settings rest).fill gs)
      = padding (render regions.length gs) := by rw [Outline.padding_fill, hrender]
    _ ≤ padding (render regions.length (Outline.ofLine settings rest).atoms) := by
        rw [h.scanned]
        exact Scan.padding_line_le stage settings htext
    _ = padding rest := by
        rw [hrender, ← Outline.padding_fill settings rest, Outline.fill_atoms]

/-- **A stage leaves a line with at most one blank behind its leading star its bullet.** -/
theorem bulletLength_fill (hpad : padding line ≤ 1) :
    bulletLength (front ++ (Outline.ofLine settings rest).fill gs) = bulletLength line ∧
      padding (front ++ (Outline.ofLine settings rest).fill gs) ≤ 1 := by
  have hlead := h.lead_fill_eq
  have hle := h.padding_fill_le
  obtain ⟨hframe, rfl, hlength, -, -, -, -, -⟩ := h
  rw [hlength]
  exact hframe.bulletLength_eq hlength hpad hlead hle

/-- **A line that keeps its bullet is protected as before, with the text that was scanned.** -/
theorem ofLine_fill
    (hlength : bulletLength (front ++ (Outline.ofLine settings rest).fill gs) = bulletLength line) :
    Protected.ofLine settings (front ++ (Outline.ofLine settings rest).fill gs) =
      ⟨Scan.line stage settings (Protected.ofLine settings line).text,
        (Protected.ofLine settings line).regions⟩ := by
  rw [h.scan_text, h.ofLine_eq, h.frame.ofLine_eq settings (hlength.trans h.length),
    Outline.ofLine_fill h.respaced]
  rfl

end Passage

end EmphasisSpacing
