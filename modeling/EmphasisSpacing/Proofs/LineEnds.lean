import EmphasisSpacing.Proofs.OnePass
import EmphasisSpacing.Proofs.SpacedStretches
import EmphasisSpacing.Proofs.Splitting
import EmphasisSpacing.Proofs.TrimmedStretches

/-!
# What a line starts and ends with

A byte is *quiet* if no stage looks at it: it is no star, asks for no space and delimits nothing. What
a line starts with after a stage it started with before, as long as the bytes are quiet
(`Passage.isPrefix_of_onLine`), and the same for its end if the line has no bullet
(`Passage.isSuffix_of_onLine`).

Blanks are quiet too, so this is more than that only blanks move. A stage could put a space between two
hyphens and a star, and so make a beginning that was not there. It does not: at the front of a line
nothing is open that a marker could close, and hyphens do not ask for a space.
-/

namespace EmphasisSpacing

open Atom Delimiter

/-! ### Stretches at the ends of a line -/

namespace StarSplit

variable {s : StarSplit} {p : List Char}

/-- What a line starts with, up to a star, lies in its first stretch. -/
theorem isPrefix_join_iff (hs : ProperRuns s.runs) (hp : '*' ∉ p) : p <+: s.join ↔ p <+: s.front := by
  constructor
  · intro h
    unfold join at h
    cases hruns : s.runs with
    | nil =>
      rw [hruns, joinRuns_nil, List.append_nil] at h
      exact h
    | cons r runs =>
      obtain ⟨n, g⟩ := r
      rw [hruns] at hs h
      obtain ⟨m, rfl⟩ := Nat.exists_eq_succ_of_ne_zero hs.1
      rw [joinRuns_cons, List.replicate_succ, List.cons_append] at h
      exact isPrefix_of_notMem hp h
  · exact fun h => h.trans (List.prefix_append ..)

/-- What a line ends with, down to a star, lies in its last stretch. -/
theorem isSuffix_join_iff (hs : ProperRuns s.runs) (hp : '*' ∉ p) :
    p <:+ s.join ↔ ∃ g, s.stretches.getLast? = some g ∧ p <:+ g := by
  obtain ⟨front, runs⟩ := s
  induction runs generalizing front with
  | nil => simp [join, stretches]
  | cons r runs ih =>
    obtain ⟨n, g⟩ := r
    obtain ⟨m, rfl⟩ := Nat.exists_eq_succ_of_ne_zero hs.1
    have hlast : (StarSplit.mk front ((m + 1, g) :: runs)).stretches.getLast? =
        (StarSplit.mk g runs).stretches.getLast? := by
      simp [stretches, List.getLast?_cons]
    have hjoin : (StarSplit.mk front ((m + 1, g) :: runs)).join =
        (front ++ List.replicate m '*') ++ '*' :: (StarSplit.mk g runs).join := by
      simp [join, List.replicate_succ']
    rw [hlast, ← ih g hs.2.2.2, hjoin]
    constructor
    · exact isSuffix_of_notMem hp
    · exact fun h => (h.trans (List.suffix_cons ..)).trans (List.suffix_append ..)

/-- The first run closes nothing. -/
theorem head?_roles_ne_closes (stage : Stage) (s : StarSplit) :
    (s.roles stage).head? ≠ some .closes := by
  unfold roles
  cases s.widths with
  | nil => simp [Stage.rolesFrom]
  | cons n ns =>
    rw [Stage.rolesFrom]
    split_ifs with _ hclose
    · cases hclose
    · simp
    · simp

/-- The last stretch is changed by the role of the run in front of it. -/
theorem getLast?_stretches_change (f : Option Role → Option Role → List Char → List Char)
    (stage : Stage) (s : StarSplit) :
    (s.change f (s.roles stage)).stretches.getLast? =
      s.stretches.getLast?.map (f (s.roleBefore stage s.runs.length) none) := by
  have hlength : ∀ t : StarSplit, t.stretches.length - 1 = t.widths.length := by
    intro t
    simp [stretches, widths]
  have hbehind : s.roleBehind stage s.runs.length = none :=
    List.getElem?_eq_none (length_roles stage s).le
  rw [List.getLast?_eq_getElem?, List.getLast?_eq_getElem?, hlength, hlength, widths_change,
    getElem?_stretches_change, widths, List.length_map, hbehind]

end StarSplit

/-! ### Lines of characters -/

namespace Scan

open StarSplit

section

variable {wants : Char → Bool} {p g : List Char}

theorem isPrefix_of_tailSpace (hquiet : ∀ c ∈ p, wants c = false) {behind : Option Role}
    (h : p <+: g ++ tailSpace wants behind g) : p <+: g := by
  unfold tailSpace at h
  split_ifs at h with hspace
  · rcases List.prefix_concat_iff.mp h with rfl | h
    · -- The space comes behind a character that asks for it, and no character of `p` does.
      cases hlast : g.getLast? with
      | none =>
        rw [hlast] at hspace
        cases hspace.2
      | some c =>
        have hc : c ∈ g := List.mem_of_getLast? hlast
        rw [hlast, Option.any_some, hquiet c (List.mem_append_left _ hc)] at hspace
        cases hspace.2
    · exact h
  · rwa [List.append_nil] at h

theorem isSuffix_of_leadSpace (hquiet : ∀ c ∈ p, wants c = false) {before : Option Role}
    (h : p <:+ leadSpace wants before g ++ g) : p <:+ g := by
  unfold leadSpace at h
  split_ifs at h with hspace
  · rcases List.suffix_cons_iff.mp h with rfl | h
    · cases hfirst : g.head? with
      | none =>
        rw [hfirst] at hspace
        cases hspace.2
      | some c =>
        have hc : c ∈ g := List.mem_of_head? hfirst
        rw [hfirst, Option.any_some, hquiet c (List.mem_cons_of_mem _ hc)] at hspace
        cases hspace.2
    · exact h
  · exact h

end

variable {stage : Stage} {settings : Settings} {p w : List Char}

/-- **A beginning without a star, of characters that ask for no space, was there before.** -/
theorem isPrefix_of_chars (hstar : '*' ∉ p) (hquiet : ∀ c ∈ p, stage.wants settings c = false)
    (h : p <+: chars stage settings w) : p <+: w := by
  have hfront : p <+: (ofChars w).front → p <+: w := by
    rw [← isPrefix_join_iff (proper_ofChars w).runs hstar, join_ofChars]
    exact id
  apply hfront
  by_cases hstage : stage = .trim
  · subst hstage
    rw [chars_trim_eq, isPrefix_join_iff (proper_trim w).runs hstar] at h
    have hsame : ((ofChars w).change trimStretch ((ofChars w).roles .trim)).front =
        (ofChars w).front := by
      show trimStretch none ((ofChars w).roles .trim).head? (ofChars w).front = _
      unfold trimStretch trimLead
      rw [if_neg fun hclose => head?_roles_ne_closes .trim _ hclose.1, if_neg (by simp)]
    rwa [hsame] at h
  · have hproper := proper_ofChars (chars stage settings w)
    rw [ofChars_space settings hstage] at hproper
    rw [chars_space_eq settings hstage, isPrefix_join_iff hproper.runs hstar] at h
    exact isPrefix_of_tailSpace hquiet h

/-- **An end without a star, of characters that ask for no space, was there before.** -/
theorem isSuffix_of_chars (hstar : '*' ∉ p) (hquiet : ∀ c ∈ p, stage.wants settings c = false)
    (h : p <:+ chars stage settings w) : p <:+ w := by
  have hlast : (∃ g, (ofChars w).stretches.getLast? = some g ∧ p <:+ g) → p <:+ w := by
    rw [← isSuffix_join_iff (proper_ofChars w).runs hstar, join_ofChars]
    exact id
  apply hlast
  by_cases hstage : stage = .trim
  · subst hstage
    rw [chars_trim_eq, isSuffix_join_iff (proper_trim w).runs hstar, getLast?_stretches_change] at h
    obtain ⟨g', hg', hp⟩ := h
    obtain ⟨g, hg, rfl⟩ := Option.map_eq_some_iff.mp hg'
    refine ⟨g, hg, hp.trans ?_⟩
    unfold trimStretch trimLead
    rw [if_neg (by simp)]
    split_ifs
    · exact List.dropWhile_suffix _
    · exact List.suffix_rfl
  · have hproper := proper_ofChars (chars stage settings w)
    rw [ofChars_space settings hstage] at hproper
    rw [chars_space_eq settings hstage, isSuffix_join_iff hproper.runs hstar,
      getLast?_stretches_change] at h
    obtain ⟨g', hg', hp⟩ := h
    obtain ⟨g, hg, rfl⟩ := Option.map_eq_some_iff.mp hg'
    unfold spaceStretch at hp
    rw [tailSpace_of_ne _ _ _ (by simp), List.append_nil] at hp
    exact ⟨g, hg, isSuffix_of_leadSpace hquiet hp⟩

end Scan

/-! ### Quiet bytes -/

/-- Whether no stage looks at a byte. -/
structure IsQuiet (b : UInt8) : Prop where
  ascii : b < 0x80
  alnum : CodePoint.isAlnum b.toNat = false
  ne_star : b ≠ Bytes.star
  ne_mark : b ≠ tokenMark
  ne_delimiter : ∀ d : Delimiter, b ≠ d.byte

namespace IsQuiet

variable {b : UInt8}

theorem char_ne_star (h : IsQuiet b) : Char.ofNat b.toNat ≠ '*' :=
  Utf8.ofNat_ne_star h.ascii h.ne_star

theorem wants_eq (h : IsQuiet b) (stage : Stage) (settings : Settings) :
    stage.wants settings (Char.ofNat b.toNat) = false := by
  have hlt : b.toNat < 0x80 := UInt8.lt_iff_toNat_lt.mp h.ascii
  have hcode : codeOf (Char.ofNat b.toNat) = b.toNat :=
    congrArg Int.ofNat (Utf8.toNat_ofNat_ascii h.ascii)
  have hcjk : CodePoint.isIdeograph (codeOf (Char.ofNat b.toNat)) = false := by
    rw [hcode]
    simp only [CodePoint.isIdeograph, Bool.and_eq_false_iff, decide_eq_false_iff_not]
    omega
  have halnum : CodePoint.isAlnum (codeOf (Char.ofNat b.toNat)) = false := by
    rw [hcode, h.alnum]
  cases stage with
  | trim => rfl
  | bold => simp [Stage.wants, hcjk, halnum]
  | italic => exact hcjk

end IsQuiet

/-! ### Lines of bytes -/

namespace Utf8

variable {p : Bytes} (hp : ∀ b ∈ p, b < 0x80) {w : List Char}

include hp

theorem isPrefix_encode_iff : p <+: encode w ↔ p.map (fun b => Char.ofNat b.toNat) <+: w := by
  constructor
  · rintro ⟨t, ht⟩
    refine ⟨decode t, ?_⟩
    rw [← Scan.decode_append hp, ht, decode_encode]
  · rintro ⟨t, rfl⟩
    rw [encode_append, Scan.encode_map_ascii hp]
    exact List.prefix_append ..

theorem isSuffix_encode_iff : p <:+ encode w ↔ p.map (fun b => Char.ofNat b.toNat) <:+ w := by
  have hdecode : decode p = p.map fun b => Char.ofNat b.toNat := by
    have happend := Scan.decode_append hp []
    rwa [List.append_nil, show decode [] = [] from rfl, List.append_nil] at happend
  constructor
  · rintro ⟨t, ht⟩
    refine ⟨decode t, ?_⟩
    -- An ASCII byte is the start of a character, so `t` is well formed on its own.
    have ht' : isValid t = true := by
      cases p with
      | nil =>
        rw [List.append_nil] at ht
        rw [ht, isValid_encode]
      | cons b p =>
        have hvalid := isValid_encode w
        rw [← ht, isValid_seam (hp b (List.mem_cons_self ..)), Bool.and_eq_true] at hvalid
        exact hvalid.1
    rw [← hdecode, ← decode_append ht', ht, decode_encode]
  · rintro ⟨t, rfl⟩
    rw [encode_append, Scan.encode_map_ascii hp]
    exact List.suffix_append ..

end Utf8

section

variable {p : Bytes} (hp : ∀ b ∈ p, IsQuiet b)

include hp

theorem star_notMem_chars : '*' ∉ p.map fun b => Char.ofNat b.toNat := by
  rw [List.mem_map]
  rintro ⟨b, hb, heq⟩
  exact (hp b hb).char_ne_star heq

theorem wants_chars (stage : Stage) (settings : Settings) :
    ∀ c ∈ p.map fun b => Char.ofNat b.toNat, stage.wants settings c = false := by
  intro c hc
  obtain ⟨b, hb, rfl⟩ := List.mem_map.mp hc
  exact (hp b hb).wants_eq stage settings

theorem tokenMark_notMem : tokenMark ∉ p := fun h => (hp _ h).ne_mark rfl

theorem delimiter_notMem (d : Delimiter) : d.byte ∉ p := fun h => (hp _ h).ne_delimiter d rfl

end

namespace Scan

variable {stage : Stage} {settings : Settings} {p s : Bytes}

theorem isPrefix_of_line (hp : ∀ b ∈ p, IsQuiet b) (hs : Utf8.isValid s = true)
    (h : p <+: line stage settings s) : p <+: s := by
  have hascii : ∀ b ∈ p, b < 0x80 := fun b hb => (hp b hb).ascii
  rw [line_eq_encode stage settings hs, Utf8.isPrefix_encode_iff hascii] at h
  rw [← Utf8.encode_decode hs, Utf8.isPrefix_encode_iff hascii]
  exact isPrefix_of_chars (star_notMem_chars hp) (wants_chars hp stage settings) h

theorem isSuffix_of_line (hp : ∀ b ∈ p, IsQuiet b) (hs : Utf8.isValid s = true)
    (h : p <:+ line stage settings s) : p <:+ s := by
  have hascii : ∀ b ∈ p, b < 0x80 := fun b hb => (hp b hb).ascii
  rw [line_eq_encode stage settings hs, Utf8.isSuffix_encode_iff hascii] at h
  rw [← Utf8.encode_decode hs, Utf8.isSuffix_encode_iff hascii]
  exact isSuffix_of_chars (star_notMem_chars hp) (wants_chars hp stage settings) h

end Scan

/-! ### Atoms -/

section

variable {p : Bytes} {as : List Atom}

/-- However holes are written, a beginning that no hole starts in is one of bytes. -/
theorem isPrefix_flatMap_iff {f : Atom → Bytes} (hbyte : ∀ b, f (.byte b) = [b])
    (hhole : ∀ k, .hole k ∈ as → ∃ x t, f (.hole k) = x :: t ∧ x ∉ p) :
    p <+: as.flatMap f ↔ plain p <+: as := by
  induction as generalizing p with
  | nil => simp [plain]
  | cons a as ih =>
    cases p with
    | nil => simp [plain]
    | cons c p =>
      cases a with
      | byte b =>
        have hrest : ∀ k, .hole k ∈ as → ∃ x t, f (.hole k) = x :: t ∧ x ∉ p := by
          intro k hk
          obtain ⟨x, t, hxt, hx⟩ := hhole k (List.mem_cons_of_mem _ hk)
          exact ⟨x, t, hxt, fun h => hx (List.mem_cons_of_mem _ h)⟩
        rw [List.flatMap_cons, hbyte, List.singleton_append, List.cons_prefix_cons, ih hrest]
        show _ ↔ .byte c :: plain p <+: .byte b :: as
        rw [List.cons_prefix_cons, Atom.byte.injEq]
      | hole k =>
        obtain ⟨x, t, hxt, hx⟩ := hhole k (List.mem_cons_self ..)
        -- A hole is written with a first byte that does not occur in the beginning.
        have hne : c ≠ x := fun h => hx (h ▸ List.mem_cons_self ..)
        rw [List.flatMap_cons, hxt, List.cons_append, List.cons_prefix_cons]
        show _ ↔ .byte c :: plain p <+: .hole k :: as
        rw [List.cons_prefix_cons]
        simp [hne]

/-- However holes are written, an end that no hole ends in is one of bytes. -/
theorem isSuffix_flatMap_iff {f : Atom → Bytes} (hbyte : ∀ b, f (.byte b) = [b])
    (hhole : ∀ k, .hole k ∈ as → ∃ t x, f (.hole k) = t ++ [x] ∧ x ∉ p) :
    p <:+ as.flatMap f ↔ plain p <:+ as := by
  -- Read backwards, it is a beginning.
  have hbyte' : ∀ b, (List.reverse ∘ f) (.byte b) = [b] := by
    intro b
    rw [Function.comp_apply, hbyte, List.reverse_singleton]
  have hhole' : ∀ k, .hole k ∈ as.reverse →
      ∃ x t, (List.reverse ∘ f) (.hole k) = x :: t ∧ x ∉ p.reverse := by
    intro k hk
    obtain ⟨t, x, htx, hx⟩ := hhole k (List.mem_reverse.mp hk)
    exact ⟨x, t.reverse, by simp [htx], by rwa [List.mem_reverse]⟩
  have hplain : (plain p).reverse = plain p.reverse := List.map_reverse.symm
  rw [← List.reverse_prefix, List.reverse_flatMap, ← List.reverse_prefix, hplain]
  exact isPrefix_flatMap_iff hbyte' hhole'

end

section

variable {p : Bytes} (hp : ∀ b ∈ p, IsQuiet b)

include hp

theorem isPrefix_render_iff (base : Nat) (as : List Atom) :
    p <+: render base as ↔ plain p <+: as := by
  apply isPrefix_flatMap_iff
  · exact fun b => rfl
  · exact fun k _ => ⟨tokenMark, _, rfl, tokenMark_notMem hp⟩

theorem isSuffix_render_iff (base : Nat) (as : List Atom) :
    p <:+ render base as ↔ plain p <:+ as := by
  apply isSuffix_flatMap_iff
  · exact fun b => rfl
  · intro k _
    exact ⟨tokenMark :: Integer.ofNat (base + k), tokenMark, rfl, tokenMark_notMem hp⟩

theorem isPrefix_fill_iff {o : Outline} {as : List Atom}
    (hholes : ∀ k ∈ holes as, ∃ (d : Delimiter) (s : Bytes), o.fill [.hole k] =
      d.byte :: (s ++ [d.byte])) : p <+: o.fill as ↔ plain p <+: as := by
  rw [o.fill_eq_flatMap]
  apply isPrefix_flatMap_iff
  · exact o.fill_byte
  · intro k hk
    obtain ⟨d, s, hs⟩ := hholes k (mem_holes_iff.mpr hk)
    exact ⟨d.byte, _, hs, delimiter_notMem hp d⟩

theorem isSuffix_fill_iff {o : Outline} {as : List Atom}
    (hholes : ∀ k ∈ holes as, ∃ (d : Delimiter) (s : Bytes), o.fill [.hole k] =
      d.byte :: (s ++ [d.byte])) : p <:+ o.fill as ↔ plain p <:+ as := by
  rw [o.fill_eq_flatMap]
  apply isSuffix_flatMap_iff
  · exact o.fill_byte
  · intro k hk
    obtain ⟨d, s, hs⟩ := hholes k (mem_holes_iff.mpr hk)
    exact ⟨d.byte :: s, d.byte, hs, delimiter_notMem hp d⟩

/-- Putting regions back makes no quiet end: a region ends with its delimiter. -/
theorem isSuffix_of_putBack {base : Nat} {newestFirst : List (List Atom)}
    (hins : ∀ r ∈ newestFirst, Insertable r) {s : Bytes} (h : p <:+ putBack base newestFirst s) :
    p <:+ s := by
  induction newestFirst generalizing s with
  | nil => exact h
  | cons r rs ih =>
    rw [List.forall_mem_cons] at hins
    have hone := ih hins.2 h
    obtain ⟨d, m, mid, -, rfl, -⟩ := hins.1.isSpan
    rcases Bytes.replaceFirst_cases (token (base + rs.length))
        (render base (.byte d.byte :: (mid ++ [.byte d.byte]))) s with heq | ⟨u, v, rfl, heq⟩
    · rwa [heq] at hone
    · have hregion : render base (.byte d.byte :: (mid ++ [.byte d.byte])) =
          d.byte :: render base mid ++ [d.byte] := by simp
      rw [heq, hregion, List.append_assoc, List.singleton_append, ← List.append_assoc] at hone
      have hv : p <:+ v := isSuffix_of_notMem (delimiter_notMem hp d) hone
      exact (hv.trans (List.suffix_append ..)).trans (List.suffix_append ..)

end

/-! ### One stage -/

namespace Passage

variable {stage : Stage} {settings : Settings} {line head front rest : Bytes} {regions : List Bytes}
  {gs : List Atom} (h : Passage stage settings line head front regions rest gs)

include h

theorem exists_fill_hole {k : Nat} (hk : k ∈ holes gs) :
    ∃ (d : Delimiter) (s : Bytes), (Outline.ofLine settings rest).fill [.hole k] =
      d.byte :: (s ++ [d.byte]) := by
  rw [← holes_respaced h.respaced] at hk
  exact Outline.exists_fill_hole settings rest hk

variable {p : Bytes} (hp : ∀ b ∈ p, IsQuiet b)

include hp

/-- The outline starts with quiet bytes only if the text behind the frame did. -/
theorem isPrefix_of_outline (hgs : plain p <+: gs) : p <+: rest := by
  rw [← isPrefix_render_iff hp regions.length, h.scanned] at hgs
  have hatoms := Scan.isPrefix_of_line hp (Frame.isValid_text settings regions.length h.valid) hgs
  rw [isPrefix_render_iff hp] at hatoms
  rw [← Outline.fill_atoms settings rest,
    isPrefix_fill_iff hp fun k hk => Outline.exists_fill_hole settings rest hk]
  exact hatoms

theorem isSuffix_of_outline (hgs : plain p <:+ gs) : p <:+ rest := by
  rw [← isSuffix_render_iff hp regions.length, h.scanned] at hgs
  have hatoms := Scan.isSuffix_of_line hp (Frame.isValid_text settings regions.length h.valid) hgs
  rw [isSuffix_render_iff hp] at hatoms
  rw [← Outline.fill_atoms settings rest,
    isSuffix_fill_iff hp fun k hk => Outline.exists_fill_hole settings rest hk]
  exact hatoms

/-- **A line starts with quiet bytes after a stage only if it did before.** -/
theorem isPrefix_of_onLine (hout : p <+: stage.onLine settings line) : p <+: line := by
  -- In a broken line, the quiet bytes stand in front of the first NUL.
  have hfill : p <+: front ++ (Outline.ofLine settings rest).fill gs := by
    rcases h.onLine_cases with heq | ⟨u, v, heq, -, hu⟩
    · rwa [heq] at hout
    · rw [heq] at hout
      exact (isPrefix_of_notMem (tokenMark_notMem hp) hout).trans hu
  rw [h.line_eq]
  have hframe := h.frame
  cases hframe with
  | bare =>
    rw [List.nil_append] at hfill ⊢
    exact h.isPrefix_of_outline hp ((isPrefix_fill_iff hp fun k hk => h.exists_fill_hole hk).mp hfill)
  | bullet indent b hindent hb =>
    have hstar : Bytes.star ∉ p := fun hmem => (hp _ hmem).ne_star rfl
    rw [List.append_assoc, List.cons_append] at hfill
    have hin := isPrefix_of_notMem hstar hfill
    rw [List.append_assoc]
    exact hin.trans (List.prefix_append ..)

/-- **A line without a bullet ends with quiet bytes after a stage only if it did before.** -/
theorem isSuffix_of_onLine (hfront : front = []) (hout : p <:+ stage.onLine settings line) :
    p <:+ line := by
  rw [h.line_eq, hfront, List.nil_append]
  refine h.isSuffix_of_outline hp ?_
  rcases h.onLine with heq | heq
  · rw [heq, hfront, List.nil_append, isSuffix_fill_iff hp fun k hk => h.exists_fill_hole hk] at hout
    exact hout
  · rw [heq, hfront, List.nil_append] at hout
    have hins : ∀ r ∈ (Outline.ofLine settings rest).regions.reverse, Insertable r := fun r hr =>
      Outline.insertable settings h.mark r (List.mem_reverse.mp hr)
    exact (isSuffix_render_iff hp regions.length gs).mp (isSuffix_of_putBack hp hins hout)

end Passage

end EmphasisSpacing
