import EmphasisSpacing.Emphasis.Format
import EmphasisSpacing.Proofs.Restore

/-!
# One stage on one line

A stage protects a line, scans the protected text and puts the regions back. In terms of the outline
of the line, it moves blanks next to the stars of the outline and fills the holes again.

* If no digits join two regions, that is all (`Passage.onLine_eq_fill`).
* Otherwise the result may be a broken line with NULs in it; even then, what stands in front of the
  first NUL is a beginning of the respaced line (`Passage.onLine_cases`).
-/

namespace EmphasisSpacing

open LineSymbol Atom Delimiter

/-! ### Well-formed text -/

namespace Utf8

theorem isValid_append_of_ascii {w : Bytes} (hw : ∀ b ∈ w, b < 0x80) (t : Bytes) :
    isValid (w ++ t) = isValid t := by
  induction w with
  | nil => rfl
  | cons b w ih =>
    rw [List.forall_mem_cons] at hw
    rw [List.cons_append, isValid_cons hw.1, ih hw.2]

/-- Blanks that come and go next to stars keep a text well formed. -/
theorem isValid_respaced {s t : Bytes} (h : Respaced s t) : isValid s = isValid t := by
  refine h.value isValid fun s t hshift => ?_
  cases hshift with
  | behind u v x b hx hb hv =>
    have hx' : x < 0x80 := by
      rw [show x = Bytes.star from beq_iff_eq.mp hx]
      decide
    rw [isValid_seam hx', isValid_seam hx', isValid_cons (lt_of_isBlank hb)]
  | before u v x b hx hb hu =>
    have hx' : x < 0x80 := by
      rw [show x = Bytes.star from beq_iff_eq.mp hx]
      decide
    rw [isValid_seam hx', isValid_seam (lt_of_isBlank hb), isValid_cons hx']

end Utf8

theorem needsScan_iff {line : Bytes} :
    needsScan line = true ↔
      Bytes.star ∈ line ∧ tokenMark ∉ line ∧ Utf8.isValid line = true := by
  simp [needsScan, and_assoc]

/-- A respaced line is worth scanning again. -/
theorem needsScan_respaced {s t : Bytes} (h : Respaced s t) : needsScan s = needsScan t := by
  rw [Bool.eq_iff_iff, needsScan_iff, needsScan_iff, Utf8.isValid_respaced h,
    h.mem_iff (a := Bytes.star) (by decide), h.mem_iff (a := tokenMark) (by decide)]

/-! ### Protected text is well formed -/

namespace Outline

section

variable (settings : Settings) (line : Bytes)

/-- Every hole of the outline has a region. -/
theorem exists_region {k : Nat} (hk : k ∈ holes (ofLine settings line).atoms) :
    ∃ r ∈ (ofLine settings line).regions, (ofLine settings line).regions[k]? = some r := by
  have hlt : k < (ofLine settings line).regions.length := by
    rw [regions, List.length_append]
    by_cases hold : (ofLine settings line).codes.length ≤ k
    · have hmem : k ∈ newHoles (ofLine settings line).codes.length (ofLine settings line).atoms :=
        List.mem_filter.mpr ⟨hk, by simpa using hold⟩
      rw [newHoles_atoms, List.mem_range'_1] at hmem
      exact hmem.2
    · omega
  exact ⟨_, List.getElem_mem hlt, List.getElem?_eq_getElem hlt⟩

/-- What a hole stands for has a delimiter at both ends. -/
theorem exists_fill_hole {k : Nat} (hk : k ∈ holes (ofLine settings line).atoms) :
    ∃ (d : Delimiter) (s : Bytes), (ofLine settings line).fill [.hole k] =
      d.byte :: (s ++ [d.byte]) := by
  obtain ⟨r, hr, hget⟩ := exists_region settings line hk
  have hspan : ∃ (d : Delimiter) (m : Nat), d.IsSpan m r := by
    rcases List.mem_append.mp hr with hr | hr
    · exact ⟨_, _, isSpan_of_mem_codes settings line r hr⟩
    · exact ⟨_, _, isSpan_of_mem_maths settings line r hr⟩
  obtain ⟨d, m, mid, -, rfl, -⟩ := hspan
  refine ⟨d, (ofLine settings line).fill mid, ?_⟩
  rw [fill_hole settings line hget, fill_cons, fill_append]
  rfl

end

/-- Tokens in the place of regions keep a text well formed. -/
theorem isValid_render {o : Outline} {as : List Atom} (base : Nat)
    (hholes : ∀ k ∈ holes as, ∃ (d : Delimiter) (s : Bytes), o.fill [.hole k] =
      d.byte :: (s ++ [d.byte])) {u : Bytes} (h : Utf8.isValid (u ++ o.fill as) = true) :
    Utf8.isValid (u ++ render base as) = true := by
  induction as generalizing u with
  | nil => exact h
  | cons a as ih =>
    rw [fill_cons] at h
    cases a with
    | byte b =>
      rw [fill_byte, ← List.append_assoc] at h
      rw [render_cons, bytes_byte, ← List.append_assoc]
      exact ih hholes h
    | hole k =>
      rw [holes_hole, List.forall_mem_cons] at hholes
      obtain ⟨⟨d, s, hs⟩, hrest⟩ := hholes
      have hd : d.byte < 0x80 := by cases d <;> decide
      have hmark : tokenMark < 0x80 := by decide
      -- Both delimiters are seams, and so are both NULs.
      rw [hs, List.cons_append, Utf8.isValid_seam hd, List.append_assoc, List.singleton_append,
        Utf8.isValid_seam hd, Bool.and_eq_true, Bool.and_eq_true] at h
      rw [render_cons, bytes_hole, token, List.append_assoc, List.cons_append,
        Utf8.isValid_seam hmark, List.singleton_append, Utf8.isValid_seam hmark,
        Utf8.isValid_of_ascii fun b hb => Utf8.lt_of_isDigit (Integer.ofNat_isDigit hb), h.1]
      simpa using ih hrest (u := []) h.2.2

end Outline

/-! ### The stage -/

namespace Frame

variable {head front rest : Bytes} {regions : List Bytes}

theorem ascii_front (h : Frame head front regions) : ∀ b ∈ front, b < 0x80 := by
  intro x hx
  cases h with
  | bare => cases hx
  | bullet indent b hindent hb =>
    simp only [List.mem_append, List.mem_cons, List.not_mem_nil, or_false] at hx
    rcases hx with hx | rfl | rfl
    · exact Utf8.lt_of_isBlank (hindent x hx)
    · decide
    · exact Utf8.lt_of_isBlank hb

theorem tokenMark_notMem_front (h : Frame head front regions) : tokenMark ∉ front := by
  intro hx
  cases h with
  | bare => cases hx
  | bullet indent b hindent hb =>
    simp only [List.mem_append, List.mem_cons, List.not_mem_nil, or_false] at hx
    rcases hx with hx | hx | hx
    · exact absurd (hindent _ hx) (by decide)
    · exact absurd hx (by decide)
    · rw [← hx] at hb
      exact absurd hb (by decide)

theorem getLast?_front (h : Frame head front regions) : front.getLast? ≠ some Bytes.cr := by
  cases h with
  | bare => simp
  | bullet indent b hindent hb =>
    rw [show indent ++ [Bytes.star, b] = indent ++ [Bytes.star] ++ [b] by simp,
      List.getLast?_concat]
    rintro ⟨⟩
    exact absurd hb (by decide)

/-- The text behind the frame of a well-formed line without NULs. -/
theorem clean_rest (h : Frame head front regions) (hmark : tokenMark ∉ front ++ rest)
    (hvalid : Utf8.isValid (front ++ rest) = true) :
    tokenMark ∉ rest ∧ Utf8.isValid rest = true := by
  rw [Utf8.isValid_append_of_ascii h.ascii_front] at hvalid
  exact ⟨fun hr => hmark (List.mem_append_right _ hr), hvalid⟩

/-- The text behind the frame of a line that is scanned. -/
theorem scannable_rest (h : Frame head front regions) (hscan : needsScan (front ++ rest) = true) :
    tokenMark ∉ rest ∧ Utf8.isValid rest = true := by
  obtain ⟨-, hmark, hvalid⟩ := needsScan_iff.mp hscan
  exact h.clean_rest hmark hvalid

theorem isValid_text (settings : Settings) (base : Nat) (hvalid : Utf8.isValid rest = true) :
    Utf8.isValid (render base (Outline.ofLine settings rest).atoms) = true := by
  refine Outline.isValid_render (u := []) base
    (fun k hk => Outline.exists_fill_hole settings rest hk) ?_
  rw [List.nil_append, Outline.fill_atoms]
  exact hvalid

/-- **A stage behind a frame.** It scans the outline of the text behind the frame, and puts the
regions back behind what the frame stands for. -/
theorem onLine_eq (h : Frame head front regions) (settings : Settings) (stage : Stage)
    (hlength : bulletLength (front ++ rest) = front.length - 1) :
    stage.onLine settings (front ++ rest) =
      if Scan.line stage settings (render regions.length (Outline.ofLine settings rest).atoms) =
          render regions.length (Outline.ofLine settings rest).atoms
      then front ++ rest
      else front ++ putBack regions.length (Outline.ofLine settings rest).regions.reverse
        (Scan.line stage settings
          (render regions.length (Outline.ofLine settings rest).atoms)) := by
  rw [Stage.onLine, h.ofLine_eq settings hlength]
  dsimp only
  rw [Scan.line_frame stage settings h, h.restore_eq]
  simp

end Frame

theorem getLast?_of_render {base : Nat} {x : UInt8} (hx : outsideTokens x = true) {as : List Atom}
    (h : (render base as).getLast? = some x) : as.getLast? = some (.byte x) := by
  rcases List.eq_nil_or_concat as with rfl | ⟨as, a, rfl⟩
  · cases h
  rw [List.concat_eq_append] at h ⊢
  rw [List.getLast?_concat]
  cases a with
  | byte b =>
    rw [render_append, render_cons, render_nil, bytes_byte, List.append_nil,
      List.getLast?_concat] at h
    rw [Option.some.inj h]
  | hole k =>
    rw [render_append, render_cons, render_nil, bytes_hole, token, List.append_nil,
      ← List.append_assoc, List.getLast?_concat] at h
    cases h
    exact absurd hx (by decide)

/-- A passage of a stage over a line: the frame of the line, the text behind it, and the outline of
that text as the stage leaves it. -/
structure Passage (stage : Stage) (settings : Settings) (line head front : Bytes)
    (regions : List Bytes) (rest : Bytes) (gs : List Atom) : Prop where
  frame : Frame head front regions
  line_eq : line = front ++ rest
  length : bulletLength line = front.length - 1
  mark : tokenMark ∉ rest
  valid : Utf8.isValid rest = true
  respaced : Respaced (Outline.ofLine settings rest).atoms gs
  scanned : render regions.length gs =
    Scan.line stage settings (render regions.length (Outline.ofLine settings rest).atoms)
  onLine : stage.onLine settings line = front ++ (Outline.ofLine settings rest).fill gs ∨
    stage.onLine settings line = front ++ putBack regions.length
      (Outline.ofLine settings rest).regions.reverse (render regions.length gs)

/-- A stage passes over every well-formed line without NULs in this way, also over lines that are not
worth scanning. -/
theorem exists_passage_of_isValid (stage : Stage) (settings : Settings) {line : Bytes}
    (hmark : tokenMark ∉ line) (hvalid : Utf8.isValid line = true) :
    ∃ head front regions rest gs, Passage stage settings line head front regions rest gs := by
  obtain ⟨head, front, regions, rest, hframe, rfl, hlength⟩ := exists_frame line
  obtain ⟨hmark, hvalid⟩ := hframe.clean_rest hmark hvalid
  have htext := Frame.isValid_text settings regions.length hvalid
  have honLine := hframe.onLine_eq settings stage hlength
  by_cases hsame : Scan.line stage settings
      (render regions.length (Outline.ofLine settings rest).atoms) =
        render regions.length (Outline.ofLine settings rest).atoms
  · refine ⟨head, front, regions, rest, (Outline.ofLine settings rest).atoms, hframe, rfl, hlength,
      hmark, hvalid, .refl _, hsame.symm, .inl ?_⟩
    rw [honLine, if_pos hsame, Outline.fill_atoms]
  · obtain ⟨gs, hgs, hrender⟩ := (exists_respaced_of_render regions.length
      (Scan.respaced_line stage settings htext)).1 _ rfl
    refine ⟨head, front, regions, rest, gs, hframe, rfl, hlength, hmark, hvalid, hgs, hrender,
      .inr ?_⟩
    rw [honLine, if_neg hsame, hrender]

theorem exists_passage (stage : Stage) (settings : Settings) {line : Bytes}
    (hscan : needsScan line = true) :
    ∃ head front regions rest gs, Passage stage settings line head front regions rest gs := by
  obtain ⟨-, hmark, hvalid⟩ := needsScan_iff.mp hscan
  exact exists_passage_of_isValid stage settings hmark hvalid

namespace Passage

variable {stage : Stage} {settings : Settings} {line head front rest : Bytes} {regions : List Bytes}
  {gs : List Atom} (h : Passage stage settings line head front regions rest gs)

include h

/-- The protected line. -/
theorem ofLine_eq : Protected.ofLine settings line =
    ⟨head ++ render regions.length (Outline.ofLine settings rest).atoms,
      regions ++ (Outline.ofLine settings rest).regions.map (render regions.length)⟩ := by
  have hlength := h.length
  rw [h.line_eq] at hlength ⊢
  exact h.frame.ofLine_eq settings hlength

/-- The protected line, scanned. -/
theorem scan_text : Scan.line stage settings (Protected.ofLine settings line).text =
    head ++ render regions.length gs := by
  rw [h.ofLine_eq, Scan.line_frame stage settings h.frame, h.scanned]

/-- The outline of the whole line. -/
theorem outline_eq : Outline.ofLine settings line =
    ⟨plain front ++ (Outline.ofLine settings rest).atoms, (Outline.ofLine settings rest).codes,
      (Outline.ofLine settings rest).maths⟩ := by
  rw [h.line_eq]
  exact Outline.ofLine_append settings (fun d => h.frame.ignores_front d) rest

theorem respaced_outline :
    Respaced (Outline.ofLine settings line).atoms (plain front ++ gs) := by
  rw [h.outline_eq]
  refine h.respaced.append_left ?_
  have hfront := starsBehind_render 0 (plain front)
  rw [render_plain, h.frame.starsBehind_front] at hfront
  exact hfront.symm

theorem fill_eq : (Outline.ofLine settings line).fill (plain front ++ gs) =
    front ++ (Outline.ofLine settings rest).fill gs := by
  rw [Outline.fill_append, Outline.fill_plain, h.outline_eq]
  rfl

theorem respaced_line : Respaced line (front ++ (Outline.ofLine settings rest).fill gs) := by
  rw [← h.fill_eq]
  exact Outline.respaced_fill h.respaced_outline

/-- The line is respaced, or it is broken, and then a beginning of the respaced line stands in front
of the first NUL. -/
theorem onLine_cases :
    stage.onLine settings line = front ++ (Outline.ofLine settings rest).fill gs ∨
      ∃ u v, stage.onLine settings line = u ++ tokenMark :: v ∧ tokenMark ∉ u ∧
        u <+: front ++ (Outline.ofLine settings rest).fill gs := by
  rcases h.onLine with heq | heq
  · exact .inl heq
  rcases Outline.putBack_cases settings h.mark h.respaced regions.length with
    hput | ⟨u, v, hput, hu, hpre⟩
  · rw [heq, hput]
    exact .inl rfl
  · right
    refine ⟨front ++ u, v, by rw [heq, hput, List.append_assoc], fun hmem => ?_, ?_⟩
    · rcases List.mem_append.mp hmem with hmem | hmem
      · exact h.frame.tokenMark_notMem_front hmem
      · exact hu hmem
    · exact (List.prefix_append_right_inj front).mpr hpre

/-- No byte comes in but blanks and, in a broken line, what tokens are made of. -/
theorem mem_of_mem_onLine {x : UInt8} (hx : x ∈ stage.onLine settings line)
    (hblank : Bytes.isBlank x = false) (htoken : outsideTokens x = true) : x ∈ line := by
  have hrender : ∀ {as : List Atom}, x ∈ render regions.length as → .byte x ∈ as := by
    intro as hmem
    obtain ⟨a, ha, hxa⟩ := List.mem_flatMap.mp hmem
    cases a with
    | byte b => rwa [List.mem_singleton.mp hxa]
    | hole k => exact absurd hxa (notMem_token htoken _)
  rcases h.onLine with heq | heq
  · rw [heq, ← h.respaced_line.mem_iff hblank] at hx
    exact hx
  · rw [heq] at hx
    rw [h.line_eq]
    rcases List.mem_append.mp hx with hx | hx
    · exact List.mem_append_left _ hx
    refine List.mem_append_right _ ?_
    rcases mem_of_mem_putBack hx with hx | ⟨r, hr, hx⟩
    · exact Outline.mem_of_mem_atoms settings ((h.respaced.mem_iff hblank).mpr (hrender hx))
    · exact Outline.mem_of_mem_region settings (List.mem_reverse.mp hr) (hrender hx)

/-- A line ends with a carriage return only if it did before. -/
theorem getLast?_of_onLine (hlast : (stage.onLine settings line).getLast? = some Bytes.cr) :
    line.getLast? = some Bytes.cr := by
  rcases h.onLine with heq | heq
  · rw [heq] at hlast
    exact (h.respaced_line.getLast?_eq_some_iff (by decide) (by decide)).mpr hlast
  · rw [heq, List.getLast?_append] at hlast
    have hrest : (putBack regions.length (Outline.ofLine settings rest).regions.reverse
        (render regions.length gs)).getLast? = some Bytes.cr := by
      rcases Option.or_eq_some_iff.mp hlast with hlast | ⟨-, hfront⟩
      · exact hlast
      · exact absurd hfront h.frame.getLast?_front
    have hins : ∀ r ∈ (Outline.ofLine settings rest).regions.reverse, Insertable r := fun r hr =>
      Outline.insertable settings h.mark r (List.mem_reverse.mp hr)
    rcases getLast?_putBack hins (render regions.length gs) with hsame | ⟨r, hr, hsame⟩
    · rw [hsame] at hrest
      have hgs := getLast?_of_render (by decide) hrest
      have hatoms := (h.respaced.getLast?_eq_some_iff rfl rfl).mpr hgs
      obtain ⟨as, has⟩ := List.getLast?_eq_some_iff.mp hatoms
      have hfill := Outline.fill_atoms settings rest
      rw [has, Outline.fill_append, Outline.fill_byte] at hfill
      rw [h.line_eq, ← hfill, ← List.append_assoc, List.getLast?_concat]
    · -- A span ends with its delimiter.
      obtain ⟨d, m, mid, -, rfl, -⟩ := (hins r hr).isSpan
      rw [hsame] at hrest
      have hspan := getLast?_of_render (by decide) hrest
      rw [← List.cons_append, List.getLast?_concat] at hspan
      cases d <;> simp [Delimiter.byte, Bytes.cr, Bytes.grave, Bytes.dollar] at hspan

/-- Without digits that join regions, the line is respaced. -/
theorem onLine_eq_fill (hapart : Apart settings line) :
    stage.onLine settings line = front ++ (Outline.ofLine settings rest).fill gs := by
  rw [h.line_eq, h.frame.apart_iff settings] at hapart
  rcases h.onLine with heq | heq
  · exact heq
  · rw [heq, Outline.putBack_eq_fill settings h.mark h.respaced hapart]

end Passage

end EmphasisSpacing
