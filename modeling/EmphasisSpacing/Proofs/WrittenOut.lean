import Mathlib.Data.List.Perm.Basic
import EmphasisSpacing.Proofs.Expand

/-!
# Tokens written out from left to right

Restoring searches the text for one token after the other, from the newest to the oldest, and each
search may meet what an earlier one has put there. What it should amount to is easier to say: read the
text from left to right, and write the full text of a region wherever its token stands. The full text
of a region is found in the same way, from those of the older regions (`Protected.fullTexts`).

If no digits stand between two regions, this is what restoring does, to a protected line and to what a
stage makes of it (`Protected.restore_scanned`), and also what `Protected.expand?` does to a single
region. A stage moves no token, and every region has one token: in the text, or in the math region that
holds it.
-/

namespace EmphasisSpacing

open LineSymbol Atom Delimiter

/-! ### Reading tokens -/

namespace Atom

/-- The atom with the numbers of holes moved by `n`. -/
def shift (n : Nat) : Atom → Atom
  | .byte b => .byte b
  | .hole k => .hole (n + k)

/-- The bytes of atoms, where hole `k` stands for the `k`th text. -/
def write (texts : List Bytes) (as : List Atom) : Bytes :=
  as.flatMap fun
    | .byte b => [b]
    | .hole k => texts.getD k []

theorem write_append (texts : List Bytes) (as bs : List Atom) :
    write texts (as ++ bs) = write texts as ++ write texts bs := by
  simp [write]

theorem write_plain (texts : List Bytes) (s : Bytes) : write texts (plain s) = s := by
  induction s with
  | nil => rfl
  | cons b s ih => exact congrArg (b :: ·) ih

theorem render_shift (n : Nat) (as : List Atom) : render 0 (as.map (shift n)) = render n as := by
  induction as with
  | nil => rfl
  | cons a as ih =>
    rw [List.map_cons, render_cons, render_cons, ih]
    cases a with
    | byte b => rfl
    | hole k => rw [shift, bytes_hole, bytes_hole, Nat.zero_add]

theorem holes_shift (n : Nat) (as : List Atom) :
    holes (as.map (shift n)) = (holes as).map (n + ·) := by
  induction as with
  | nil => rfl
  | cons a as ih =>
    cases a with
    | byte b => exact ih
    | hole k => exact congrArg (fun ks => (n + k) :: ks) ih

theorem holes_plug (f : Nat → List Atom) (as : List Atom) :
    holes (plug f as) = (holes as).flatMap fun k => holes (f k) := by
  induction as with
  | nil => rfl
  | cons a as ih =>
    cases a with
    | byte b => exact ih
    | hole k => rw [plug_hole, holes_append, ih, holes_hole, List.flatMap_cons]

end Atom

namespace Protected

/-- The atoms of a protected text, of which the parts between NULs are given: texts and the numbers of
tokens in turn. -/
def atomsOfParts : List Bytes → List Atom
  | text :: number :: parts =>
    plain text ++ .hole ((Integer.natOfDigits? 0 number).getD 0) :: atomsOfParts parts
  | [text] => plain text
  | [] => []

/-- A protected text, read as bytes and tokens from left to right. -/
def atomsOf (text : Bytes) : List Atom := atomsOfParts (Bytes.splitOn tokenMark text)

/-- The numbers of the tokens of a text, from left to right. -/
def tokenNumbers (text : Bytes) : List Nat := holes (atomsOf text)

/-- The text with `full[k]` in the place of each token with the number `k`. -/
def writeOut (full : List Bytes) (text : Bytes) : Bytes := write full (atomsOf text)

/-- The full texts of regions, each written out with those of the older ones. -/
def fullTexts (regions : List Bytes) : List Bytes :=
  regions.foldl (fun full region => full ++ [writeOut full region]) []

theorem fullTexts_concat (regions : List Bytes) (region : Bytes) :
    fullTexts (regions ++ [region]) =
      fullTexts regions ++ [writeOut (fullTexts regions) region] := by
  rw [fullTexts, List.foldl_append]
  rfl

section

variable {w : Bytes} (hw : tokenMark ∉ w)

include hw

theorem atomsOf_of_notMem : atomsOf w = plain w := by
  rw [atomsOf, Bytes.splitOn_of_notMem hw, atomsOfParts]

theorem tokenNumbers_of_notMem : tokenNumbers w = [] := by
  rw [tokenNumbers, atomsOf_of_notMem hw, holes_plain]

theorem writeOut_of_notMem (full : List Bytes) : writeOut full w = w := by
  rw [writeOut, atomsOf_of_notMem hw, write_plain]

/-- A token is read as the hole with its number. -/
theorem atomsOf_token (k : Nat) (s : Bytes) :
    atomsOf (w ++ (token k ++ s)) = plain w ++ .hole k :: atomsOf s := by
  have hnumber : Integer.natOfDigits? 0 (Integer.ofNat k) = some k :=
    Integer.natOfDigits?_natDigits (k + 1) k [] (Nat.lt_succ_self k)
  rw [atomsOf, splitOn_token hw, atomsOfParts, hnumber]
  rfl

omit hw in
theorem atomsOf_token_front (k : Nat) (s : Bytes) :
    atomsOf (token k ++ s) = .hole k :: atomsOf s :=
  atomsOf_token (w := []) (List.not_mem_nil (a := tokenMark)) k s

/-- **What was written as tokens is read as holes again.** Induction on the atoms; `w` is what was read
since the last token. -/
theorem atomsOf_append_render (base : Nat) {as : List Atom} (has : .byte tokenMark ∉ as) :
    atomsOf (w ++ render base as) = plain w ++ as.map (shift base) := by
  induction as generalizing w with
  | nil => rw [render_nil, List.append_nil, atomsOf_of_notMem hw, List.map_nil, List.append_nil]
  | cons a as ih =>
    rw [List.mem_cons, not_or] at has
    cases a with
    | byte b =>
      have hwb : tokenMark ∉ w ++ [b] := by
        rw [List.mem_append, List.mem_singleton, not_or]
        exact ⟨hw, fun hb => has.1 (by rw [hb])⟩
      rw [render_cons, bytes_byte, ← List.append_assoc, ih hwb has.2, plain_append,
        List.append_assoc]
      rfl
    | hole k =>
      have hrest := ih (w := []) (List.not_mem_nil (a := tokenMark)) has.2
      rw [List.nil_append] at hrest
      rw [render_cons, bytes_hole, atomsOf_token hw, hrest]
      rfl

end

theorem atomsOf_render (base : Nat) {as : List Atom} (has : .byte tokenMark ∉ as) :
    atomsOf (render base as) = as.map (shift base) :=
  atomsOf_append_render (w := []) (List.not_mem_nil (a := tokenMark)) base has

end Protected

open Protected

/-! ### Bullets -/

/-- The token of a bullet and the blank behind it. -/
theorem Protected.atomsOf_bullet {b : UInt8} (hb : Bytes.isBlank b = true) :
    atomsOf (token 0 ++ [b]) = [.hole 0, .byte b] := by
  rw [atomsOf_token_front, atomsOf_of_notMem (tokenMark_notMem_blank hb)]
  rfl

namespace Frame

variable {head front : Bytes} {regions : List Bytes} (h : Frame head front regions)

include h

/-- In front of the outline, at most the token of a bullet is read. -/
theorem atomsOf_append {as : List Atom} (has : .byte tokenMark ∉ as) :
    atomsOf (head ++ render regions.length as) =
      atomsOf head ++ as.map (shift regions.length) := by
  cases h with
  | bare => exact atomsOf_render 0 has
  | bullet indent b hindent hb =>
    have hmark := tokenMark_notMem_blank hb
    rw [List.append_assoc, atomsOf_token_front, atomsOf_append_render hmark _ has,
      atomsOf_bullet hb]
    rfl

theorem render_atomsOf_head : render 0 (atomsOf head) = head := by
  cases h with
  | bare => rfl
  | bullet indent b hindent hb =>
    rw [atomsOf_bullet hb]
    rfl

theorem tokenNumbers_head : tokenNumbers head = List.range regions.length := by
  cases h with
  | bare => rfl
  | bullet indent b hindent hb =>
    rw [tokenNumbers, atomsOf_bullet hb]
    rfl

theorem writeOut_head (more : List Bytes) : writeOut (regions ++ more) head = front := by
  cases h with
  | bare => rfl
  | bullet indent b hindent hb =>
    rw [writeOut, atomsOf_bullet hb]
    show indent ++ [Bytes.star] ++ [b] = indent ++ [Bytes.star, b]
    rw [List.append_assoc]
    rfl

/-- A bullet holds no token. -/
theorem tokenMark_notMem_regions : ∀ region ∈ regions, tokenMark ∉ region := by
  intro region hregion hmark
  have hfront := h.tokenMark_notMem_front
  cases h with
  | bare => cases hregion
  | bullet indent b hindent hb =>
    rw [List.mem_singleton.mp hregion] at hmark
    refine hfront ?_
    rw [List.append_cons]
    exact List.mem_append_left _ hmark

theorem fullTexts_regions : fullTexts regions = regions := by
  have hclean := h.tokenMark_notMem_regions
  cases h with
  | bare => rfl
  | bullet indent b hindent hb =>
    exact congrArg (fun t => [t]) (writeOut_of_notMem (hclean _ (List.mem_singleton_self _)) [])

end Frame

/-! ### Regions -/

namespace Outline

/-- Atoms are written out as they are filled, if the texts of their holes are known. -/
theorem write_shift (o : Outline) {n : Nat} {texts : List Bytes} {as : List Atom}
    (htexts : ∀ k ∈ holes as, texts[n + k]? = some (o.fill [.hole k])) :
    write texts (as.map (shift n)) = o.fill as := by
  induction as with
  | nil => rfl
  | cons a as ih =>
    rw [List.map_cons, ← List.singleton_append, write_append, fill_cons]
    cases a with
    | byte b =>
      rw [ih htexts]
      rfl
    | hole k =>
      rw [holes_hole, List.forall_mem_cons] at htexts
      have hk : write texts [shift n (.hole k)] = o.fill [.hole k] := by
        show texts.getD (n + k) [] ++ [] = _
        rw [List.append_nil, List.getD_eq_getElem?_getD, htexts.1, Option.getD_some]
      rw [hk, ih htexts.2]

variable (settings : Settings) (line : Bytes)

/-- The tokens in a region are those of older regions: code holds none, and math those of code. -/
theorem lt_of_mem_holes_region {j k : Nat} {r : List Atom}
    (hget : (ofLine settings line).regions[j]? = some r) (hk : k ∈ holes r) : k < j := by
  by_cases hcode : j < (ofLine settings line).codes.length
  · rw [regions, List.getElem?_append_left hcode] at hget
    rw [holes_of_mem_codes settings line r (List.mem_of_getElem? hget)] at hk
    cases hk
  · rw [regions, List.getElem?_append_right (Nat.not_lt.mp hcode)] at hget
    have hspan := isSpan_of_mem_maths settings line r (List.mem_of_getElem? hget)
    have hlt : k < (ofLine settings line).codes.length := by
      simpa [Atom.isNew] using hspan.isNew _ (mem_holes_iff.mp hk)
    omega

variable {line} in
/-- **The full text of a region is what its hole stands for.** Induction on the regions, from the newest
one: the holes in it have older regions, whose full texts are known. -/
theorem fullTexts_append {older : List Bytes} (holder : fullTexts older = older)
    (hmark : tokenMark ∉ line) {spans : List (List Atom)}
    (hspans : spans <+: (ofLine settings line).regions) :
    fullTexts (older ++ spans.map (render older.length)) =
      older ++ spans.map (ofLine settings line).fill := by
  induction spans using List.reverseRecOn with
  | nil => rw [List.map_nil, List.append_nil, List.map_nil, List.append_nil, holder]
  | append_singleton spans r ih =>
    obtain ⟨newer, hnewer⟩ := hspans
    have hget : ∀ {k : Nat} {s : List Atom}, (spans ++ [r])[k]? = some s →
        (ofLine settings line).regions[k]? = some s := by
      intro k s hk
      rw [← hnewer, List.getElem?_append_left (List.getElem?_eq_some_iff.mp hk).1, hk]
    have hr : (ofLine settings line).regions[spans.length]? = some r := hget (by simp)
    have hclean : .byte tokenMark ∉ r := (insertable settings hmark r (List.mem_of_getElem? hr)).clean
    -- The holes of the newest region have older regions, whose full texts are known.
    have htexts : ∀ k ∈ holes r, (older ++ spans.map (ofLine settings line).fill)[older.length + k]? =
        some ((ofLine settings line).fill [.hole k]) := by
      intro k hk
      have hlt : k < spans.length := lt_of_mem_holes_region settings line hr hk
      have hspan : (spans ++ [r])[k]? = some spans[k] := by
        rw [List.getElem?_append_left hlt, List.getElem?_eq_getElem hlt]
      rw [List.getElem?_append_right (Nat.le_add_right ..), Nat.add_sub_cancel_left,
        List.getElem?_map, List.getElem?_eq_getElem hlt, Option.map_some,
        fill_hole settings line (hget hspan)]
    have hwrite : writeOut (older ++ spans.map (ofLine settings line).fill)
        (render older.length r) = (ofLine settings line).fill r := by
      rw [writeOut, atomsOf_render _ hclean, write_shift _ htexts]
    have hprefix : spans <+: (ofLine settings line).regions :=
      ⟨[r] ++ newer, by rw [← List.append_assoc, hnewer]⟩
    rw [List.map_append, List.map_singleton, ← List.append_assoc, fullTexts_concat, ih hprefix,
      hwrite, List.map_append, List.map_singleton, List.append_assoc]

/-- Math is part of no other region, so it has a hole in the outline. -/
theorem mem_holes_of_le {k : Nat} (hle : (ofLine settings line).codes.length ≤ k)
    (hlt : k < (ofLine settings line).regions.length) : k ∈ holes (ofLine settings line).atoms := by
  have hnew : k ∈ newHoles (ofLine settings line).codes.length (ofLine settings line).atoms := by
    rw [regions, List.length_append] at hlt
    rw [newHoles_atoms, List.mem_range'_1]
    exact ⟨hle, hlt⟩
  exact (List.mem_filter.mp hnew).1

variable {line} in
/-- The full text of any region of the outline, behind older regions. -/
theorem expand?_region (older : List Bytes) (hmark : tokenMark ∉ line)
    (hmaths : ∀ r ∈ (ofLine settings line).maths, digitsJoin .text r = false) (k : Nat) :
    expand? (older ++ (ofLine settings line).regions.map (render older.length)) (older.length + k) =
      (ofLine settings line).regions[k]?.map (ofLine settings line).fill := by
  have hlook : (older ++ (ofLine settings line).regions.map (render older.length))[older.length + k]? =
      (ofLine settings line).regions[k]?.map (render older.length) := by
    rw [List.getElem?_append_right (Nat.le_add_right ..), Nat.add_sub_cancel_left, List.getElem?_map]
  cases hget : (ofLine settings line).regions[k]? with
  | none =>
    rw [expand?, hlook, hget]
    rfl
  | some r =>
    by_cases hcode : k < (ofLine settings line).codes.length
    · -- Code holds no token, so there is nothing to put back.
      have hr : r ∈ (ofLine settings line).codes := by
        rw [regions, List.getElem?_append_left hcode] at hget
        exact List.mem_of_getElem? hget
      have hplain : plain (render older.length r) = r :=
        plain_render (holes_of_mem_codes settings line r hr) _
      have hclean : tokenMark ∉ render older.length r := by
        intro hmem
        refine (insertable settings hmark r (List.mem_of_getElem? hget)).clean ?_
        rw [← hplain]
        exact List.mem_map_of_mem hmem
      have hfill : (ofLine settings line).fill r = render older.length r := by
        rw [← hplain, fill_plain, hplain]
      rw [expand?, hlook, hget, Option.map_some, Option.map_some, Option.map_some, restore,
        restoreFrom_of_notMem hclean, hfill]
    · have hk : k ∈ holes (ofLine settings line).atoms :=
        mem_holes_of_le settings line (Nat.not_lt.mp hcode) (List.getElem?_eq_some_iff.mp hget).1
      rw [expand?_eq older settings hmark hmaths hk, fill_hole settings line hget, Option.map_some]

open scoped List in
/-- **Every region has one hole**, in the outline or in the math region that holds it. -/
theorem perm_holes :
    (holes (ofLine settings line).atoms ++ (ofLine settings line).regions.flatMap holes).Perm
      (List.range (ofLine settings line).regions.length) := by
  set o := ofLine settings line with ho
  set low := (holes o.atoms).filter fun k => decide (k < o.codes.length) with hlowdef
  have hsplit : (low ++ List.range' o.codes.length o.maths.length).Perm (holes o.atoms) := by
    rw [← newHoles_atoms settings line, newHoles, ← ho]
    have hnot : (holes o.atoms).filter (fun k => decide (o.codes.length ≤ k)) =
        (holes o.atoms).filter (fun k => !decide (k < o.codes.length)) := by
      refine List.filter_congr fun k _ => ?_
      rw [← decide_not, decide_eq_decide, Nat.not_lt]
    rw [hnot]
    exact List.filter_append_perm _ _
  -- Filling the math replaces the holes of math by those in it, and then all holes of code are there.
  have hfill : (holes o.atoms).flatMap (fun k => holes (spanAt o.codes.length o.maths k)) =
      List.range' 0 o.codes.length := by
    rw [← holes_plug]
    exact (congrArg holes (fillMath_atoms settings line)).trans (holes_cutCode settings line)
  have hlow : low.flatMap (fun k => holes (spanAt o.codes.length o.maths k)) = low := by
    have hself : ∀ k ∈ low, holes (spanAt o.codes.length o.maths k) = [k] := by
      intro k hk
      have hlt : k < o.codes.length := of_decide_eq_true (List.mem_filter.mp hk).2
      rw [spanAt_of_lt hlt]
      rfl
    rw [List.flatMap_congr hself]
    exact List.flatMap_singleton' low
  have hmaths : (List.range' o.codes.length o.maths.length).flatMap
      (fun k => holes (spanAt o.codes.length o.maths k)) = o.maths.flatMap holes := by
    conv_rhs => rw [← map_spanAt o.codes.length o.maths, List.flatMap_map]
  have hcodes : o.codes.flatMap holes = [] :=
    List.flatMap_eq_nil_iff.mpr (holes_of_mem_codes settings line)
  have hnested : (low ++ o.maths.flatMap holes).Perm (List.range' 0 o.codes.length) := by
    have hperm := hsplit.flatMap_right fun k => holes (spanAt o.codes.length o.maths k)
    rwa [hfill, List.flatMap_append, hlow, hmaths] at hperm
  have hrange : List.range' 0 o.codes.length ++ List.range' o.codes.length o.maths.length =
      List.range o.regions.length := by
    rw [regions, List.length_append, List.range_eq_range', ← List.range'_append_1, Nat.zero_add]
  rw [regions, List.flatMap_append, hcodes, List.nil_append, ← regions, ← hrange]
  calc holes o.atoms ++ o.maths.flatMap holes
    _ ~ low ++ List.range' o.codes.length o.maths.length ++ o.maths.flatMap holes :=
      hsplit.symm.append_right _
    _ ~ low ++ o.maths.flatMap holes ++ List.range' o.codes.length o.maths.length := by
      rw [List.append_assoc, List.append_assoc]
      exact List.perm_append_comm.append_left low
    _ ~ List.range' 0 o.codes.length ++ List.range' o.codes.length o.maths.length :=
      hnested.append_right _

end Outline

/-! ### Lines -/

namespace Frame

variable {head front rest : Bytes} {regions : List Bytes} (h : Frame head front regions)
  (settings : Settings) (hmark : tokenMark ∉ rest)

include h hmark

/-- The full texts of the regions of a line. -/
theorem fullTexts_eq :
    fullTexts (regions ++ (Outline.ofLine settings rest).regions.map (render regions.length)) =
      regions ++ (Outline.ofLine settings rest).regions.map (Outline.ofLine settings rest).fill :=
  Outline.fullTexts_append settings h.fullTexts_regions hmark List.prefix_rfl

/-- The full texts are those that `Protected.expand?` finds. -/
theorem expand?_eq_fullTexts
    (hmaths : ∀ r ∈ (Outline.ofLine settings rest).maths, digitsJoin .text r = false) (i : Nat) :
    expand? (regions ++ (Outline.ofLine settings rest).regions.map (render regions.length)) i =
      (fullTexts (regions ++
        (Outline.ofLine settings rest).regions.map (render regions.length)))[i]? := by
  rw [h.fullTexts_eq settings hmark]
  by_cases hi : i < regions.length
  · have hbullet : tokenMark ∉ regions[i] := h.tokenMark_notMem_regions _ (List.getElem_mem hi)
    rw [expand?, List.getElem?_append_left hi, List.getElem?_append_left hi,
      List.getElem?_eq_getElem hi, Option.map_some, restore, restoreFrom_of_notMem hbullet]
  · obtain ⟨k, rfl⟩ : ∃ k, i = regions.length + k := ⟨i - regions.length, by omega⟩
    rw [Outline.expand?_region settings regions hmark hmaths,
      List.getElem?_append_right (Nat.le_add_right ..), Nat.add_sub_cancel_left, List.getElem?_map]

variable {gs : List Atom} (hgs : Respaced (Outline.ofLine settings rest).atoms gs)

include hgs

/-- **Writing out a respaced outline fills its holes.** -/
theorem writeOut_eq :
    writeOut (fullTexts
        (regions ++ (Outline.ofLine settings rest).regions.map (render regions.length)))
        (head ++ render regions.length gs) =
      front ++ (Outline.ofLine settings rest).fill gs := by
  have hclean := Outline.clean_respaced settings hmark hgs
  have htexts : ∀ k ∈ holes gs, (regions ++ (Outline.ofLine settings rest).regions.map
      (Outline.ofLine settings rest).fill)[regions.length + k]? =
        some ((Outline.ofLine settings rest).fill [.hole k]) := by
    intro k hk
    rw [← holes_respaced hgs] at hk
    obtain ⟨r, -, hget⟩ := Outline.exists_region settings rest hk
    rw [List.getElem?_append_right (Nat.le_add_right ..), Nat.add_sub_cancel_left,
      List.getElem?_map, hget, Option.map_some, Outline.fill_hole settings rest hget]
  have hhead := h.writeOut_head
    ((Outline.ofLine settings rest).regions.map (Outline.ofLine settings rest).fill)
  rw [writeOut] at hhead
  rw [h.fullTexts_eq settings hmark, writeOut, h.atomsOf_append hclean, write_append, hhead,
    Outline.write_shift _ htexts]

theorem tokenNumbers_eq :
    tokenNumbers (head ++ render regions.length gs) =
      List.range regions.length ++
        (holes (Outline.ofLine settings rest).atoms).map (regions.length + ·) := by
  have hhead := h.tokenNumbers_head
  rw [tokenNumbers] at hhead
  rw [tokenNumbers, h.atomsOf_append (Outline.clean_respaced settings hmark hgs), holes_append,
    hhead, holes_shift, holes_respaced hgs]

theorem render_atomsOf_eq :
    render 0 (atomsOf (head ++ render regions.length gs)) = head ++ render regions.length gs := by
  rw [h.atomsOf_append (Outline.clean_respaced settings hmark hgs), render_append,
    h.render_atomsOf_head, render_shift]

/-- **Every region has one token**, in the text or in a region. -/
theorem perm_tokenNumbers :
    (tokenNumbers (head ++ render regions.length gs) ++
        (regions ++ (Outline.ofLine settings rest).regions.map (render regions.length)).flatMap
          tokenNumbers).Perm
      (List.range (regions ++ (Outline.ofLine settings rest).regions.map
        (render regions.length)).length) := by
  set o := Outline.ofLine settings rest with ho
  have hbullet : regions.flatMap tokenNumbers = [] :=
    List.flatMap_eq_nil_iff.mpr fun region hregion =>
      tokenNumbers_of_notMem (h.tokenMark_notMem_regions region hregion)
  have hspans : (o.regions.map (render regions.length)).flatMap tokenNumbers =
      (o.regions.flatMap holes).map (regions.length + ·) := by
    rw [List.flatMap_map, List.map_flatMap]
    refine List.flatMap_congr fun r hr => ?_
    rw [tokenNumbers, atomsOf_render _ (Outline.insertable settings hmark r hr).clean, holes_shift]
  rw [h.tokenNumbers_eq settings hmark hgs, ← ho, List.flatMap_append, hbullet, List.nil_append,
    hspans, List.append_assoc, ← List.map_append, List.length_append, List.length_map,
    List.range_add]
  exact ((Outline.perm_holes settings rest).map _).append_left _

end Frame

/-- **A line is restored by writing its tokens out from left to right**, before a stage has scanned it
and afterwards, if no digits stand between two regions. The tokens are those of all regions, each one
once and in the same order as before, so there is no harm in leaving a line alone that the scan did not
change. -/
theorem Protected.restore_scanned (stage : Stage) (settings : Settings) (line : Bytes)
    (hmark : tokenMark ∉ line) (hvalid : Utf8.isValid line = true)
    (hapart : ∀ t ∈ (ofLine settings line).text :: (ofLine settings line).regions,
      digitsBetween t = false) :
    let p := ofLine settings line
    let scanned := Scan.line stage settings p.text
    restore p.regions p.text = line ∧
      writeOut (fullTexts p.regions) p.text = line ∧
      (∀ i, expand? p.regions i = (fullTexts p.regions)[i]?) ∧
      restore p.regions scanned = writeOut (fullTexts p.regions) scanned ∧
      render 0 (atomsOf scanned) = scanned ∧
      tokenNumbers scanned = tokenNumbers p.text ∧
      (tokenNumbers scanned ++ p.regions.flatMap tokenNumbers).Perm (List.range p.regions.length) ∧
      stage.onLine settings line = restore p.regions scanned := by
  obtain ⟨head, front, regions, rest, gs, h⟩ := exists_passage_of_isValid stage settings hmark hvalid
  have hline : Apart settings line :=
    apart_of_digitsBetween hmark fun t ht => by rw [hapart t ht]; decide
  have hrest : Apart settings rest := by
    rw [h.line_eq] at hline
    exact (h.frame.apart_iff settings).mp hline
  have hfill : front ++ (Outline.ofLine settings rest).fill (Outline.ofLine settings rest).atoms =
      line := by
    rw [Outline.fill_atoms, h.line_eq]
  have hsame : Respaced (Outline.ofLine settings rest).atoms (Outline.ofLine settings rest).atoms :=
    .refl _
  -- Restoring and writing out both fill the holes of the outline, whatever blanks have come and gone.
  intro p scanned
  simp only [p, scanned, h.scan_text, h.ofLine_eq]
  refine ⟨?_, ?_, ?_, ?_, ?_, ?_, ?_, ?_⟩
  · rw [h.frame.restore_eq_fill settings h.mark hrest hsame, hfill]
  · rw [h.frame.writeOut_eq settings h.mark hsame, hfill]
  · exact h.frame.expand?_eq_fullTexts settings h.mark hrest.maths
  · rw [h.frame.restore_eq_fill settings h.mark hrest h.respaced,
      h.frame.writeOut_eq settings h.mark h.respaced]
  · exact h.frame.render_atomsOf_eq settings h.mark h.respaced
  · rw [h.frame.tokenNumbers_eq settings h.mark h.respaced,
      h.frame.tokenNumbers_eq settings h.mark hsame]
  · exact h.frame.perm_tokenNumbers settings h.mark h.respaced
  · rw [h.frame.restore_eq_fill settings h.mark hrest h.respaced, h.onLine_eq_fill hline]

/-- A bullet, and bold text with code, a digit and math that holds code. Taking the padding away leaves the
token of the inner code where it is, in the region of the math. -/
theorem Protected.restore_scanned_nested :
    restore (ofLine .standard (bytes "* ** `b*` 1 $x `c`$ **글")).regions
        (Scan.line .trim .standard (ofLine .standard (bytes "* ** `b*` 1 $x `c`$ **글")).text) =
      bytes "* **`b*` 1 $x `c`$**글" ∧
    tokenNumbers
        (Scan.line .trim .standard (ofLine .standard (bytes "* ** `b*` 1 $x `c`$ **글")).text) =
      [0, 1, 3] := by
  obtain ⟨-, -, -, hrestore, -, hnumbers, -⟩ := restore_scanned .trim .standard
    (bytes "* ** `b*` 1 $x `c`$ **글") (by decide +kernel) (by decide +kernel) (by decide +kernel)
  exact ⟨hrestore.trans (by decide +kernel), hnumbers.trans (by decide +kernel)⟩

end EmphasisSpacing
