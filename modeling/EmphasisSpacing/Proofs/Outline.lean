import Mathlib.Data.List.GetD
import EmphasisSpacing.Proofs.Cut

/-!
# The outline of a line

The outline of a line is the line with a hole for every code span and every math span, together with
the spans. It is what protecting a line computes, less the bullet: a bullet only puts a token in
front and moves the other numbers by one (`Frame.ofLine_eq`).

The outline is a faithful view of the line: filling the holes gives the line back, and when blanks
come and go next to the stars of the outline, the line that is then filled has just this outline
with the same spans (`Outline.ofLine_fill`). So a line that was formatted is protected in the same
way again.
-/

namespace EmphasisSpacing

open LineSymbol Atom Delimiter

/-- A line with holes for its code and its math. -/
structure Outline where
  /-- The line with holes. -/
  atoms : List Atom
  /-- The code spans; the holes for them have the numbers from 0. -/
  codes : List (List Atom)
  /-- The math spans, which may hold holes for code; the holes for them have the next numbers. -/
  maths : List (List Atom)
  deriving DecidableEq, Repr

/-- What the holes of spans numbered from `n` stand for. Other holes stand for themselves. -/
def spanAt (n : Nat) (spans : List (List Atom)) (k : Nat) : List Atom :=
  if k < n then [.hole k] else spans.getD (k - n) [.hole k]

namespace Outline

/-- The line with holes for its code, if that is to be left alone. -/
def cutCode (settings : Settings) (as : List Atom) : List Atom × List (List Atom) :=
  if settings.skipInlineCode then cut .code 0 none false as else (as, [])

/-- The outline of a line. -/
def ofLine (settings : Settings) (line : Bytes) : Outline :=
  let code := cutCode settings (plain line)
  let math := cut .math code.2.length none false code.1
  ⟨math.1, code.2, math.2⟩

/-- All regions in the order of their numbers. -/
def regions (o : Outline) : List (List Atom) := o.codes ++ o.maths

/-- The atoms with the math put back. -/
def fillMath (o : Outline) (as : List Atom) : List Atom := plug (spanAt o.codes.length o.maths) as

/-- The atoms with the code put back. -/
def fillCode (o : Outline) (as : List Atom) : List Atom := plug (spanAt 0 o.codes) as

/-- The line that the atoms stand for. -/
def fill (o : Outline) (as : List Atom) : Bytes := render 0 (o.fillCode (o.fillMath as))

end Outline

/-! ### Spans and their numbers -/

theorem spanAt_of_lt {n k : Nat} (h : k < n) (spans : List (List Atom)) :
    spanAt n spans k = [.hole k] := by
  rw [spanAt, if_pos h]

theorem map_spanAt (n : Nat) (spans : List (List Atom)) :
    (List.range' n spans.length).map (spanAt n spans) = spans := by
  refine List.ext_getElem (by simp) fun i hi hi' => ?_
  rw [List.getElem_map, List.getElem_range', spanAt, if_neg (by omega)]
  simp [hi']

theorem spanAt_nil (k : Nat) : spanAt 0 [] k = [.hole k] := by
  simp [spanAt]

/-- A hole stands for a span or for itself. -/
theorem spanAt_eq_or_mem (n : Nat) (spans : List (List Atom)) (k : Nat) :
    spanAt n spans k = [.hole k] ∨ spanAt n spans k ∈ spans := by
  by_cases hk : k < n
  · exact .inl (spanAt_of_lt hk spans)
  · rw [spanAt, if_neg hk]
    by_cases hlen : k - n < spans.length
    · right
      rw [List.getD_eq_getElem _ _ hlen]
      exact List.getElem_mem hlen
    · left
      rw [List.getD_eq_default _ _ (by omega)]

theorem plug_hole_self (as : List Atom) : plug (fun k => [.hole k]) as = as := by
  induction as with
  | nil => rfl
  | cons a as ih => cases a <;> simp [ih]

/-- A span shows its delimiters to both sides. -/
theorem Delimiter.IsSpan.sides {d : Delimiter} {m : Nat} {body : List Atom} (h : d.IsSpan m body) :
    ∃ x t, body = x :: t ∧ isStar x = false ∧ isBlank x = false ∧ starsBehind (x :: t) = false := by
  obtain ⟨mid, -, rfl, -⟩ := h
  refine ⟨_, _, rfl, ?_, ?_, ?_⟩
  · cases d <;> rfl
  · cases d <;> rfl
  · rw [← List.cons_append, starsBehind_concat]
    cases d <;> rfl

/-- Filling the holes of spans is a spelling. -/
theorem spelling_plug {d : Delimiter} {m n : Nat} {spans : List (List Atom)}
    (hspans : ∀ body ∈ spans, d.IsSpan m body) :
    Spelling fun a : Atom => plug (spanAt n spans) [a] where
  star a ha := by
    cases a with
    | byte b => exact ⟨.byte b, rfl, ha⟩
    | hole k => cases ha
  blank a ha := by
    cases a with
    | byte b => exact ⟨.byte b, rfl, ha⟩
    | hole k => cases ha
  solid a hstar hblank := by
    cases a with
    | byte b => exact ⟨.byte b, [], rfl, hstar, hblank, hstar⟩
    | hole k =>
      rw [plug_hole, plug_nil, List.append_nil]
      rcases spanAt_eq_or_mem n spans k with hk | hk
      · exact ⟨.hole k, [], hk, rfl, rfl, rfl⟩
      · exact (hspans _ hk).sides

theorem plug_eq_flatMap (f : Nat → List Atom) (as : List Atom) :
    plug f as = as.flatMap fun a => plug f [a] := by
  induction as with
  | nil => rfl
  | cons a as ih =>
    rw [List.flatMap_cons, ← ih]
    exact plug_append f [a] as

/-- Writing tokens is a spelling. -/
theorem spelling_bytes (base : Nat) : Spelling (Atom.bytes base) where
  star a ha := by
    cases a with
    | byte b => exact ⟨b, rfl, ha⟩
    | hole k => cases ha
  blank a ha := by
    cases a with
    | byte b => exact ⟨b, rfl, ha⟩
    | hole k => cases ha
  solid a hstar hblank := by
    cases a with
    | byte b => exact ⟨b, [], rfl, hstar, hblank, hstar⟩
    | hole k =>
      refine ⟨tokenMark, Integer.ofNat (base + k) ++ [tokenMark], rfl, rfl, rfl, ?_⟩
      rw [← List.cons_append, starsBehind_concat]
      rfl

theorem respaced_plug_spanAt {d : Delimiter} {m n : Nat} {spans : List (List Atom)}
    (hspans : ∀ body ∈ spans, d.IsSpan m body) {as bs : List Atom} (h : Respaced as bs) :
    Respaced (plug (spanAt n spans) as) (plug (spanAt n spans) bs) := by
  rw [plug_eq_flatMap, plug_eq_flatMap _ bs]
  exact h.flatMap (spelling_plug hspans)

theorem respaced_render (base : Nat) {as bs : List Atom} (h : Respaced as bs) :
    Respaced (render base as) (render base bs) :=
  h.flatMap (spelling_bytes base)

/-- Without holes, atoms are just bytes. -/
theorem plain_render {as : List Atom} (h : holes as = []) (base : Nat) :
    plain (render base as) = as := by
  induction as with
  | nil => rfl
  | cons a as ih =>
    cases a with
    | byte b => simpa [plain] using ih h
    | hole k => simp at h

theorem render_eq_render {as : List Atom} (h : holes as = []) (base base' : Nat) :
    render base as = render base' as := by
  conv_rhs => rw [← plain_render h base, render_plain]

/-! ### What a cut gives, in terms of the spans' numbers -/

section

variable {d : Delimiter} {n : Nat} {as : List Atom}

/-- Cutting and filling. -/
theorem plug_spanAt_cut (has : ∀ a ∈ as, a.isNew n = false) :
    plug (spanAt n (cut d n none false as).2) (cut d n none false as).1 = as :=
  plug_cut (fun _ hk => spanAt_of_lt hk _) has rfl (map_spanAt n _)

/-- Filling and cutting: what a cut leaves may be respaced in between. -/
theorem cut_plug_spanAt (has : ∀ a ∈ as, a.isNew n = false) {bs : List Atom}
    (h : Respaced (cut d n none false as).1 bs) :
    cut d n none false (plug (spanAt n (cut d n none false as).2) bs) =
      (bs, (cut d n none false as).2) := by
  have hholes : newHoles n bs = List.range' n (cut d n none false as).2.length := by
    rw [← newHoles_cut (Nat.le_refl n) has rfl, newHoles, newHoles, holes_respaced h]
  have hlen : (newHoles n bs).length = (cut d n none false as).2.length := by
    rw [hholes, List.length_range']
  have hwalk : (d.walk n (.idle, false) bs).isSome = true := by
    rw [← walk_respaced h]
    exact walk_cut (Nat.le_refl n) has pends_none rfl
  have hspans : ∀ k ∈ newHoles n bs, d.IsSpan n (spanAt n (cut d n none false as).2 k) := by
    intro k hk
    rw [hholes] at hk
    have hmem := List.mem_map_of_mem (f := spanAt n (cut d n none false as).2) hk
    rw [map_spanAt] at hmem
    exact isSpan_of_mem_cut has pends_none _ hmem
  rw [cut_plug (fun _ hk => spanAt_of_lt hk _) n none false (by rw [hlen, ← hholes]) hspans hwalk,
    hholes, map_spanAt]
  rfl

end

/-! ### Filling an outline -/

namespace Outline

section

variable (settings : Settings) (line : Bytes)

theorem isNew_plain (m : Nat) (s : Bytes) : ∀ a ∈ plain s, a.isNew m = false := by
  intro a ha
  obtain ⟨b, -, rfl⟩ := List.mem_map.mp ha
  rfl

/-- The code holes in front of the math are numbered from 0. -/
theorem holes_cutCode :
    holes (cutCode settings (plain line)).1 =
      List.range' 0 (cutCode settings (plain line)).2.length := by
  rw [cutCode]
  split_ifs
  · have hnew : newHoles 0 (cut .code 0 none false (plain line)).1 =
        List.range' 0 (cut .code 0 none false (plain line)).2.length :=
      newHoles_cut (Nat.le_refl 0) (isNew_plain 0 line) rfl
    rw [← hnew, newHoles_zero]
  · exact holes_plain line

theorem isNew_cutCode : ∀ a ∈ (cutCode settings (plain line)).1,
    a.isNew (cutCode settings (plain line)).2.length = false := by
  intro a ha
  cases a with
  | byte b => rfl
  | hole k =>
    have hk := mem_holes_iff.mpr ha
    rw [holes_cutCode, List.mem_range'_1] at hk
    simp only [Atom.isNew, decide_eq_false_iff_not]
    omega

/-- The numbers of all holes, in the outline and in its math, in the order of the line. -/
theorem newHoles_atoms :
    newHoles (ofLine settings line).codes.length (ofLine settings line).atoms =
      List.range' (ofLine settings line).codes.length (ofLine settings line).maths.length :=
  newHoles_cut (Nat.le_refl _) (isNew_cutCode settings line) rfl

theorem isSpan_of_mem_codes : ∀ body ∈ (ofLine settings line).codes, IsSpan .code 0 body := by
  intro body hbody
  rw [show (ofLine settings line).codes = (cutCode settings (plain line)).2 from rfl,
    cutCode] at hbody
  split_ifs at hbody
  · exact isSpan_of_mem_cut (isNew_plain 0 line) pends_none body hbody
  · cases hbody

/-- Code holds no holes. -/
theorem holes_of_mem_codes : ∀ body ∈ (ofLine settings line).codes, holes body = [] := by
  intro body hbody
  rw [← newHoles_zero]
  exact newHoles_eq_nil_iff.mpr (isSpan_of_mem_codes settings line body hbody).isNew

theorem isSpan_of_mem_maths : ∀ body ∈ (ofLine settings line).maths,
    IsSpan .math (ofLine settings line).codes.length body :=
  isSpan_of_mem_cut (isNew_cutCode settings line) pends_none

theorem fillMath_atoms :
    (ofLine settings line).fillMath (ofLine settings line).atoms =
      (cutCode settings (plain line)).1 :=
  plug_spanAt_cut (isNew_cutCode settings line)

theorem fillCode_cutCode :
    (ofLine settings line).fillCode (cutCode settings (plain line)).1 = plain line := by
  rw [fillCode, show (ofLine settings line).codes = (cutCode settings (plain line)).2 from rfl,
    cutCode]
  split_ifs
  · exact plug_spanAt_cut (isNew_plain 0 line)
  · rw [show spanAt 0 [] = fun k => [.hole k] from funext spanAt_nil, plug_hole_self]

/-- Filling the holes of an outline gives the line back. -/
theorem fill_atoms : (ofLine settings line).fill (ofLine settings line).atoms = line := by
  rw [fill, fillMath_atoms, fillCode_cutCode, render_plain]

end

section

variable {settings : Settings} {line : Bytes} {bs : List Atom}

theorem respaced_fillMath (h : Respaced (ofLine settings line).atoms bs) :
    Respaced (cutCode settings (plain line)).1 ((ofLine settings line).fillMath bs) := by
  rw [← fillMath_atoms]
  exact respaced_plug_spanAt (isSpan_of_mem_maths settings line) h

theorem respaced_fillCode (h : Respaced (ofLine settings line).atoms bs) :
    Respaced (plain line)
      ((ofLine settings line).fillCode ((ofLine settings line).fillMath bs)) := by
  rw [← fillCode_cutCode settings line]
  exact respaced_plug_spanAt (isSpan_of_mem_codes settings line) (respaced_fillMath h)

/-- Moving blanks in the outline moves blanks in the line. -/
theorem respaced_fill (h : Respaced (ofLine settings line).atoms bs) :
    Respaced line ((ofLine settings line).fill bs) := by
  have hline := respaced_render 0 (respaced_fillCode h)
  rwa [render_plain] at hline

/-- **A respaced line has the respaced outline.** No span is lost, and none is found anew. -/
theorem ofLine_fill (h : Respaced (ofLine settings line).atoms bs) :
    ofLine settings ((ofLine settings line).fill bs) =
      ⟨bs, (ofLine settings line).codes, (ofLine settings line).maths⟩ := by
  have hplain : plain ((ofLine settings line).fill bs) =
      (ofLine settings line).fillCode ((ofLine settings line).fillMath bs) := by
    refine plain_render ?_ 0
    rw [← holes_respaced (respaced_fillCode h), holes_plain]
  -- First the code spans are cut out of the line, and then the math spans out of what is left.
  have hcode : cutCode settings (plain ((ofLine settings line).fill bs)) =
      ((ofLine settings line).fillMath bs, (ofLine settings line).codes) := by
    have hmath := respaced_fillMath h
    rw [hplain, fillCode,
      show (ofLine settings line).codes = (cutCode settings (plain line)).2 from rfl]
    rw [cutCode] at hmath ⊢
    by_cases hskip : settings.skipInlineCode = true
    · have hcut : cutCode settings (plain line) = cut .code 0 none false (plain line) := by
        rw [cutCode, if_pos hskip]
      rw [if_pos hskip] at hmath
      rw [if_pos hskip, hcut]
      exact cut_plug_spanAt (isNew_plain 0 line) hmath
    · have hcut : cutCode settings (plain line) = (plain line, []) := by
        rw [cutCode, if_neg hskip]
      rw [if_neg hskip, hcut, show spanAt 0 [] = fun k => [.hole k] from funext spanAt_nil,
        plug_hole_self]
  rw [ofLine, hcode]
  dsimp only
  have hcut := cut_plug_spanAt (d := .math) (isNew_cutCode settings line) h
  rw [fillMath]
  rw [show (ofLine settings line).codes = (cutCode settings (plain line)).2 from rfl,
    show (ofLine settings line).maths =
      (cut .math (cutCode settings (plain line)).2.length none false
        (cutCode settings (plain line)).1).2 from rfl, hcut]

end

end Outline

end EmphasisSpacing
