import EmphasisSpacing.Proofs.Bullet
import EmphasisSpacing.Proofs.OpenMarkers
import EmphasisSpacing.Proofs.PairedRuns
import EmphasisSpacing.Proofs.Visible

/-!
# A leading star that is no bullet

A star at the start of a line, with a blank behind it, is a bullet unless the line reads as an italic
span with padding. This is decided by the last star of the line, without its code and its math, and by
the number of lone stars; how the stars are paired is found out later, by a stack that knows markers of
all widths.

`Scan.leading_star_closes_iff` says when the two agree. The last run of the protected line is then a
lone star, so that the leading star finds its partner unless a marker of two or three stars stays open
above it. Two things are needed for it: the leading star is no bullet, and no code stands between dollar
signs, where the line without its code has other math than the protected line.
-/

namespace EmphasisSpacing

open Atom

/-! ### The end of the line -/

/-- A text with a padded star at its end, blanks not counted. -/
theorem exists_of_endsWithPaddedStar {s : Bytes}
    (h : endsWithPaddedStar (trimBlanksRight s).reverse = true) :
    ∃ u b blanks, Bytes.isBlank b = true ∧ (∀ x ∈ blanks, Bytes.isBlank x = true) ∧
      s = u ++ b :: Bytes.star :: blanks := by
  have hs := List.takeWhile_append_dropWhile (p := Bytes.isBlank) (l := s.reverse)
  rw [trimBlanksRight, List.reverse_reverse] at h
  cases hend : s.reverse.dropWhile Bytes.isBlank with
  | nil =>
    rw [hend] at h
    cases h
  | cons a t =>
    cases t with
    | nil =>
      rw [hend] at h
      cases h
    | cons b t =>
      rw [hend, endsWithPaddedStar, Bool.and_eq_true, beq_iff_eq] at h
      obtain ⟨rfl, hb⟩ := h
      refine ⟨t.reverse, b, (s.reverse.takeWhile Bytes.isBlank).reverse, hb, fun x hx => ?_, ?_⟩
      · exact List.mem_takeWhile_imp (List.mem_reverse.mp hx)
      · rw [hend] at hs
        simpa using (congrArg List.reverse hs).symm

/-- The decision on a leading star looks at the line without its code and its math. -/
theorem endsWithPaddedStar_of_wrapsInItalics {rest : Bytes} (h : wrapsInItalics rest = true) :
    endsWithPaddedStar (trimBlanksRight (dropRanges 0 (mathSpans (dropRanges 0 (codeSpans rest) rest))
      (dropRanges 0 (codeSpans rest) rest))).reverse = true := by
  cases rest with
  | nil => cases h
  | cons a rest =>
    cases rest with
    | nil => cases h
    | cons b rest =>
      rw [wrapsInItalics] at h
      split_ifs at h
      exact (Bool.and_eq_true_iff.mp h).1

theorem lt_and_ne_star_of_isBlank {x : UInt8} (hx : Bytes.isBlank x = true) :
    x < 0x80 ∧ x ≠ Bytes.star := by
  refine ⟨Utf8.lt_of_isBlank hx, ?_⟩
  rintro rfl
  cases hx

section

variable {as : List Atom}

/-- Where nothing is visible there are holes only. -/
theorem exists_hole_of_visible_eq_nil (h : visible as = []) : ∀ a ∈ as, ∃ k, a = .hole k := by
  intro a ha
  cases a with
  | hole k => exact ⟨k, rfl⟩
  | byte b =>
    have hb := List.filterMap_eq_nil_iff.mp h (.byte b) ha
    cases hb

/-- Behind its last visible byte a line goes on with tokens, so it ends with this byte or with the end
of a token. -/
theorem exists_last_of_visible {u : Bytes} {b : UInt8} (h : visible as = u ++ [b]) :
    ∃ t x, render 0 as = t ++ [x] ∧ (x = b ∨ x = tokenMark) := by
  obtain ⟨before, behind, rfl, -, hbehind⟩ := exists_of_visible_eq h
  rcases List.eq_nil_or_concat' behind with rfl | ⟨more, a, rfl⟩
  · exact ⟨render 0 before, b, by simp, .inl rfl⟩
  · obtain ⟨k, rfl⟩ := exists_hole_of_visible_eq_nil hbehind a (by simp)
    refine ⟨render 0 (before ++ .byte b :: more) ++ tokenMark :: Integer.ofNat (0 + k), tokenMark, ?_,
      .inr rfl⟩
    simp [token]

/-- Where only blanks are visible, a line holds no star. -/
theorem notMem_render_of_visible (h : ∀ x ∈ visible as, Bytes.isBlank x = true) :
    ∀ x ∈ render 0 as, x < 0x80 ∧ x ≠ Bytes.star := by
  intro x hx
  obtain ⟨a, ha, hx⟩ := List.mem_flatMap.mp hx
  cases a with
  | hole k =>
    refine ⟨lt_of_mem_token hx, fun hstar => ?_⟩
    rw [hstar] at hx
    exact notMem_token (by decide) _ hx
  | byte b =>
    obtain rfl : x = b := List.mem_singleton.mp hx
    exact lt_and_ne_star_of_isBlank (h x (List.mem_filterMap.mpr ⟨.byte x, ha, rfl⟩))

end

/-! ### The first and the last run -/

namespace Scan

/-- What is no star keeps the pieces on its two sides apart. -/
theorem pieces_append_cons {x : Char} (hx : x ≠ '*') (u v : List Char) :
    pieces (u ++ x :: v) = pieces u ++ .char x :: pieces v := by
  induction u with
  | nil => exact pieces_cons_char hx v
  | cons c u ih =>
    rw [List.cons_append, pieces, pieces, ih]
    by_cases hc : c = '*'
    · subst hc
      cases pieces u with
      | nil => rfl
      | cons p ps => cases p <;> rfl
    · unfold pushPiece
      rw [if_neg (by simpa using hc), if_neg (by simpa using hc), List.cons_append]

theorem exists_runsFrom_append (i : Nat) (ps qs : List Piece) :
    ∃ j, runsFrom i (ps ++ qs) = runsFrom i ps ++ runsFrom j qs := by
  induction ps generalizing i with
  | nil => exact ⟨i, rfl⟩
  | cons p ps ih =>
    cases p with
    | char c => exact ih (i + 1)
    | stars n =>
      obtain ⟨j, hj⟩ := ih (i + n)
      refine ⟨j, ?_⟩
      rw [List.cons_append, runsFrom, runsFrom, hj, List.cons_append]

theorem runsFrom_pieces_append {w : List Char} (hw : '*' ∉ w) (i : Nat) (cs : List Char) :
    runsFrom i (pieces (w ++ cs)) = runsFrom (i + w.length) (pieces cs) := by
  induction w generalizing i with
  | nil => rfl
  | cons c w ih =>
    rw [List.mem_cons, not_or] at hw
    rw [List.cons_append, runsFrom_pieces_cons (Ne.symm hw.1), ih hw.2, List.length_cons,
      Nat.add_assoc, Nat.add_comm 1]

/-- A star between something else and a rest without stars is a run of its own, and the last one. -/
theorem exists_runsFrom_last {x : Char} (hx : x ≠ '*') {w : List Char} (hw : '*' ∉ w) (i : Nat)
    (u : List Char) :
    ∃ front j, runsFrom i (pieces (u ++ x :: '*' :: w)) = front ++ [⟨j, 1⟩] := by
  have hlone : ∀ j, runsFrom j (.char x :: pieces ('*' :: w)) = [⟨j + 1, 1⟩] := by
    intro j
    rw [runsFrom]
    cases w with
    | nil => rfl
    | cons d w =>
      have hd : d ≠ '*' := fun hd => hw (by rw [hd]; exact List.mem_cons_self ..)
      have hrest := runsFrom_pieces_append hw (j + 1 + 1) []
      rw [List.append_nil] at hrest
      rw [runsFrom_pieces_star hd, hrest]
      rfl
  obtain ⟨j, hj⟩ := exists_runsFrom_append i (pieces u) (.char x :: pieces ('*' :: w))
  rw [pieces_append_cons hx, hj, hlone]
  exact ⟨_, _, rfl⟩

/-- Runs are not empty. -/
theorem width_pos_of_mem_runsFrom {cs : List Char} {i : Nat} {r : StarRun}
    (h : r ∈ runsFrom i (pieces cs)) : 0 < r.width := by
  induction cs generalizing i with
  | nil => cases h
  | cons c cs ih =>
    by_cases hc : c = '*'
    · subst hc
      cases cs with
      | nil =>
        rw [List.mem_singleton.mp h]
        exact Nat.one_pos
      | cons d cs =>
        by_cases hd : d = '*'
        · -- The run is one star longer than without this star.
          subst hd
          obtain ⟨n, later, hshort, hlong⟩ := exists_runsFrom_pieces i cs
          rw [hlong] at h
          rcases List.mem_cons.mp h with rfl | h
          · exact Nat.succ_pos n
          · have hmem : r ∈ runsFrom (i + 1) (pieces ('*' :: cs)) := by
              rw [hshort]
              exact List.mem_cons_of_mem _ h
            exact ih hmem
        · -- The star is a run of its own.
          rw [runsFrom_pieces_star hd] at h
          rcases List.mem_cons.mp h with rfl | h
          · exact Nat.one_pos
          · exact ih h
    · rw [runsFrom_pieces_cons hc] at h
      exact ih h

theorem pairwise_start (line : List Char) :
    ((runsFrom 0 (pieces line)).filter fun r => decide (r.width ≤ maxWidth)).Pairwise
      fun a b => a.start < b.start := by
  refine (pairwise_markers line).imp_of_mem fun {a b} ha _ hab => ?_
  have hpos := width_pos_of_mem_runsFrom (List.mem_of_mem_filter ha)
  rw [StarRun.stop] at hab
  omega

/-! ### The leading star -/

section

variable {settings : Settings} {indent rest : Bytes} {b : UInt8}

/-- A leading star and the blanks in front of it belong to no code and no math. -/
theorem ignores_leading_star (hindent : ∀ x ∈ indent, Bytes.isBlank x = true) (d : Delimiter) :
    ∀ x ∈ indent ++ [Bytes.star], d.Ignores x := by
  intro x hx
  rcases List.mem_append.mp hx with hx | hx
  · exact d.ignores_of_isBlank (hindent x hx)
  · rw [List.mem_singleton.mp hx]
    exact d.ignores_star

/-- What stands behind the leading star of a protected line ends with a star of its own. -/
theorem exists_render_of_wrapsInItalics (hskip : settings.skipInlineCode = true)
    (hwraps : wrapsInItalics rest = true)
    (hcode : ¬ JoinsDollars (Outline.cutCode settings (Atom.plain rest)).1) :
    ∃ t x w, render 0 (Outline.ofLine settings rest).atoms = t ++ x :: Bytes.star :: w ∧
      (x < 0x80 ∧ x ≠ Bytes.star) ∧ ∀ y ∈ w, y < 0x80 ∧ y ≠ Bytes.star := by
  obtain ⟨u, c, blanks, hc, hblanks, hend⟩ :=
    exists_of_endsWithPaddedStar (endsWithPaddedStar_of_wrapsInItalics hwraps)
  rw [dropRanges_outline hskip hcode, List.append_cons] at hend
  obtain ⟨before, behind, hatoms, hbefore, hbehind⟩ := exists_of_visible_eq hend
  obtain ⟨t, x, hrender, hx⟩ := exists_last_of_visible hbefore
  refine ⟨t, x, render 0 behind, ?_, ?_, notMem_render_of_visible (by rwa [hbehind])⟩
  · rw [hatoms, render_append, hrender, render_cons, List.append_assoc]
    rfl
  · rcases hx with rfl | rfl
    · exact lt_and_ne_star_of_isBlank hc
    · decide

/-- ASCII bytes without a star are characters without a star. -/
theorem star_notMem_chars {w : Bytes} (hw : ∀ x ∈ w, x < 0x80 ∧ x ≠ Bytes.star) :
    '*' ∉ w.map fun x => Char.ofNat x.toNat := by
  intro hmem
  obtain ⟨x, hx, hstar⟩ := List.mem_map.mp hmem
  exact Utf8.ofNat_ne_star (hw x hx).1 (hw x hx).2 hstar

/-- The protected line behind a leading star that is no bullet. -/
theorem text_of_leading_star (settings : Settings) (hindent : ∀ x ∈ indent, Bytes.isBlank x = true)
    (hbullet : bulletLength (indent ++ Bytes.star :: rest) = 0) :
    (Protected.ofLine settings (indent ++ Bytes.star :: rest)).text =
      indent ++ Bytes.star :: render 0 (Outline.ofLine settings rest).atoms := by
  have htext : (Protected.ofLine settings (indent ++ Bytes.star :: rest)).text =
      render 0 (Outline.ofLine settings (indent ++ Bytes.star :: rest)).atoms :=
    congrArg Protected.text (Frame.bare.ofLine_eq settings hbullet)
  have hline : indent ++ Bytes.star :: rest = indent ++ [Bytes.star] ++ rest := List.append_cons ..
  rw [htext, hline, Outline.ofLine_append settings (ignores_leading_star hindent) rest]
  simp

/-- A leading star that is no bullet and the last star of its line are runs of their own, one at each
end of the protected line. -/
theorem exists_runs_of_leading_star (hskip : settings.skipInlineCode = true)
    (hindent : ∀ x ∈ indent, Bytes.isBlank x = true) (hb : Bytes.isBlank b = true)
    (hbullet : bulletLength (indent ++ Bytes.star :: b :: rest) = 0)
    (hcode : ¬ JoinsDollars
      (Outline.cutCode settings (Atom.plain (indent ++ Bytes.star :: b :: rest))).1) :
    ∃ mid j, runsFrom 0 (pieces (Utf8.decode
      (Protected.ofLine settings (indent ++ Bytes.star :: b :: rest)).text)) =
        ⟨indent.length, 1⟩ :: (mid ++ [⟨j, 1⟩]) := by
  have hblank := lt_and_ne_star_of_isBlank hb
  have hwraps : wrapsInItalics (b :: rest) = true := by
    rw [bulletLength_star hindent hb] at hbullet
    by_contra hwraps
    rw [if_neg hwraps] at hbullet
    cases hbullet
  have hcode' : ¬ JoinsDollars (Outline.cutCode settings (Atom.plain (b :: rest))).1 := by
    intro hjoins
    refine hcode ?_
    rw [List.append_cons, plain_append, Outline.cutCode, if_pos hskip,
      cut_append (ignores_leading_star hindent .code)]
    rw [Outline.cutCode, if_pos hskip] at hjoins
    exact hjoins.append _
  obtain ⟨t, x, w, hrender, hx, hw⟩ := exists_render_of_wrapsInItalics hskip hwraps hcode'
  -- The text behind the leading star, told from its start and from its end.
  obtain ⟨t', hhead⟩ : ∃ t', render 0 (Outline.ofLine settings (b :: rest)).atoms = b :: t' := by
    have hignores : ∀ d : Delimiter, ∀ x ∈ [b], d.Ignores x := by
      intro d x hx
      rw [List.mem_singleton.mp hx]
      exact d.ignores_of_isBlank hb
    refine ⟨render 0 (Outline.ofLine settings rest).atoms, ?_⟩
    rw [show b :: rest = [b] ++ rest from rfl, Outline.ofLine_append settings hignores rest]
    rfl
  have hstart : Utf8.decode (b :: t') = Char.ofNat b.toNat :: Utf8.decode t' :=
    Utf8.decode_cons hblank.1 t'
  have hend : Utf8.decode (b :: t') =
      Utf8.decode t ++ Char.ofNat x.toNat :: '*' :: w.map fun y => Char.ofNat y.toNat := by
    have hchars : Utf8.decode w = w.map fun y => Char.ofNat y.toNat := by
      have h := decode_append (fun y hy => (hw y hy).1) []
      rwa [List.append_nil, show Utf8.decode [] = [] from rfl, List.append_nil] at h
    rw [← hhead, hrender, Utf8.decode_seam hx.1, Utf8.decode_cons (by decide), hchars]
    rfl
  have hindent' : '*' ∉ indent.map fun x => Char.ofNat x.toNat :=
    star_notMem_chars fun x hx => lt_and_ne_star_of_isBlank (hindent x hx)
  have hruns : runsFrom 0 (pieces (Utf8.decode
      (Protected.ofLine settings (indent ++ Bytes.star :: b :: rest)).text)) =
        ⟨indent.length, 1⟩ :: runsFrom (indent.length + 1) (pieces (Utf8.decode (b :: t'))) := by
    rw [text_of_leading_star settings hindent hbullet, hhead,
      decode_append fun x hx => Utf8.lt_of_isBlank (hindent x hx), Utf8.decode_cons (by decide), hstart,
      runsFrom_pieces_append hindent']
    have hchar : Char.ofNat b.toNat ≠ '*' := Utf8.ofNat_ne_star hblank.1 hblank.2
    rw [Nat.zero_add, List.length_map]
    exact runsFrom_pieces_star hchar indent.length _
  obtain ⟨mid, j, hmid⟩ := exists_runsFrom_last (Utf8.ofNat_ne_star hx.1 hx.2) (star_notMem_chars hw)
    (indent.length + 1) (Utf8.decode t)
  refine ⟨mid, j, ?_⟩
  rw [hruns, hend, hmid]

end

/-- **When a leading star that is no bullet is closed.** Let no code stand directly between a dollar sign
or a backslash and a dollar sign. Then the star is a run of its own in the protected line, and a lone
star behind it closes it exactly if every run of two or three stars belongs to a span, those behind the
closing star left out. -/
theorem leading_star_closes_iff {settings : Settings} (hskip : settings.skipInlineCode = true)
    {indent rest : Bytes} {b : UInt8} (hindent : ∀ x ∈ indent, Bytes.isBlank x = true)
    (hb : Bytes.isBlank b = true)
    (hbullet : bulletLength (indent ++ Bytes.star :: b :: rest) = 0)
    (hcode : ¬ JoinsDollars
      (Outline.cutCode settings (Atom.plain (indent ++ Bytes.star :: b :: rest))).1) :
    let line := Utf8.decode (Protected.ofLine settings (indent ++ Bytes.star :: b :: rest)).text
    let star : StarRun := ⟨indent.length, 1⟩
    star ∈ runsFrom 0 (pieces line) ∧
      ((∃ closer, closer.width = 1 ∧ star.stop ≤ closer.start ∧ (star, closer) ∈ trimPairs line) ↔
        ∀ r ∈ runsFrom 0 (pieces line), r.width = 2 ∨ r.width = 3 →
          (∀ closer, (star, closer) ∈ trimPairs line → r.start < closer.start) →
          ∃ pair ∈ trimPairs line, r = pair.1 ∨ r = pair.2) := by
  intro line star
  obtain ⟨mid, j, hruns⟩ := exists_runs_of_leading_star hskip hindent hb hbullet hcode
  have hmarkers : (runsFrom 0 (pieces line)).filter (fun r => decide (r.width ≤ maxWidth)) =
      star :: (mid.filter (fun r => decide (r.width ≤ maxWidth)) ++ [⟨j, 1⟩]) := by
    rw [hruns, List.filter_cons_of_pos rfl, List.filter_append]
    rfl
  have hordered := pairwise_start line
  have hpairs := trimPairs_eq line
  rw [hmarkers] at hordered hpairs
  have hcloser : (∃ closer, closer.width = 1 ∧ star.stop ≤ closer.start ∧
      (star, closer) ∈ trimPairs line) ↔ ∃ closer, (star, closer) ∈ trimPairs line := by
    refine exists_congr fun closer => ⟨fun h => h.2.2, fun h => ?_⟩
    obtain ⟨hwidth, hbehind⟩ := of_mem_trimPairs h
    exact ⟨hwidth.symm, hbehind, h⟩
  refine ⟨by rw [hruns]; exact List.mem_cons_self .., hcloser.trans ?_⟩
  rw [hpairs]
  refine (Hint.exists_closer_iff (fun a b hab => by omega) hordered rfl).trans ?_
  rw [← hmarkers]
  refine forall_congr' fun r => ⟨fun h hr hwidth => ?_, fun h hr hne => ?_⟩
  · have hwide : r.width ≤ maxWidth := by
      unfold maxWidth
      omega
    refine h (List.mem_filter.mpr ⟨hr, decide_eq_true hwide⟩) ?_
    show r.width ≠ 1
    omega
  · obtain ⟨hr, hwide⟩ := List.mem_filter.mp hr
    have hpos := width_pos_of_mem_runsFrom hr
    have hwide : r.width ≤ 3 := of_decide_eq_true hwide
    have hne : r.width ≠ 1 := hne
    exact h hr (by omega)

/-- Bold text in the span is a span of its own, and the star in the code does not count. -/
theorem leading_star_closes_around_bold :
    bulletLength (Bytes.star :: 0x20 :: bytes " a `x*y` **b** c *") = 0 ∧
      ∃ closer, closer.width = 1 ∧ StarRun.stop ⟨0, 1⟩ ≤ closer.start ∧
        (⟨0, 1⟩, closer) ∈ trimPairs (Utf8.decode (Protected.ofLine .standard
          (Bytes.star :: 0x20 :: bytes " a `x*y` **b** c *")).text) := by
  have hskip : Settings.standard.skipInlineCode = true := rfl
  have hbullet : bulletLength ([] ++ Bytes.star :: 0x20 :: bytes " a `x*y` **b** c *") = 0 := by
    decide +kernel
  have hcode : ¬ JoinsDollars (Outline.cutCode .standard
      (Atom.plain ([] ++ Bytes.star :: 0x20 :: bytes " a `x*y` **b** c *"))).1 := by
    rintro ⟨front, x, ks, rest, hatoms, -, -⟩
    have hdollar : Atom.byte Bytes.dollar ∉ (Outline.cutCode .standard
        (Atom.plain ([] ++ Bytes.star :: 0x20 :: bytes " a `x*y` **b** c *"))).1 := by decide +kernel
    exact hdollar (by rw [hatoms]; simp)
  refine ⟨hbullet, (leading_star_closes_iff hskip (by simp) rfl hbullet hcode).2.mpr ?_⟩
  have hpaired : ∀ r ∈ runsFrom 0 (pieces (Utf8.decode (Protected.ofLine .standard
      ([] ++ Bytes.star :: 0x20 :: bytes " a `x*y` **b** c *")).text)), r.width = 2 ∨ r.width = 3 →
        ∃ pair ∈ trimPairs (Utf8.decode (Protected.ofLine .standard
          ([] ++ Bytes.star :: 0x20 :: bytes " a `x*y` **b** c *")).text), r = pair.1 ∨ r = pair.2 := by
    decide +kernel
  exact fun r hr hwidth _ => hpaired r hr hwidth

/-- Two leading stars that are no bullets and that nothing closes, though the blanks behind them are
dropped: one below a marker of two stars that stays open, and one in a line with code between dollar
signs, where the star at the end turns out to be in math. -/
theorem leading_star_left_open :
    (bulletLength (bytes "*  a ** b *") = 0 ∧
      trimPairs (Utf8.decode (Protected.ofLine .standard (bytes "*  a ** b *")).text) = [] ∧
      Stage.onLine .trim .standard (bytes "*  a ** b *") = bytes "*a **b *") ∧
    (bulletLength (bytes "*  $`x`$ b $ * $c$") = 0 ∧
      trimPairs (Utf8.decode (Protected.ofLine .standard (bytes "*  $`x`$ b $ * $c$")).text) = [] ∧
      Stage.onLine .trim .standard (bytes "*  $`x`$ b $ * $c$") = bytes "*$`x`$ b $ * $c$") := by
  decide +kernel

end Scan

end EmphasisSpacing
