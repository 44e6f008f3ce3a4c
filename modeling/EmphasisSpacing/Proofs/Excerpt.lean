import EmphasisSpacing.Proofs.Fitting

/-!
# What is shown of a line

A line that is too wide is shown around its marker: an end of what stands before the marker, the marker
itself, and a start of what stands after it. `Fit.parts_spec` says which end and which start, in terms of
cells and not of the two loops that look for them: all of it if there is room, and otherwise the longest
one that leaves a cell for the ellipsis.

Without escape sequences the cells of a text add up, so that a longer end or start never takes fewer of
them. That is all that the loop for ends needs (`Fit.keepRight_cons`); the one for starts is a law of the
ruler (`Ruler.Lawful.truncate_eq`).

**Huge numbers.** Two thirds of a limit are computed with 64 bits. From a quarter of their range on, the
double of the limit is taken for a negative number, there is no room at all for what stands before the
marker, and the ellipsis alone is shown for it (`Fit.fitPre_huge`). The end of a marker is computed with
64 bits too, and when it is taken for a negative number, there is no marker and no line
(`Fit.split_eq_none`).
-/

namespace EmphasisSpacing

/-! ### Ends and starts of a text -/

namespace Fit

/-- What is shown of a text at its end: all of it, or the ellipsis and the longest end that leaves a cell
for it. -/
def ShowsEnd (ruler : Ruler) (room : Int) (cs shown : List Char) : Prop :=
  if (ruler.count cs : Int) ≤ room then shown = cs
  else ∃ kept, IsLongest ruler.count (· <:+ cs) (room - 1) kept ∧ shown = Cells.ellipsis :: kept

/-- What is shown of a text at its start: all of it, or nothing, or a start and the ellipsis. Where there
is room for more than the ellipsis, it is the longest start that leaves a cell for it. -/
def ShowsStart (ruler : Ruler) (room : Int) (cs shown : List Char) : Prop :=
  if (ruler.count cs : Int) ≤ room then shown = cs
  else if room ≤ 0 then shown = []
  else ∃ kept, kept <+: cs ∧ shown = kept ++ [Cells.ellipsis] ∧
    if room = 1 then kept = [] else IsLongest ruler.count (· <+: cs) (room - 1) kept

variable {ruler : Ruler} {limit : Int} {cs : List Char}

/-- Without escape sequences, an end fits as soon as a longer one does. -/
theorem snd_keepRightFrom (hruler : ruler.Lawful) (hcs : Cells.escape ∉ cs) (hlimit : 0 ≤ limit) :
    (keepRightFrom ruler limit cs).2 = decide ((ruler.count cs : Int) ≤ limit) := by
  induction cs with
  | nil =>
    rw [hruler.count_nil]
    exact (decide_eq_true hlimit).symm
  | cons c cs ih =>
    rw [List.mem_cons, not_or] at hcs
    have hcount := hruler.count_cons (Ne.symm hcs.1) cs
    simp only [keepRightFrom, ih hcs.2]
    by_cases hfits : (ruler.count (c :: cs) : Int) ≤ limit
    · have hrest : (ruler.count cs : Int) ≤ limit := by omega
      simp [hfits, hrest]
    · simp [hfits]

theorem keepRight_cons (hruler : ruler.Lawful) {c : Char} (hcs : Cells.escape ∉ c :: cs)
    (hlimit : 0 ≤ limit) : keepRight ruler limit (c :: cs) =
      if (ruler.count (c :: cs) : Int) ≤ limit then c :: cs else keepRight ruler limit cs := by
  rw [List.mem_cons, not_or] at hcs
  have hcount := hruler.count_cons (Ne.symm hcs.1) cs
  unfold keepRight
  simp only [keepRightFrom, snd_keepRightFrom hruler hcs.2 hlimit]
  by_cases hfits : (ruler.count (c :: cs) : Int) ≤ limit
  · have hrest : (ruler.count cs : Int) ≤ limit := by omega
    simp [hfits, hrest]
  · simp [hfits]

/-- **Cutting at the left** keeps the longest end that fits. -/
theorem isLongest_keepRight (hruler : ruler.Lawful) (hcs : Cells.escape ∉ cs) (hlimit : 0 ≤ limit) :
    IsLongest ruler.count (· <:+ cs) limit (keepRight ruler limit cs) := by
  refine ⟨keepRight_isSuffix limit cs, ?_, ?_⟩
  · have hfits := count_keepRight_le hruler limit cs
    omega
  · induction cs with
    | nil =>
      intro ds hds _
      rw [List.suffix_nil.mp hds]
      exact Nat.zero_le _
    | cons c cs ih =>
      intro ds hds hfits
      rw [keepRight_cons hruler hcs hlimit]
      split_ifs with hall
      · exact hds.length_le
      · rcases List.suffix_cons_iff.mp hds with rfl | hds
        · exact absurd hfits hall
        · exact ih (fun hmem => hcs (List.mem_cons_of_mem c hmem)) ds hds hfits

theorem showsStart_shorten (hruler : ruler.Lawful) (hcs : Cells.escape ∉ cs) (room : Int) :
    ShowsStart ruler room cs (shorten ruler room cs) := by
  unfold ShowsStart shorten
  by_cases hall : (ruler.count cs : Int) ≤ room
  · rw [if_pos hall, if_pos hall]
  rw [if_neg hall, if_neg hall]
  by_cases hnone : room ≤ 0
  · rw [if_pos hnone, if_pos hnone]
  rw [if_neg hnone, if_neg hnone]
  by_cases hone : room = 1
  · rw [if_pos (beq_iff_eq.mpr hone)]
    exact ⟨[], List.nil_prefix, rfl, by rw [if_pos hone]⟩
  · have hover : room.toNat < ruler.count cs := by omega
    obtain ⟨kept, hkept, hcut⟩ := hruler.truncate_eq hcs (by omega) hover
    have hroom : (room.toNat : Int) - 1 = room - 1 := by omega
    rw [hroom] at hkept
    rw [if_neg (by simpa using hone)]
    exact ⟨kept, hkept.has, hcut, by rwa [if_neg hone]⟩

/-! ### The room in front of the marker -/

theorem preRoom_eq (h : 0 ≤ limit) (hdouble : limit * 2 ≤ Integer.greatest) :
    preRoom limit = limit * 2 / 3 := by
  have hwrap : Integer.wrap (limit * 2) = limit * 2 :=
    Integer.wrap_eq (by unfold Integer.least; omega) hdouble
  rw [preRoom, hwrap]
  exact Int.tdiv_eq_ediv_of_nonneg (by omega)

/-- The double of a huge limit is taken for a negative number. -/
theorem preRoom_nonpos (hdouble : Integer.greatest < limit * 2) (hlimit : limit ≤ Integer.greatest) :
    preRoom limit ≤ 0 := by
  have hwrap : Integer.wrap (limit * 2) ≤ 0 := by
    unfold Integer.greatest at hdouble hlimit
    unfold Integer.wrap Int.bmod
    simp only
    split_ifs <;> omega
  exact Int.tdiv_le_tdiv (by decide) hwrap

theorem keepRight_of_neg (hlimit : limit < 0) (cs : List Char) : keepRight ruler limit cs = [] := by
  unfold keepRight
  induction cs with
  | nil => rfl
  | cons c cs ih =>
    have hover : ¬ (ruler.count (c :: cs) : Int) ≤ limit := by omega
    simp only [keepRightFrom, decide_eq_false hover, Bool.and_false, Bool.false_eq_true, if_false]
    exact ih

theorem showsEnd_fitPre (hruler : ruler.Lawful) (hcs : Cells.escape ∉ cs) (hlimit : 2 ≤ limit)
    (hdouble : limit * 2 ≤ Integer.greatest) :
    ShowsEnd ruler (limit * 2 / 3) cs (fitPre ruler limit cs) := by
  unfold ShowsEnd fitPre
  rw [preRoom_eq (by omega) hdouble]
  by_cases hall : (ruler.count cs : Int) ≤ limit * 2 / 3
  · rw [if_pos hall, if_neg (Int.not_lt.mpr hall)]
  · rw [if_neg hall, if_pos (Int.not_le.mp hall)]
    exact ⟨_, isLongest_keepRight hruler hcs (by omega), rfl⟩

theorem fitPre_huge (hdouble : Integer.greatest < limit * 2) (hlimit : limit ≤ Integer.greatest)
    (cs : List Char) :
    fitPre ruler limit cs = [Cells.ellipsis] ∨ ruler.count cs = 0 ∧ fitPre ruler limit cs = cs := by
  have hroom := preRoom_nonpos hdouble hlimit
  unfold fitPre
  split_ifs with hcut
  · left
    rw [keepRight_of_neg (by omega)]
  · exact .inr ⟨by omega, rfl⟩

/-! ### The line around its marker -/

/-- **What is shown of a line.** When the end of the marker is a 64-bit number, the marker is shown as it
is, and with at least two cells, of which it takes at most what two thirds leave, the line fits. Before
the marker as much is shown as two thirds of the cells take, and after it as much as the rest takes. That
is how it is for lines without escape sequences and for limits whose double is a 64-bit number; for
larger limits all that is shown before the marker is the ellipsis, unless nothing there takes a cell.
When the end of the marker is no 64-bit number, nothing is shown. -/
theorem parts_spec {ruler : Ruler} (hruler : ruler.Lawful) {before marker after : List Char}
    {column width limit : Int}
    (hcolumn : (before.length : Int) = max 0 (min column (before ++ marker ++ after).length))
    (hwidth : (marker.length : Int) = min width (marker ++ after).length) (hlimit : 2 ≤ limit)
    (hmarker : (ruler.count marker : Int) ≤ limit - limit * 2 / 3) :
    (before.length + width ≤ Integer.greatest →
      ∃ pre post, parts ruler (before ++ marker ++ after) column width limit =
          some ⟨pre, marker, post⟩ ∧
        (ruler.count pre + ruler.count marker + ruler.count post : Int) ≤ limit ∧
        (Cells.escape ∉ before ++ marker ++ after →
          (limit * 2 ≤ Integer.greatest → ShowsEnd ruler (limit * 2 / 3) (expandTabs before) pre) ∧
          ShowsStart ruler (limit - ruler.count pre - ruler.count marker) (expandTabs after) post) ∧
        (Integer.greatest < limit * 2 → limit ≤ Integer.greatest →
          pre = [Cells.ellipsis] ∨
            ruler.count (expandTabs before) = 0 ∧ pre = expandTabs before)) ∧
    (Integer.greatest < before.length + width → (before.length : Int) ≤ Integer.greatest →
      width ≤ Integer.greatest →
        parts ruler (before ++ marker ++ after) column width limit = none) := by
  refine ⟨fun hend => ?_, fun hend hbefore hgreatest => ?_⟩
  · have hparts : parts ruler (before ++ marker ++ after) column width limit =
        some (cut ruler limit ⟨expandTabs before, marker, expandTabs after⟩) := by
      rw [parts, split_append hcolumn hwidth hend]
      rfl
    have hfits := count_cut_le hruler hlimit ⟨expandTabs before, marker, expandTabs after⟩ hmarker
    rw [cut, if_neg (by omega)] at hparts hfits
    refine ⟨_, _, hparts, hfits, ?_, fun hdouble hgreatest => fitPre_huge hdouble hgreatest _⟩
    intro hline
    simp only [List.mem_append, not_or] at hline
    -- Tabs become spaces, which start no escape sequence.
    have hplain : ∀ {cs : List Char}, Cells.escape ∉ cs → Cells.escape ∉ expandTabs cs :=
      notMem_expandTabs (by decide)
    exact ⟨showsEnd_fitPre hruler (hplain hline.1.1) hlimit,
      showsStart_shorten hruler (hplain hline.2) _⟩
  · rw [parts, split_eq_none hcolumn hgreatest hbefore hend]
    rfl

/-- A tab and wide characters around a marker, in sixteen cells: of the cells before the marker nine
are shown, since a wide character does not fit into the tenth. With the greatest width, nothing is
shown. -/
theorem parts_spec_wide :
    parts Cells.standard "\t一二三四五**六七八".toList 6 2 16 =
        some ⟨"…二三四五".toList, "**".toList, "六七…".toList⟩ ∧
      ShowsEnd Cells.standard 10 (expandTabs "\t一二三四五".toList) "…二三四五".toList ∧
      ShowsStart Cells.standard 5 (expandTabs "六七八".toList) "六七…".toList ∧
      parts Cells.standard "\t一二三四五**六七八".toList 6 Integer.greatest 24 = none := by
  have hvalue : parts Cells.standard "\t一二三四五**六七八".toList 6 2 16 =
      some ⟨"…二三四五".toList, "**".toList, "六七…".toList⟩ := by
    decide +kernel
  obtain ⟨hshown, -⟩ :=
    @parts_spec Cells.standard Cells.lawful_standard "\t一二三四五".toList "**".toList "六七八".toList 6 2
      16 (by decide) (by decide) (by decide) (by decide +kernel)
  obtain ⟨pre, post, hparts, -, hshown, -⟩ := hshown (by decide)
  obtain ⟨rfl, -, rfl⟩ := Parts.mk.inj (Option.some.inj (hparts.symm.trans hvalue))
  have hroom : (16 - Cells.standard.count "…二三四五".toList - Cells.standard.count "**".toList : Int) =
      5 := by
    decide +kernel
  obtain ⟨hend, hstart⟩ := hshown (by decide)
  rw [hroom] at hstart
  -- With the greatest width, all that follows the column is the marker.
  have hhuge := (@parts_spec Cells.standard Cells.lawful_standard "\t一二三四五".toList
    "**六七八".toList [] 6 Integer.greatest 24 (by decide) (by decide) (by decide)
    (by decide +kernel)).2 (by decide) (by decide) (by decide)
  exact ⟨hvalue, hend (by decide), hstart, hhuge⟩

/-- Two characters before the marker are not shown, with room for far more of them. -/
theorem parts_huge_limit :
    let limit : Int := 0x4000000000000000
    (2 ≤ limit ∧ limit ≤ Integer.greatest) ∧
      (Cells.standard.count ['*'] : Int) ≤ limit - limit * 2 / 3 ∧ Cells.escape ∉ "ab*".toList ∧
      (Cells.standard.count (expandTabs "ab".toList) : Int) ≤ limit * 2 / 3 ∧
      parts Cells.standard "ab*".toList 2 1 limit = some ⟨"…".toList, ['*'], []⟩ := by
  decide +kernel

end Fit

end EmphasisSpacing
