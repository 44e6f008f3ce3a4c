import Mathlib.Tactic.Common
import EmphasisSpacing.Report.Fit

/-!
# Lines that fit

What is cut to a number of cells takes no more of them. The difficulty is in escape sequences: an open
one takes the cells of what follows, so that the cells of two texts do not add up, and a cut may fall
inside one. Still, two texts one behind the other never take more cells than both on their own
(`Cells.count_append_le`), and both ways of cutting keep to their limit (`Fit.count_keepRight_le`,
`Cells.count_truncate_le`). What stands before a marker takes at most two thirds of the cells, so a
line fits when the marker itself fits into the rest (`Fit.count_cut_le`).

All that is asked of the cells and of cutting at the right is said in `Ruler.Lawful`, and what is proved
of fitting lines is proved for every ruler that has these laws. The standard one does
(`Cells.lawful_standard`).
-/

namespace EmphasisSpacing

/-! ### Laws -/

/-- `kept` is the longest text with a property that takes at most `room` cells. -/
structure IsLongest (count : List Char → Nat) (P : List Char → Prop) (room : Int) (kept : List Char) :
    Prop where
  has : P kept
  fits : (count kept : Int) ≤ room
  longest : ∀ cs, P cs → (count cs : Int) ≤ room → cs.length ≤ kept.length

/-- What is asked of a ruler. -/
structure Ruler.Lawful (ruler : Ruler) : Prop where
  count_nil : ruler.count [] = 0
  /-- Outside escape sequences, the cells of the characters add up. -/
  count_cons : ∀ {c : Char}, c ≠ Cells.escape → ∀ cs,
    ruler.count (c :: cs) = ruler.width c + ruler.count cs
  /-- Escape sequences take cells away, and never add any. -/
  count_append_le : ∀ cs ds, ruler.count (cs ++ ds) ≤ ruler.count cs + ruler.count ds
  width_lf : ruler.width '\n' = 0
  /-- The signs that lines are laid out with take one cell. -/
  width_sign : ∀ c ∈ [' ', '*', '^', Cells.ellipsis], ruler.width c = 1
  count_truncate_le : ∀ {limit : Nat}, 2 ≤ limit → ∀ cs, ruler.count (ruler.truncate limit cs) ≤ limit
  /-- Without escape sequences, a cut keeps the longest start that leaves room for the ellipsis. -/
  truncate_eq : ∀ {limit : Nat} {cs : List Char}, Cells.escape ∉ cs → 2 ≤ limit →
    limit < ruler.count cs → ∃ kept, IsLongest ruler.count (· <+: cs) ((limit : Int) - 1) kept ∧
      ruler.truncate limit cs = kept ++ [Cells.ellipsis]
  /-- Cutting starts no new line. -/
  lf_truncate : ∀ {limit : Nat} {cs : List Char}, '\n' ∉ cs → '\n' ∉ ruler.truncate limit cs

/-- 64-bit numbers are left as they are. -/
theorem Integer.wrap_eq {n : Int} (hleast : least ≤ n) (hgreatest : n ≤ greatest) : wrap n = n := by
  unfold least at hleast
  unfold greatest at hgreatest
  unfold wrap Int.bmod
  simp only
  split_ifs <;> omega

/-! ### Counting cells -/

namespace Cells

theorem ofCharIn_true (c : Char) : ofCharIn true c = 0 := by
  unfold ofCharIn
  simp

theorem ofCharIn_escape (inside : Bool) : ofCharIn inside escape = 0 := by
  unfold ofCharIn
  simp

theorem ofCharIn_of_ne {c : Char} (hc : c ≠ escape) : ofCharIn false c = ofChar c := by
  unfold ofCharIn
  simp [hc]

theorem escapeAfter_escape (inside : Bool) : escapeAfter inside escape = true := by
  unfold escapeAfter
  simp

theorem escapeAfter_of_ne {c : Char} (hc : c ≠ escape) (inside : Bool) :
    escapeAfter inside c = (inside && !endsEscape c) := by
  unfold escapeAfter
  simp [hc]

/-- An escape sequence that is open takes cells away, and never adds any. -/
theorem countFrom_le (inside : Bool) (cs : List Char) : countFrom inside cs ≤ countFrom false cs := by
  cases inside with
  | false => exact Nat.le_refl _
  | true =>
    induction cs with
    | nil => exact Nat.le_refl _
    | cons c cs ih =>
      have hrest : countFrom (escapeAfter true c) cs ≤ countFrom (escapeAfter false c) cs := by
        by_cases hc : c = escape
        · rw [hc, escapeAfter_escape]
          exact Nat.le_of_eq (by rw [escapeAfter_escape])
        · rw [escapeAfter_of_ne hc, escapeAfter_of_ne hc]
          cases endsEscape c
          · exact ih
          · exact Nat.le_refl _
      rw [countFrom, countFrom, ofCharIn_true]
      omega

theorem countFrom_append_le (inside : Bool) (cs ds : List Char) :
    countFrom inside (cs ++ ds) ≤ countFrom inside cs + countFrom false ds := by
  induction cs generalizing inside with
  | nil =>
    have := countFrom_le inside ds
    rw [List.nil_append, countFrom]
    omega
  | cons c cs ih =>
    have := ih (escapeAfter inside c)
    rw [List.cons_append, countFrom, countFrom]
    omega

/-- **Two texts take no more cells than each on its own.** -/
theorem count_append_le (cs ds : List Char) : count (cs ++ ds) ≤ count cs + count ds :=
  countFrom_append_le false cs ds

theorem count_cons {c : Char} (hc : c ≠ escape) (cs : List Char) :
    count (c :: cs) = ofChar c + count cs := by
  show ofCharIn false c + countFrom (escapeAfter false c) cs = _
  rw [ofCharIn_of_ne hc, escapeAfter_of_ne hc]
  rfl

/-! ### Cutting at the right -/

/-- What is left of the cells keeps to the room and one cell for the ellipsis. The invariant is that
`pending` is what was read since the last escape sequence was complete: it takes no cells, and opens a
sequence iff `inside`. -/
theorem countFrom_truncateFrom_le (room : Nat) (cs : List Char) {used : Nat} {pending : List Char}
    {inside : Bool} (styled : Bool) (hused : used ≤ room)
    (hpending : ∀ ds, countFrom false (pending.reverse ++ ds) = countFrom inside ds) :
    used + count (truncateFrom room used pending inside styled cs) ≤ room + 1 := by
  induction cs generalizing used pending inside styled with
  | nil =>
    rw [truncateFrom]
    show used + 0 ≤ room + 1
    omega
  | cons c cs ih =>
    have hpush : ∀ ds, countFrom false ((c :: pending).reverse ++ ds) =
        ofCharIn inside c + countFrom (escapeAfter inside c) ds := by
      intro ds
      rw [List.reverse_cons, List.append_assoc, hpending, List.singleton_append, countFrom]
    simp only [truncateFrom]
    by_cases hover : room < used + ofCharIn inside c
    · -- The ellipsis takes the last cell, and a style reset takes none.
      rw [if_pos hover]
      have hone : count (ellipsis :: if styled = true then styleReset else []) = 1 := by
        cases styled <;> decide
      omega
    rw [if_neg hover]
    by_cases hc : c = escape
    · -- An escape opens a sequence, inside another one as well.
      rw [hc, ofCharIn_escape, escapeAfter_escape] at hpush
      rw [hc, if_pos (beq_self_eq_true _), ofCharIn_escape]
      exact ih styled hused fun ds => by rw [hpush, Nat.zero_add]
    rw [if_neg (by simpa using hc)]
    cases inside with
    | false =>
      rw [ofCharIn_of_ne hc] at hover ⊢
      have hrest := ih styled (Nat.le_of_not_lt hover) hpending
      rw [if_neg Bool.false_ne_true, count_cons hc]
      omega
    | true =>
      rw [ofCharIn_true, escapeAfter_of_ne hc] at hpush
      rw [if_pos rfl, ofCharIn_true, Nat.add_zero]
      cases hend : endsEscape c with
      | false =>
        rw [if_neg Bool.false_ne_true]
        exact ih styled hused fun ds => by rw [hpush, hend, Nat.zero_add]; rfl
      | true =>
        -- The sequence is complete: all of `pending` is written, and takes no cells.
        rw [if_pos rfl, count, hpush, hend, Nat.zero_add]
        exact ih _ hused fun ds => rfl

/-- **What is cut to a number of cells fits.** -/
theorem count_truncate_le {limit : Nat} (hlimit : 1 ≤ limit) (cs : List Char) :
    count (truncate limit cs) ≤ limit := by
  have hnothing : ∀ ds, countFrom false (List.reverse [] ++ ds) = countFrom false ds := fun ds => rfl
  have hcut := countFrom_truncateFrom_le (limit - 1) cs false (Nat.zero_le _) hnothing
  unfold truncate
  omega

/-- A cut adds the ellipsis and a style reset, and nothing else. -/
theorem forall_mem_truncateFrom {P : Char → Prop} (hadded : ∀ c ∈ ellipsis :: styleReset, P c)
    {room : Nat} {cs : List Char} (hcs : ∀ c ∈ cs, P c) {used : Nat} {pending : List Char}
    (hpending : ∀ c ∈ pending, P c) {inside styled : Bool} :
    ∀ c ∈ truncateFrom room used pending inside styled cs, P c := by
  induction cs generalizing used pending inside styled with
  | nil => simp [truncateFrom]
  | cons d cs ih =>
    rw [List.forall_mem_cons] at hcs
    have hpush : ∀ c ∈ d :: pending, P c := List.forall_mem_cons.mpr ⟨hcs.1, hpending⟩
    simp only [truncateFrom]
    by_cases hover : room < used + ofCharIn inside d
    · rw [if_pos hover]
      have hsub : (ellipsis :: if styled = true then styleReset else []) ⊆ ellipsis :: styleReset := by
        cases styled <;> simp
      exact fun c hc => hadded c (hsub hc)
    rw [if_neg hover]
    by_cases hescape : d = escape
    · rw [if_pos (by simpa using hescape)]
      exact ih hcs.2 hpush
    rw [if_neg (by simpa using hescape)]
    cases inside with
    | false =>
      rw [if_neg Bool.false_ne_true]
      exact List.forall_mem_cons.mpr ⟨hcs.1, ih hcs.2 hpending⟩
    | true =>
      rw [if_pos rfl]
      cases endsEscape d with
      | false => exact ih hcs.2 hpush
      | true =>
        rw [if_pos rfl, List.forall_mem_append]
        exact ⟨fun c hc => hpush c (List.mem_reverse.mp hc), ih hcs.2 (by simp)⟩

/-- **Cutting at the right** copies the longest start that fits behind the cells that are used, and puts
the ellipsis behind it, unless all of the text fits. -/
theorem truncateFrom_spec {room used : Nat} {cs : List Char} (hcs : escape ∉ cs)
    (hused : used ≤ room) (hover : room < used + count cs) :
    ∃ kept, IsLongest count (· <+: cs) (room - used) kept ∧
      truncateFrom room used [] false false cs = kept ++ [ellipsis] := by
  induction cs generalizing used with
  | nil =>
    rw [show count [] = 0 from rfl] at hover
    omega
  | cons c cs ih =>
    rw [List.mem_cons, not_or] at hcs
    have hc : c ≠ escape := Ne.symm hcs.1
    rw [count_cons hc] at hover
    simp only [truncateFrom, ofCharIn_of_ne hc, beq_eq_false_iff_ne.mpr hc, Bool.false_eq_true,
      if_false]
    by_cases hfirst : room < used + ofChar c
    · -- Not even the first character fits.
      rw [if_pos hfirst]
      refine ⟨[], ⟨List.nil_prefix, ?_, ?_⟩, rfl⟩
      · rw [show count [] = 0 from rfl]
        omega
      · intro ds hds hfits
        cases ds with
        | nil => exact Nat.le_refl 0
        | cons d ds =>
          obtain ⟨rfl, -⟩ := List.cons_prefix_cons.mp hds
          rw [count_cons hc] at hfits
          omega
    · rw [if_neg hfirst]
      -- The first character fits, and the rest is cut in the room that it leaves.
      obtain ⟨kept, hkept, hcut⟩ := ih hcs.2 (Nat.le_of_not_lt hfirst) (by omega)
      refine ⟨c :: kept, ⟨List.cons_prefix_cons.mpr ⟨rfl, hkept.has⟩, ?_, ?_⟩, by rw [hcut]; rfl⟩
      · have hfits := hkept.fits
        rw [count_cons hc]
        omega
      · intro ds hds hfits
        cases ds with
        | nil => exact Nat.zero_le _
        | cons d ds =>
          obtain ⟨rfl, hrest⟩ := List.cons_prefix_cons.mp hds
          rw [count_cons hc] at hfits
          have hlength := hkept.longest ds hrest (by omega)
          rw [List.length_cons, List.length_cons]
          omega

/-- **The standard ruler has the laws.** -/
theorem lawful_standard : standard.Lawful where
  count_nil := rfl
  count_cons := count_cons
  count_append_le := count_append_le
  width_lf := by decide +kernel
  width_sign c hc := by
    simp only [List.mem_cons, List.not_mem_nil, or_false] at hc
    rcases hc with rfl | rfl | rfl | rfl <;> decide +kernel
  count_truncate_le hlimit cs := count_truncate_le (Nat.le_of_succ_le hlimit) cs
  truncate_eq {limit cs} hcs hlimit hover := by
    have hused : limit - 1 < 0 + count cs := by
      rw [Nat.zero_add]
      exact Nat.lt_of_le_of_lt (Nat.sub_le limit 1) hover
    obtain ⟨kept, hkept, hcut⟩ := truncateFrom_spec hcs (Nat.zero_le _) hused
    have hroom : ((limit - 1 : Nat) : Int) - (0 : Nat) = limit - 1 := by omega
    rw [hroom] at hkept
    exact ⟨kept, hkept, hcut⟩
  lf_truncate {limit cs} hcs hmem := by
    have hadded : ∀ c ∈ ellipsis :: styleReset, c ≠ '\n' := by
      simp [ellipsis, styleReset, escape]
    have hold : ∀ c ∈ cs, c ≠ '\n' := by
      rintro c hc rfl
      exact hcs hc
    exact forall_mem_truncateFrom hadded hold (by simp) _ hmem rfl

end Cells

/-! ### Cutting around a marker -/

namespace Fit

variable {ruler : Ruler}

theorem count_keepRight_le (hruler : ruler.Lawful) (limit : Int) (cs : List Char) :
    (ruler.count (keepRight ruler limit cs) : Int) ≤ max 0 limit := by
  unfold keepRight
  induction cs with
  | nil =>
    rw [keepRightFrom, hruler.count_nil]
    exact Int.le_max_left 0 limit
  | cons c cs ih =>
    simp only [keepRightFrom]
    split_ifs with hfits
    · rw [Bool.and_eq_true, decide_eq_true_eq] at hfits
      exact Int.le_trans hfits.2 (Int.le_max_right 0 limit)
    · exact ih

theorem keepRight_isSuffix (limit : Int) (cs : List Char) : keepRight ruler limit cs <:+ cs := by
  unfold keepRight
  induction cs with
  | nil => exact List.suffix_refl _
  | cons c cs ih =>
    simp only [keepRightFrom]
    split_ifs
    · exact List.suffix_refl _
    · exact ih.trans (List.suffix_cons c cs)

theorem count_ellipsis_cons (hruler : ruler.Lawful) (cs : List Char) :
    ruler.count (Cells.ellipsis :: cs) = 1 + ruler.count cs := by
  rw [hruler.count_cons (by decide), hruler.width_sign _ (by simp)]

theorem count_shorten_le (hruler : ruler.Lawful) (limit : Int) (cs : List Char) :
    (ruler.count (shorten ruler limit cs) : Int) ≤ max 0 limit := by
  unfold shorten
  split_ifs with hfits hnone hone
  · omega
  · rw [hruler.count_nil]
    exact Int.le_max_left 0 limit
  · have hlimit : limit = 1 := by simpa using hone
    rw [count_ellipsis_cons hruler, hruler.count_nil, hlimit]
    decide
  · have hmany : limit ≠ 1 := by simpa using hone
    have hcut := hruler.count_truncate_le (show 2 ≤ limit.toNat by omega) cs
    omega

/-- Two thirds, rounded down, whatever the arithmetic makes of a huge limit. -/
theorem preRoom_le {limit : Int} (h : 0 ≤ limit) : preRoom limit ≤ limit * 2 / 3 := by
  have hwrap : Integer.wrap (limit * 2) ≤ limit * 2 := by
    unfold Integer.wrap Int.bmod
    simp only
    split_ifs <;> omega
  calc preRoom limit ≤ (limit * 2).tdiv 3 := Int.tdiv_le_tdiv (by decide) hwrap
    _ = limit * 2 / 3 := Int.tdiv_eq_ediv_of_nonneg (by omega)

theorem count_fitPre_le (hruler : ruler.Lawful) (limit : Int) (pre : List Char) :
    (ruler.count (fitPre ruler limit pre) : Int) ≤ max 1 (preRoom limit) := by
  unfold fitPre
  split_ifs with hcut
  · have hkept := count_keepRight_le hruler (preRoom limit - 1) pre
    rw [count_ellipsis_cons hruler]
    omega
  · omega

theorem lf_notMem_fitPre (limit : Int) {cs : List Char} (hcs : '\n' ∉ cs) :
    '\n' ∉ fitPre ruler limit cs := by
  unfold fitPre
  split_ifs
  · rw [List.mem_cons, not_or]
    exact ⟨by decide, fun hmem => hcs ((keepRight_isSuffix _ cs).subset hmem)⟩
  · exact hcs

theorem lf_notMem_shorten (hruler : ruler.Lawful) (limit : Int) {cs : List Char} (hcs : '\n' ∉ cs) :
    '\n' ∉ shorten ruler limit cs := by
  unfold shorten
  split_ifs
  · exact hcs
  · simp
  · simp [Cells.ellipsis]
  · exact hruler.lf_truncate hcs

/-- Tabs become spaces, and nothing else changes. -/
theorem notMem_expandTabs {c : Char} (hspace : c ≠ ' ') {cs : List Char} (hcs : c ∉ cs) :
    c ∉ expandTabs cs := by
  intro hc
  obtain ⟨d, hd, hc⟩ := List.mem_flatMap.mp hc
  split at hc
  · exact hspace (List.eq_of_mem_replicate (n := 4) hc)
  · rw [List.mem_singleton.mp hc] at hcs
    exact hcs hd

/-! ### Taking the marker out of a line -/

section

variable {before marker after : List Char} {column width : Int}

/-- **A line is cut at its marker**: `before` has as many characters as the column says, and `marker` as
many as the width, as far as the line goes. The end of the marker is a 64-bit number. -/
theorem split_append
    (hcolumn : (before.length : Int) = max 0 (min column (before ++ marker ++ after).length))
    (hwidth : (marker.length : Int) = min width (marker ++ after).length)
    (hend : before.length + width ≤ Integer.greatest) :
    split (before ++ marker ++ after) column width =
      some ⟨expandTabs before, marker, expandTabs after⟩ := by
  have hwrap : Integer.wrap (before.length + width) = before.length + width :=
    Integer.wrap_eq (by unfold Integer.least; omega) hend
  have hstop : min ((before.length : Int) + width) (before ++ marker ++ after).length =
      ((before ++ marker).length : Nat) := by
    simp only [List.length_append] at hwidth ⊢
    omega
  unfold split
  simp only [← hcolumn, hwrap, hstop, Int.toNat_natCast]
  rw [if_neg (by simp only [List.length_append]; omega), List.take_left, List.drop_left,
    List.drop_left, List.append_assoc, List.take_left]

/-- When the end of the marker is no 64-bit number, it is taken for a negative one, and there is no
marker. -/
theorem split_eq_none
    (hcolumn : (before.length : Int) = max 0 (min column (before ++ marker ++ after).length))
    (hwidth : width ≤ Integer.greatest) (hbefore : (before.length : Int) ≤ Integer.greatest)
    (hend : Integer.greatest < before.length + width) :
    split (before ++ marker ++ after) column width = none := by
  have hwrap : Integer.wrap (before.length + width) < 0 := by
    unfold Integer.greatest at hwidth hbefore hend
    unfold Integer.wrap Int.bmod
    simp only
    split_ifs <;> omega
  unfold split
  simp only [← hcolumn]
  rw [if_pos (by omega)]

end

/-- **A line around a marker fits**, when there is room for the marker itself. -/
theorem count_cut_le (hruler : ruler.Lawful) {limit : Int} (hlimit : 2 ≤ limit) (p : Parts)
    (hmarker : (ruler.count p.marker : Int) ≤ limit - limit * 2 / 3) :
    (ruler.count (cut ruler limit p).pre + ruler.count (cut ruler limit p).marker +
      ruler.count (cut ruler limit p).post : Int) ≤ limit := by
  have hroom := preRoom_le (Int.le_trans (by decide) hlimit)
  have hpre := count_fitPre_le hruler limit p.pre
  -- What is left behind the first part and the marker may be nothing, but no less.
  have hpost := count_shorten_le hruler
    (limit - ruler.count (fitPre ruler limit p.pre) - ruler.count p.marker) p.post
  rw [cut, if_neg (by omega)]
  simp only
  omega

end Fit

end EmphasisSpacing
