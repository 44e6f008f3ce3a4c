import EmphasisSpacing.Proofs.Fitting
import EmphasisSpacing.Proofs.HintPlaces
import EmphasisSpacing.Proofs.Splitting
import EmphasisSpacing.Report.Render

/-!
# Rendered hints

A rendered hint takes three lines, and the carets of the third stand under the marker in the second
(`Render.shows_boring`), however the source line had to be cut.

First, the line that a hint names is put together from what is before the marker, the marker and what
is after it (`Hint.exists_around`), so that splitting it at the column of the hint finds exactly these
parts (`Render.sourceParts_eq`). Then the cells are counted, with the bounds of
`EmphasisSpacing.Proofs.Fitting`. Last, no part of a rendered hint holds a line feed of its own.

Columns are 64-bit numbers, so the text has to be short enough for them; every text that a program can
hold is.
-/

namespace EmphasisSpacing

/-! ### Around the marker -/

namespace Utf8

theorem length_unitsFrom_le (k : Nat) (s : Bytes) : (unitsFrom k s).length ≤ s.length := by
  induction s generalizing k with
  | nil => cases k <;> simp [unitsFrom]
  | cons b s ih =>
    cases k with
    | succ k => exact Nat.le_succ_of_le (ih k)
    | zero =>
      rw [unitsFrom]
      split
      · exact Nat.succ_le_succ (ih _)
      · exact Nat.succ_le_succ (ih 0)

theorem length_decode_le (s : Bytes) : (decode s).length ≤ s.length := by
  rw [decode, List.length_map]
  exact length_unitsFrom_le 0 s

theorem encode_replicate {c : Char} (hc : c.toNat < 0x80) (n : Nat) :
    encode (List.replicate n c) = List.replicate n (UInt8.ofNat c.toNat) := by
  induction n with
  | zero => rfl
  | succ n ih =>
    rw [List.replicate_succ, encode_cons, ih, encodeChar_ascii hc]
    rfl

/-- A character of ASCII is written only where it stands. -/
theorem byte_notMem_encode {x : Char} (hx : x.toNat < 0x80) {cs : List Char} (h : ∀ c ∈ cs, c ≠ x) :
    UInt8.ofNat x.toNat ∉ encode cs := by
  intro hmem
  obtain ⟨c, hc, hbyte⟩ := List.mem_flatMap.mp hmem
  exact h c hc (eq_of_mem_encodeChar hx hbyte)

/-- Around stars, both sides are read on their own. -/
theorem decode_stars (u v : Bytes) {n : Nat} (hn : 0 < n) :
    decode (u ++ List.replicate n Bytes.star ++ v) =
      decode u ++ List.replicate n '*' ++ decode v := by
  obtain ⟨n, rfl⟩ := Nat.exists_eq_succ_of_ne_zero (Nat.ne_of_gt hn)
  have hstars : ∀ b ∈ List.replicate n Bytes.star, b < 0x80 := by
    intro b hb
    rw [List.eq_of_mem_replicate hb]
    decide
  rw [List.append_assoc, List.replicate_succ, List.cons_append, decode_seam (by decide),
    Scan.decode_append hstars, List.map_replicate, List.append_assoc]
  rfl

end Utf8

namespace Hint

/-- What stands before and after the marker of a hint, in the line that it names. -/
structure Around (text : Bytes) (h : Hint) (before after : List Char) : Prop where
  line : Utf8.decode (Line.contentAt text h.line) = before ++ List.replicate h.width '*' ++ after
  column : h.column - 1 = before.length

/-- **A hint names its line and its column there.** -/
theorem exists_around {settings : Settings} {selections : List Stretch} {text : Bytes}
    (hjoin : ∀ l ∈ Line.split text, mathJoined settings l.content = false) {h : Hint}
    (hh : h ∈ hints settings selections text) :
    ∃ before after, Around text h before after ∧ h.width ≤ 3 ∧
      before.length + h.width ≤ text.length ∧ '\n' ∉ before ∧ '\n' ∉ after := by
  obtain ⟨pre, l, post, hsplit, -, -, hscan, hmem⟩ :=
    exists_of_mem_ofDocument (List.mem_filter.mp hh).1
  have hl : l ∈ Line.split text := by rw [hsplit]; simp
  obtain ⟨f, m, x, side, hf, hm, -, -, hx, rfl⟩ := exists_of_mem_ofLine hscan (hjoin l hl) hmem
  have hin : x.StandsIn l.content := by
    rcases hx with ⟨rfl, -⟩ | ⟨rfl, -⟩
    · exact hf
    · exact hm
  obtain ⟨u, v, hline, hu, -, -⟩ := hin.run
  have hdecode : Utf8.decode l.content =
      Utf8.decode u ++ List.replicate x.width '*' ++ Utf8.decode v := by
    rw [hline, Utf8.decode_stars u v hin.width_pos]
  have hcolumn : (Utf8.decode u).length = x.start.column := by
    rw [← hin.column, hline, List.append_assoc, ← Int.ofNat.inj hu, List.take_left]
  -- A line feed among the characters would be one among the bytes.
  have hlf : '\n' ∉ Utf8.decode l.content := by
    intro hc
    have hvalid := (needsScan_iff.mp hscan).2.2
    have hbyte : Bytes.lf ∈ Utf8.encode (Utf8.decode l.content) :=
      List.mem_flatMap.mpr ⟨'\n', hc, by decide⟩
    rw [Utf8.encode_decode hvalid] at hbyte
    exact ((Line.proper_split text).fits hl).1 hbyte
  refine ⟨Utf8.decode u, Utf8.decode v, ⟨?_, ?_⟩, hin.width_le, ?_, ?_, ?_⟩
  · show Utf8.decode (Line.contentAt text (pre.length + 1 : Nat)) = _
    rw [Line.contentAt_of_split hsplit, hdecode]
    rfl
  · show ((x.start.column + 1 : Nat) : Int) - 1 = _
    omega
  · have hle := Utf8.length_decode_le u
    have htext := congrArg List.length (Line.join_split text)
    rw [hsplit] at htext
    simp only [Line.join, Line.bytes, hline, List.flatMap_append, List.flatMap_cons,
      List.length_append, List.length_replicate] at htext
    show (Utf8.decode u).length + x.width ≤ text.length
    omega
  · exact fun hc => hlf (by rw [hdecode]; simp [hc])
  · exact fun hc => hlf (by rw [hdecode]; simp [hc])

end Hint

/-! ### The three lines -/

namespace Render

variable {o : Options}

/-- Signs that take one cell take as many cells as there are of them. -/
theorem count_signs {ruler : Ruler} (hruler : ruler.Lawful) {c : Char}
    (hc : c ∈ [' ', '*', '^', Cells.ellipsis]) (n : Nat) : ruler.count (List.replicate n c) = n := by
  have hplain : c ≠ Cells.escape := by
    simp only [List.mem_cons, List.not_mem_nil, or_false] at hc
    rcases hc with rfl | rfl | rfl | rfl <;> decide
  induction n with
  | zero => exact hruler.count_nil
  | succ n ih =>
    rw [List.replicate_succ, hruler.count_cons hplain, hruler.width_sign c hc, ih, Nat.add_comm]

/-- The parts of the source line, before they are cut. -/
def wholeParts (h : Hint) (before after : List Char) : Fit.Parts :=
  ⟨Fit.expandTabs before, List.replicate h.width '*', Fit.expandTabs after⟩

/-- **A hint is shown around its own marker.** -/
theorem sourceParts_eq {text : Bytes} {h : Hint} {before after : List Char}
    (haround : h.Around text before after)
    (hend : (before.length + h.width : Int) ≤ Integer.greatest) :
    sourceParts o text h = some (Fit.cut o.ruler o.room (wholeParts h before after)) := by
  have hwrap : Integer.wrap (h.column - 1) = before.length := by
    rw [haround.column]
    exact Integer.wrap_eq (by unfold Integer.least; omega) (by omega)
  have hsplit : Fit.split (before ++ List.replicate h.width '*' ++ after) before.length h.width =
      some (wholeParts h before after) := by
    refine Fit.split_append ?_ ?_ hend
    · simp only [List.length_append]
      omega
    · simp only [List.length_append, List.length_replicate]
      omega
  rw [sourceParts, haround.line, hwrap, Fit.parts, hsplit]
  rfl

/-! #### What the lines hold -/

theorem gutter_eq : gutter = Utf8.encode (List.replicate 4 ' ') := by decide

theorem sourceLine_boring (p : Fit.Parts) :
    sourceLine Theme.boring.styles p =
      Utf8.encode (List.replicate 4 ' ' ++ p.pre ++ p.marker ++ p.post) ++ [Bytes.lf] := by
  rw [Utf8.encode_append, Utf8.encode_append, Utf8.encode_append, ← gutter_eq]
  rfl

theorem caretLine_boring (ruler : Ruler) (p : Fit.Parts) :
    caretLine ruler Theme.boring.styles p =
      Utf8.encode (List.replicate 4 ' ' ++ List.replicate (ruler.count p.pre) ' ' ++
        List.replicate (Utf8.encode p.marker).length '^') ++ [Bytes.lf] := by
  rw [Utf8.encode_append, Utf8.encode_append, ← gutter_eq, Utf8.encode_replicate (by decide),
    Utf8.encode_replicate (by decide), List.append_assoc gutter]
  rfl

section

variable {ruler : Ruler} (hruler : ruler.Lawful)
include hruler

/-- The line feed of a line takes no cells. -/
theorem count_decode_line (cs : List Char) :
    ruler.count (Utf8.decode (Utf8.encode cs ++ [Bytes.lf])) ≤ ruler.count cs := by
  have hlf : [Bytes.lf] = Utf8.encode ['\n'] := by decide
  have hzero : ruler.count ['\n'] = 0 := by
    rw [hruler.count_cons (by decide), hruler.width_lf, hruler.count_nil]
  have happend := hruler.count_append_le cs ['\n']
  rw [hlf, ← Utf8.encode_append, Utf8.decode_encode]
  omega

theorem count_sourceLine_le (p : Fit.Parts) :
    ruler.count (Utf8.decode (sourceLine Theme.boring.styles p)) ≤
      4 + (ruler.count p.pre + ruler.count p.marker + ruler.count p.post) := by
  have hline := count_decode_line hruler (List.replicate 4 ' ' ++ p.pre ++ p.marker ++ p.post)
  have hpost := hruler.count_append_le (List.replicate 4 ' ' ++ p.pre ++ p.marker) p.post
  have hmarker := hruler.count_append_le (List.replicate 4 ' ' ++ p.pre) p.marker
  have hpre := hruler.count_append_le (List.replicate 4 ' ') p.pre
  rw [count_signs hruler (by simp)] at hpre
  rw [sourceLine_boring]
  omega

theorem count_caretLine_le (p : Fit.Parts) :
    ruler.count (Utf8.decode (caretLine ruler Theme.boring.styles p)) ≤
      4 + (ruler.count p.pre + (Utf8.encode p.marker).length) := by
  have hline := count_decode_line hruler (List.replicate 4 ' ' ++
    List.replicate (ruler.count p.pre) ' ' ++ List.replicate (Utf8.encode p.marker).length '^')
  have hcarets := hruler.count_append_le
    (List.replicate 4 ' ' ++ List.replicate (ruler.count p.pre) ' ')
    (List.replicate (Utf8.encode p.marker).length '^')
  have hspaces := hruler.count_append_le (List.replicate 4 ' ')
    (List.replicate (ruler.count p.pre) ' ')
  rw [count_signs hruler (by simp), count_signs hruler (by simp)] at hspaces
  rw [count_signs hruler (by simp)] at hcarets
  rw [caretLine_boring]
  omega

end

/-- What the second and the third line of a hint show: the source line around the marker, cut where it
is too wide, and below the marker as many carets. -/
structure Shows (o : Options) (text : Bytes) (h : Hint) (source carets : Bytes) : Prop where
  lines : ∃ before after pre post, h.Around text before after ∧
    pre = Fit.fitPre o.ruler o.room (Fit.expandTabs before) ∧
    post = Fit.shorten o.ruler (o.room - o.ruler.count pre - h.width) (Fit.expandTabs after) ∧
    source = gutter ++ Utf8.encode pre ++ List.replicate h.width Bytes.star ++ Utf8.encode post ++
      [Bytes.lf] ∧
    carets = gutter ++ List.replicate (o.ruler.count pre) Bytes.space ++
      List.replicate h.width 0x5E ++ [Bytes.lf]
  source_fits : o.ruler.count (Utf8.decode source) ≤ o.width
  carets_fit : o.ruler.count (Utf8.decode carets) ≤ o.width

/-- **The carets of a hint stand under its marker, and both lines fit.** -/
theorem shows_boring (hruler : o.ruler.Lawful) (htheme : o.theme = Theme.boring)
    (hwidth : 12 ≤ o.width) {text : Bytes} {h : Hint} (hmarker : h.width ≤ 3)
    {before after : List Char} (haround : h.Around text before after) {p : Fit.Parts}
    (hp : p = Fit.cut o.ruler o.room (wholeParts h before after)) :
    Shows o text h (sourceLine o.theme.styles p) (caretLine o.ruler o.theme.styles p) := by
  have hroom : o.room = o.width - 4 := by
    have hgutter : (gutter.length : Int) = 4 := by decide
    unfold Options.room minRoom
    rw [hgutter]
    split_ifs <;> omega
  have hstars : Utf8.encode (List.replicate h.width '*') = List.replicate h.width Bytes.star :=
    Utf8.encode_replicate (by decide) h.width
  have hcount : o.ruler.count (List.replicate h.width '*') = h.width := count_signs hruler (by simp) _
  -- The gutter takes four cells, and the parts of the line the room that is left.
  have hleast : 8 ≤ o.room := by omega
  have hfits : (o.ruler.count (wholeParts h before after).marker : Int) ≤
      o.room - o.room * 2 / 3 := by
    show (o.ruler.count (List.replicate h.width '*') : Int) ≤ _
    rw [hcount]
    omega
  have hbound := Fit.count_cut_le hruler (show 2 ≤ o.room by omega) _ hfits
  have hsource := count_sourceLine_le hruler p
  have hcaret := count_caretLine_le hruler p
  rw [← hp] at hbound
  rw [Fit.cut, if_neg (by omega)] at hp
  have hshown : p.marker = List.replicate h.width '*' := by rw [hp]; rfl
  rw [hshown, hcount] at hbound hsource
  rw [hshown, hstars, List.length_replicate] at hcaret
  rw [htheme]
  refine ⟨⟨before, after, p.pre, p.post, haround, ?_, ?_, ?_, ?_⟩, ?_, ?_⟩
  · rw [hp]
    rfl
  · rw [← hcount, hp]
    rfl
  · rw [← hstars, ← hshown]
    rfl
  · show gutter ++ (List.replicate _ Bytes.space ++
      List.replicate (Utf8.encode p.marker).length 0x5E) ++ [Bytes.lf] = _
    rw [hshown, hstars, List.length_replicate]
    simp only [List.append_assoc]
  · omega
  · omega

/-! #### Where the lines end -/

theorem lf_notMem_ofInt (n : Int) : Bytes.lf ∉ Integer.ofInt n := by
  have hofNat : ∀ n, Bytes.lf ∉ Integer.ofNat n := fun n hmem =>
    absurd (Integer.ofNat_isDigit hmem) (by decide)
  cases n with
  | ofNat n => exact hofNat n
  | negSucc n => exact List.not_mem_cons_of_ne_of_not_mem (by decide) (hofNat (n + 1))

theorem lf_notMem_percent (s : Bytes) : Bytes.lf ∉ Percent.encode .path s := by
  intro hmem
  obtain ⟨b, -, hmem⟩ := List.mem_flatMap.mp hmem
  split_ifs at hmem with hkeeps
  · rw [← List.mem_singleton.mp hmem] at hkeeps
    cases hkeeps
  · have hdigit : ∀ d < 16, Percent.hexDigit d ≠ Bytes.lf := by decide
    have hb := b.toNat_lt
    simp only [Percent.encodeByte, List.mem_cons, List.not_mem_nil, or_false] at hmem
    rcases hmem with hmem | hmem | hmem
    · cases hmem
    · exact hdigit _ (by omega) hmem.symm
    · exact hdigit _ (by omega) hmem.symm

theorem lf_notMem_target {path : Bytes} (hpath : Bytes.lf ∉ path) (cwd : Bytes) :
    Bytes.lf ∉ Link.target cwd path := by
  unfold Link.target Link.fileAddress
  split_ifs
  · simp
  · exact hpath
  · rw [List.mem_append, not_or]
    exact ⟨by decide, lf_notMem_percent _⟩

theorem lf_notMem_wrap {target s : Bytes} (htarget : Bytes.lf ∉ target) (hs : Bytes.lf ∉ s) :
    Bytes.lf ∉ Link.wrap target s := by
  unfold Link.wrap
  split_ifs
  · exact hs
  · simp only [List.mem_append, not_or]
    exact ⟨⟨⟨⟨by decide, htarget⟩, by decide⟩, hs⟩, by decide⟩

theorem lf_notMem_message (h : Hint) : Bytes.lf ∉ h.message := by
  have hstars : Bytes.lf ∉ List.replicate h.width Bytes.star := fun hmem =>
    absurd (List.eq_of_mem_replicate hmem) (by decide)
  unfold Hint.message
  rw [List.mem_append, not_or]
  refine ⟨?_, hstars⟩
  cases h.side <;> decide

theorem isLine_encode {cs : List Char} (h : '\n' ∉ cs) :
    Bytes.IsLine (Utf8.encode cs ++ [Bytes.lf]) := by
  refine ⟨Utf8.encode cs, Utf8.byte_notMem_encode (x := '\n') (by decide) fun c hc => ?_, rfl⟩
  rintro rfl
  exact h hc

theorem isLine_header {o : Options} (htheme : o.theme = Theme.boring) (hpath : Bytes.lf ∉ o.path)
    (h : Hint) : Bytes.IsLine (header o h) := by
  have hlabel : Bytes.lf ∉ o.label := by
    unfold Options.label
    split_ifs
    · decide
    · exact hpath
  have hlink : Bytes.lf ∉ if o.links then Link.target o.cwd o.path else [] := by
    split_ifs
    · exact lf_notMem_target hpath o.cwd
    · simp
  have hlocation : Bytes.lf ∉ o.label ++ bytes ":" ++ Integer.ofInt h.line ++ bytes ":" ++
      Integer.ofInt h.column ++ bytes ":" := by
    simp only [List.mem_append, not_or]
    exact ⟨⟨⟨⟨⟨hlabel, by decide⟩, lf_notMem_ofInt _⟩, by decide⟩, lf_notMem_ofInt _⟩, by decide⟩
  refine ⟨_, ?_, rfl⟩
  rw [htheme]
  simp only [List.mem_append, not_or]
  exact ⟨⟨lf_notMem_wrap hlink hlocation, by decide⟩, lf_notMem_message h⟩

/-- The three lines of a hint; none when it cannot be shown. -/
def linesOf (o : Options) (text : Bytes) (h : Hint) : List Bytes :=
  match sourceParts o text h with
  | some p => [header o h, sourceLine o.theme.styles p, caretLine o.ruler o.theme.styles p]
  | none => []

theorem linesOf_eq {text : Bytes} {h : Hint} {p : Fit.Parts} (hp : sourceParts o text h = some p) :
    linesOf o text h =
      [header o h, sourceLine o.theme.styles p, caretLine o.ruler o.theme.styles p] := by
  rw [linesOf, hp]

theorem isLine_of_mem_linesOf (hruler : o.ruler.Lawful) (htheme : o.theme = Theme.boring)
    (hpath : Bytes.lf ∉ o.path) (hroom : 0 < o.room) {text : Bytes} {h : Hint} {before after : List Char}
    (hp : sourceParts o text h = some (Fit.cut o.ruler o.room (wholeParts h before after)))
    (hbefore : '\n' ∉ before) (hafter : '\n' ∉ after) : ∀ l ∈ linesOf o text h, Bytes.IsLine l := by
  -- The cuts and the expanded tabs add characters, and none of them is a line feed.
  have hreplicate : ∀ {x : Char}, x ≠ '\n' → ∀ n, '\n' ∉ List.replicate n x :=
    fun hx n hc => hx (List.eq_of_mem_replicate hc).symm
  have hpre : '\n' ∉ Fit.fitPre o.ruler o.room (Fit.expandTabs before) :=
    Fit.lf_notMem_fitPre o.room (Fit.notMem_expandTabs (by decide) hbefore)
  have hpost := fun limit => Fit.lf_notMem_shorten hruler limit
    (Fit.notMem_expandTabs (by decide) hafter)
  rw [linesOf_eq hp, htheme, sourceLine_boring, caretLine_boring, Fit.cut,
    if_neg (Int.not_le.mpr hroom)]
  simp only [List.forall_mem_cons, List.not_mem_nil, false_implies, implies_true, and_true]
  refine ⟨isLine_header htheme hpath h, isLine_encode ?_, isLine_encode ?_⟩
  · simp only [List.mem_append, not_or]
    exact ⟨⟨⟨hreplicate (by decide) 4, hpre⟩, hreplicate (by decide) _⟩, hpost _⟩
  · simp only [List.mem_append, not_or]
    exact ⟨⟨hreplicate (by decide) 4, hreplicate (by decide) _⟩, hreplicate (by decide) _⟩

/-- When every hint can be shown, all lines are written. -/
theorem hints_eq_flatten {text : Bytes} {hs : List Hint}
    (hshown : ∀ h ∈ hs, ∃ p, sourceParts o text h = some p) :
    hints o text hs = some (hs.flatMap (linesOf o text)).flatten := by
  have hmap : hs.mapM (hint o text) = some (hs.map fun h => (linesOf o text h).flatten) := by
    induction hs with
    | nil => rfl
    | cons h hs ih =>
      rw [List.forall_mem_cons] at hshown
      obtain ⟨p, hp⟩ := hshown.1
      have hfirst : hint o text h = some (linesOf o text h).flatten := by
        rw [hint, linesOf_eq hp, hp]
        simp
      rw [List.mapM_cons, hfirst, ih hshown.2]
      rfl
  rw [hints, hmap, List.flatMap_def, List.flatten_flatten, List.map_map]
  rfl

end Render

/-- **Rendered hints point at their markers and fit the terminal.** Each hint takes three lines. -/
theorem hints_rendered {o : Render.Options} (hruler : o.ruler.Lawful) (htheme : o.theme = Theme.boring)
    (hwidth : 12 ≤ o.width) (hpath : Bytes.lf ∉ o.path) (settings : Settings)
    (selections : List Stretch) {text : Bytes} (hlength : (text.length : Int) ≤ Integer.greatest)
    (hjoin : ∀ l ∈ Line.split text, mathJoined settings l.content = false) :
    ∃ out, Render.toWriter .working o text (hints settings selections text) = .ok out ∧
      Bytes.splitAfterLf out = (hints settings selections text).flatMap (Render.linesOf o text) ∧
      ∀ h ∈ hints settings selections text, ∃ source carets,
        Render.linesOf o text h = [Render.header o h, source, carets] ∧
          Render.Shows o text h source carets := by
  -- Every hint names a line that has its marker, and the end of the marker is a 64-bit number.
  have hshown : ∀ h ∈ hints settings selections text, ∃ before after, h.Around text before after ∧
      h.width ≤ 3 ∧ '\n' ∉ before ∧ '\n' ∉ after ∧ Render.sourceParts o text h =
        some (Fit.cut o.ruler o.room (Render.wholeParts h before after)) := by
    intro h hh
    obtain ⟨before, after, haround, hmarker, hend, hbefore, hafter⟩ := Hint.exists_around hjoin hh
    exact ⟨before, after, haround, hmarker, hbefore, hafter,
      Render.sourceParts_eq haround (by omega)⟩
  have hout := Render.hints_eq_flatten fun h hh =>
    let ⟨_, _, _, _, _, _, hp⟩ := hshown h hh
    ⟨_, hp⟩
  refine ⟨_, by unfold Render.toWriter; rw [hout], ?_, ?_⟩
  · refine Bytes.splitAfterLf_flatten fun l hl => ?_
    obtain ⟨h, hh, hl⟩ := List.mem_flatMap.mp hl
    obtain ⟨before, after, -, -, hbefore, hafter, hp⟩ := hshown h hh
    have hroom : 0 < o.room := by
      unfold Render.Options.room Render.minRoom
      split_ifs <;> omega
    exact Render.isLine_of_mem_linesOf hruler htheme hpath hroom hp hbefore hafter l hl
  · intro h hh
    obtain ⟨before, after, haround, hmarker, -, -, hp⟩ := hshown h hh
    exact ⟨_, _, Render.linesOf_eq hp,
      Render.shows_boring hruler htheme hwidth hmarker haround rfl⟩

/-- A line of wide characters behind a tab, with the least width: it is cut on both sides of each
marker. -/
theorem hints_rendered_narrow :
    let o : Render.Options := ⟨bytes "/d", bytes "a.md", 12, Theme.boring, false, Cells.standard⟩
    let text := bytes "\t一二三四中**粗**文字文字"
    ∃ out, Render.toWriter .working o text (hints Settings.standard [] text) = .ok out ∧
      Bytes.splitAfterLf out =
        [bytes "a.md:1:7: add a space before **\n", bytes "    …四中**…\n", bytes "         ^^\n",
          bytes "a.md:1:10: add a space after **\n", bytes "    …**粗**…\n",
          bytes "         ^^\n"] ∧
      ∀ h ∈ hints Settings.standard [] text, ∃ source carets,
        Render.linesOf o text h = [Render.header o h, source, carets] ∧
          Render.Shows o text h source carets := by
  intro o text
  have hlength : (text.length : Int) ≤ Integer.greatest := by decide +kernel
  obtain ⟨out, hout, hlines, hshows⟩ := hints_rendered (o := o) Cells.lawful_standard rfl (by decide)
    (by decide) Settings.standard [] hlength (by decide +kernel)
  exact ⟨out, hout, hlines.trans (by decide +kernel), hshows⟩

end EmphasisSpacing
