import Mathlib.Data.List.Nodup
import EmphasisSpacing.Proofs.Apart

/-!
# Regions written out

A token is as long as its number, not as long as its region, so whoever wants to know where a marker
stands in the line needs the full text of every region in front of it. `Protected.expand?` finds it
by putting the older regions back into the region, in the same way in which a line is restored, and
with the same weakness: digits between two code spans of a math span can be taken for a token.

Without such digits, the full text of a region is what its hole stands for (`Outline.expand?_eq`).
Digits between regions outside math do no harm here, because no search crosses a region's ends.
-/

namespace EmphasisSpacing

open LineSymbol Atom Delimiter

/-- Whether digits and nothing else stand between two neighbouring code spans of one math span, on a
line that is scanned. -/
def mathJoined (settings : Settings) (line : Bytes) : Bool :=
  needsScan line && (Protected.ofLine settings line).regions.any digitsBetween

/-! ### Putting spans back into a region -/

/-- **Spans without holes are put back where they were**, if no hole comes twice and no digits join
two holes. Spans that the atoms have no hole for are not met. -/
theorem putBack_plug (base : Nat) (spans : List (List Atom)) (hins : ∀ r ∈ spans, Insertable r)
    {as : List Atom} (has : .byte tokenMark ∉ as) (hapart : digitsJoin .text as = false)
    (hnodup : (holes as).Nodup)
    (hflat : ∀ k ∈ holes as, ∀ r, spans[k]? = some r → holes r = []) :
    putBack base spans.reverse (render base as) = render base (plug (spanAt 0 spans) as) := by
  induction spans using List.reverseRecOn generalizing as with
  | nil =>
    rw [show spanAt 0 [] = fun k => [.hole k] from funext spanAt_nil, plug_hole_self]
    rfl
  | append_singleton spans r ih =>
    have hr : Insertable r := hins r (by simp)
    have hins' : ∀ r' ∈ spans, Insertable r' := fun r' hr' => hins r' (List.mem_append_left _ hr')
    have hother : ∀ {us : List Atom}, spans.length ∉ holes us →
        plug (spanAt 0 (spans ++ [r])) us = plug (spanAt 0 spans) us := by
      intro us hus
      refine plug_congr fun k hk => spanAt_concat_of_ne spans r ?_
      rintro rfl
      exact hus (by simpa using hk)
    have hflat' : ∀ k ∈ holes as, ∀ r', spans[k]? = some r' → holes r' = [] := by
      intro k hk r' hget
      refine hflat k hk r' ?_
      rw [List.getElem?_append_left (List.getElem?_eq_some_iff.mp hget).1, hget]
    rw [List.reverse_append, List.reverse_singleton, List.singleton_append, putBack,
      List.length_reverse]
    rcases hr.replaceFirst_apart base spans.length has hapart with
      ⟨us, vs, rfl, hcur⟩ | ⟨hmiss, hcur⟩
    · have hholes : holes (us ++ .hole spans.length :: vs) =
          holes us ++ spans.length :: holes vs := by simp
      -- The newest span has no holes, so nothing new comes in for the older ones.
      have hrholes : holes r = [] := hflat spans.length (by simp) r (by simp)
      rw [hholes] at hnodup
      obtain ⟨hnew, hrest⟩ := List.nodup_middle.mp hnodup |> List.nodup_cons.mp
      rw [List.mem_append, not_or] at hnew
      obtain ⟨d, m, hspan⟩ := hr.isSpan
      have hjoin : digitsJoin .text r = false := digitsJoin_of_holes .text hrholes
      have hplug : plug (spanAt 0 (spans ++ [r])) (us ++ .hole spans.length :: vs) =
          plug (spanAt 0 spans) (us ++ (r ++ vs)) := by
        have hlast := spanAt_concat_last 0 spans r
        rw [Nat.zero_add] at hlast
        rw [plug_append, plug_hole, plug_append, plug_append, hother hnew.1, hother hnew.2, hlast,
          plug_of_holes_eq_nil hrholes]
      rw [hcur, hplug]
      refine ih hins' (hr.clean_insert has) (digitsJoin_plug hspan hjoin hapart) ?_ fun k hk => ?_
      · simpa [hrholes] using hrest
      · refine hflat' k ?_
        rw [hholes]
        simp only [holes_append, hrholes, List.nil_append, List.mem_append] at hk
        rcases hk with hk | hk <;> simp [hk]
    · rw [hcur, hother hmiss]
      exact ih hins' has hapart hnodup hflat'

/-! ### The full text of a region -/

/-- Spans are put back in front of what was replaced before them. -/
theorem restoreFrom_spans {regions : List Bytes} (newestFirst : List (List Atom)) (t : Bytes) :
    Protected.restoreFrom (newestFirst.map (render regions.length) ++ regions.reverse) t =
      Protected.restoreFrom regions.reverse (putBack regions.length newestFirst t) := by
  induction newestFirst generalizing t with
  | nil => rfl
  | cons r rs ih =>
    have hlen : (rs.map (render regions.length) ++ regions.reverse).length =
        regions.length + rs.length := by
      rw [List.length_append, List.length_map, List.length_reverse, Nat.add_comm]
    rw [List.map_cons, List.cons_append, Protected.restoreFrom, hlen, ih, putBack]

/-- Where there is no NUL, there is no token. -/
theorem restoreFrom_of_notMem {t : Bytes} (ht : tokenMark ∉ t) (newestFirst : List Bytes) :
    Protected.restoreFrom newestFirst t = t := by
  induction newestFirst with
  | nil => rfl
  | cons r rs ih =>
    have hsearch := replaceFirst_token_append ht rs.length r []
    rw [List.append_nil] at hsearch
    rw [Protected.restoreFrom, hsearch,
      show Bytes.replaceFirst (token rs.length) r [] = [] from rfl, List.append_nil, ih]

namespace Outline

section

variable (settings : Settings) {line : Bytes} {k : Nat}

/-- A hole of the outline, filled step by step, is a piece of the line. -/
theorem exists_plain_split (hk : k ∈ holes (ofLine settings line).atoms) :
    ∃ us vs, (cutCode settings (plain line)).1 =
        us ++ ((ofLine settings line).fillMath [.hole k] ++ vs) ∧
      plain line = (ofLine settings line).fillCode us ++
        ((ofLine settings line).fillCode ((ofLine settings line).fillMath [.hole k]) ++
          (ofLine settings line).fillCode vs) := by
  obtain ⟨us, vs, hsplit⟩ := List.append_of_mem (mem_holes_iff.mp hk)
  have hmath := fillMath_atoms settings line
  rw [hsplit, fillMath, plug_append, ← List.singleton_append, plug_append] at hmath
  refine ⟨_, _, hmath.symm, ?_⟩
  rw [← fillCode_cutCode settings line, ← hmath]
  simp only [fillCode, fillMath, plug_append]

/-- What a hole of the outline stands for is a piece of the line, without holes. -/
theorem holes_fill_hole (hk : k ∈ holes (ofLine settings line).atoms) :
    holes ((ofLine settings line).fillCode ((ofLine settings line).fillMath [.hole k])) = [] := by
  obtain ⟨us, vs, -, hplain⟩ := exists_plain_split settings hk
  have hholes := congrArg holes hplain
  rw [holes_plain, holes_append, holes_append] at hholes
  exact (List.append_eq_nil_iff.mp (List.append_eq_nil_iff.mp hholes.symm).2).1

theorem mem_of_mem_fill_hole {b : UInt8} (hk : k ∈ holes (ofLine settings line).atoms)
    (hb : b ∈ (ofLine settings line).fill [.hole k]) : b ∈ line := by
  obtain ⟨us, vs, -, hplain⟩ := exists_plain_split settings hk
  rw [fill, ← List.append_nil (fillCode _ _)] at hb
  rw [← render_plain 0 line, hplain, render_append, render_append]
  rw [render_append] at hb
  exact List.mem_append_right _ (List.mem_append_left _ (by simpa using hb))

/-- The holes of a math span are holes for code, and none comes twice. -/
theorem holes_math {r : List Atom} (hk : k ∈ holes (ofLine settings line).atoms)
    (hr : (ofLine settings line).fillMath [.hole k] = r) :
    (holes r).Nodup ∧ ∀ j ∈ holes r, j < (ofLine settings line).codes.length := by
  obtain ⟨us, vs, hcode, -⟩ := exists_plain_split settings hk
  have hsub : (holes r).Sublist (List.range' 0 (ofLine settings line).codes.length) := by
    have hholes := holes_cutCode settings line
    rw [hcode, hr, holes_append, holes_append] at hholes
    rw [show (ofLine settings line).codes = (cutCode settings (plain line)).2 from rfl, ← hholes]
    exact (List.sublist_append_left ..).trans (List.sublist_append_right ..)
  refine ⟨hsub.nodup List.nodup_range', fun j hj => ?_⟩
  have hmem := hsub.subset hj
  rw [List.mem_range'_1] at hmem
  omega

/-- Putting the older regions back into a region. -/
theorem putBack_region (hmark : tokenMark ∉ line)
    (hmaths : ∀ r ∈ (ofLine settings line).maths, digitsJoin .text r = false)
    (hk : k ∈ holes (ofLine settings line).atoms) {r : List Atom}
    (hget : (ofLine settings line).regions[k]? = some r) (base : Nat) :
    putBack base ((ofLine settings line).regions.take k).reverse (render base r) =
      (ofLine settings line).fill [.hole k] := by
  have hins := insertable settings hmark
  have hinsTake : ∀ r' ∈ (ofLine settings line).regions.take k, Insertable r' := fun r' hr' =>
    hins r' (List.mem_of_mem_take hr')
  have hclean : .byte tokenMark ∉ r := (hins r (List.mem_of_getElem? hget)).clean
  have hflat := holes_of_mem_codes settings line
  by_cases hcode : k < (ofLine settings line).codes.length
  · have hr : r ∈ (ofLine settings line).codes := by
      rw [regions, List.getElem?_append_left hcode] at hget
      exact List.mem_of_getElem? hget
    have hplain : ∀ f : Nat → List Atom, plug f r = r := fun _ =>
      plug_of_holes_eq_nil (hflat r hr)
    rw [putBack_plug base _ hinsTake hclean (digitsJoin_of_holes .text (hflat r hr))
      (by simp [hflat r hr]) (by simp [hflat r hr]), fill_hole settings line hget, fill, fillCode,
      fillMath, hplain, hplain, hplain, render_eq_render (hflat r hr) base 0]
  · have hle : (ofLine settings line).codes.length ≤ k := Nat.not_lt.mp hcode
    have hr : r ∈ (ofLine settings line).maths ∧ (ofLine settings line).fillMath [.hole k] = r := by
      rw [regions, List.getElem?_append_right hle] at hget
      refine ⟨List.mem_of_getElem? hget, ?_⟩
      rw [fillMath, plug_hole, plug_nil, List.append_nil, spanAt, if_neg hcode,
        List.getD_eq_getElem?_getD, hget]
      rfl
    obtain ⟨hnodup, hlow⟩ := holes_math settings hk hr.2
    -- The tokens in a math span are those of code spans, which are older.
    have hold : ∀ j ∈ holes r, ((ofLine settings line).regions.take k)[j]? =
        (ofLine settings line).codes[j]? := by
      intro j hj
      have hjlt := hlow j hj
      rw [List.getElem?_take_of_lt (by omega), regions, List.getElem?_append_left hjlt]
    have hplug : plug (spanAt 0 ((ofLine settings line).regions.take k)) r =
        (ofLine settings line).fillCode r := by
      refine plug_congr fun j hj => ?_
      rw [spanAt, spanAt, if_neg (by omega), if_neg (by omega), List.getD_eq_getElem?_getD,
        List.getD_eq_getElem?_getD, Nat.sub_zero, hold j hj]
    have hholes := holes_fill_hole settings hk
    rw [hr.2] at hholes
    rw [putBack_plug base _ hinsTake hclean (hmaths r hr.1) hnodup (fun j hj r' hr' => ?_), hplug,
      fill, hr.2, render_eq_render hholes base 0]
    rw [hold j hj] at hr'
    exact hflat r' (List.mem_of_getElem? hr')

end

end Outline

/-- **The full text of a region is what its hole stands for**, whatever regions are older than those of
the outline. -/
theorem Outline.expand?_eq {rest : Bytes} (older : List Bytes) (settings : Settings)
    (hmark : tokenMark ∉ rest)
    (hmaths : ∀ r ∈ (Outline.ofLine settings rest).maths, digitsJoin .text r = false)
    {k : Nat} (hk : k ∈ holes (Outline.ofLine settings rest).atoms) :
    Protected.expand? (older ++ (Outline.ofLine settings rest).regions.map
        (render older.length)) (older.length + k) =
      some ((Outline.ofLine settings rest).fill [.hole k]) := by
  obtain ⟨r, -, hget⟩ := Outline.exists_region settings rest hk
  have hclean : tokenMark ∉ (Outline.ofLine settings rest).fill [.hole k] := fun h =>
    hmark (Outline.mem_of_mem_fill_hole settings hk h)
  rw [Protected.expand?, List.getElem?_append_right (Nat.le_add_right ..),
    Nat.add_sub_cancel_left, List.getElem?_map, hget, Option.map_some, Option.map_some,
    List.take_length_add_append, ← List.map_take, Protected.restore, List.reverse_append,
    ← List.map_reverse, restoreFrom_spans,
    Outline.putBack_region settings hmark hmaths hk hget, restoreFrom_of_notMem hclean]

end EmphasisSpacing
