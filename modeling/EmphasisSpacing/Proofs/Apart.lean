import EmphasisSpacing.Proofs.OnLine
import EmphasisSpacing.Proofs.Splitting

/-!
# Digits between regions

Whether digits and nothing else stand between two neighbouring regions is asked about the protected
text, where each region is a number between two NULs: cut at the NULs, the text alternates between
text and numbers (`betweenTokens`). `regionsJoined` asks it for the protected text of a line and for
each of its regions, since a math region may hold the tokens of code regions.

A line that passes is `Apart`: its outline, and the outline of each math region, has no such digits
(`apart_of_not_regionsJoined`). A stage cannot change that (`apart_fill`), so the stages fill the
outlines of such a line from first to last.
-/

namespace EmphasisSpacing

open LineSymbol Atom Delimiter

/-! ### Protected text between its tokens -/

/-- The texts between two tokens, where the parts of a protected text are its texts and the numbers
of its tokens in turn. -/
def betweenTokens : List Bytes → List Bytes
  | _ :: _ :: gap :: number :: parts => gap :: betweenTokens (gap :: number :: parts)
  | _ => []

/-- Whether digits and nothing else stand between two neighbouring tokens. -/
def digitsBetween (text : Bytes) : Bool :=
  (betweenTokens (Bytes.splitOn tokenMark text)).any fun gap =>
    !gap.isEmpty && gap.all Bytes.isDigit

/-- Whether digits and nothing else stand between two neighbouring regions of a line that is
scanned, or between two regions inside one of its regions. -/
def regionsJoined (settings : Settings) (line : Bytes) : Bool :=
  let p := Protected.ofLine settings line
  needsScan line && (p.text :: p.regions).any digitsBetween

/-- A token cuts a text in two. -/
theorem splitOn_token {w : Bytes} (hw : tokenMark ∉ w) (k : Nat) (s : Bytes) :
    Bytes.splitOn tokenMark (w ++ (token k ++ s)) =
      w :: Integer.ofNat k :: Bytes.splitOn tokenMark s := by
  rw [token, List.append_assoc, List.cons_append, Bytes.splitOn_append hw, List.singleton_append,
    Bytes.splitOn_append (tokenMark_notMem_ofNat k)]

theorem mem_betweenTokens_cons {gap x number : Bytes} {parts : List Bytes}
    (h : gap ∈ betweenTokens parts) : gap ∈ betweenTokens (x :: number :: parts) := by
  match parts with
  | [] => cases h
  | [_] => cases h
  | _ :: _ :: _ => exact List.mem_cons_of_mem _ h

/-- **Digits that join holes stand between the tokens of the holes.** Induction on the atoms; `w` is
what was read since the last token, and `behind` tells what that can be. -/
theorem exists_betweenTokens (base : Nat) {as : List Atom} (has : .byte tokenMark ∉ as) :
    ∀ {behind : Behind} {w : Bytes}, digitsJoin behind as = true → tokenMark ∉ w →
      (behind = .digits → w ≠ [] ∧ ∀ b ∈ w, Bytes.isDigit b = true) → (behind = .hole → w = []) →
      ∃ gap, gap ≠ [] ∧ (∀ b ∈ gap, Bytes.isDigit b = true) ∧
        (∀ x number, gap ∈ betweenTokens
          (x :: number :: Bytes.splitOn tokenMark (w ++ render base as))) ∧
        (behind = .text → gap ∈ betweenTokens
          (Bytes.splitOn tokenMark (w ++ render base as))) := by
  induction as with
  | nil =>
    intro behind w h
    cases h
  | cons a as ih =>
    rw [List.mem_cons, not_or] at has
    cases a with
    | byte b =>
      intro behind w h hw hdigits hhole
      have hb : b ≠ tokenMark := fun hb => has.1 (by rw [hb])
      have hw' : tokenMark ∉ w ++ [b] := by
        rw [List.mem_append, List.mem_singleton, not_or]
        exact ⟨hw, Ne.symm hb⟩
      have hrender : w ++ render base (.byte b :: as) = (w ++ [b]) ++ render base as := by
        rw [render_cons, bytes_byte, List.append_assoc]
      rw [digitsJoin] at h
      rw [hrender]
      split_ifs at h with hdigit
      · -- One more digit behind a hole.
        rw [Bool.and_eq_true, bne_iff_ne] at hdigit
        have hall : ∀ x ∈ w ++ [b], Bytes.isDigit x = true := by
          intro x hx
          rcases List.mem_append.mp hx with hx | hx
          · cases behind with
            | text => exact absurd rfl hdigit.1
            | hole => rw [hhole rfl] at hx; cases hx
            | digits => exact (hdigits rfl).2 x hx
          · rw [List.mem_singleton.mp hx]
            exact hdigit.2
        obtain ⟨gap, hne, hgap, hmem, -⟩ := ih has.2 h hw' (fun _ => ⟨by simp, hall⟩) (by simp)
        exact ⟨gap, hne, hgap, hmem, fun htext => absurd htext hdigit.1⟩
      · obtain ⟨gap, hne, hgap, hmem, htext⟩ := ih has.2 h hw' (by simp) (by simp)
        exact ⟨gap, hne, hgap, hmem, fun _ => htext rfl⟩
    | hole k =>
      intro behind w h hw hdigits hhole
      rw [digitsJoin, Bool.or_eq_true, beq_iff_eq] at h
      rw [render_cons, bytes_hole, splitOn_token hw]
      -- The token ends `w`. If that is not the gap looked for, the search starts anew behind the
      -- token.
      by_cases hbehind : behind = .digits
      · obtain ⟨hne, hall⟩ := hdigits hbehind
        refine ⟨w, hne, hall, fun x number => List.mem_cons_self .., fun htext => ?_⟩
        rw [hbehind] at htext
        cases htext
      · obtain ⟨gap, hne, hgap, hmem, -⟩ := ih has.2 (h.resolve_left hbehind)
          (List.not_mem_nil (a := tokenMark)) (by simp) (fun _ => rfl)
        rw [List.nil_append] at hmem
        exact ⟨gap, hne, hgap, fun x number => mem_betweenTokens_cons (hmem _ _),
          fun _ => hmem _ _⟩

theorem digitsBetween_of_mem {text gap : Bytes}
    (h : gap ∈ betweenTokens (Bytes.splitOn tokenMark text)) (hne : gap ≠ [])
    (hgap : ∀ b ∈ gap, Bytes.isDigit b = true) : digitsBetween text = true := by
  refine List.any_eq_true.mpr ⟨gap, h, ?_⟩
  rw [List.all_eq_true.mpr hgap, Bool.and_true, Bool.not_eq_true', List.isEmpty_eq_false_iff]
  exact hne

theorem digitsBetween_render (base : Nat) {as : List Atom} (has : .byte tokenMark ∉ as)
    (h : digitsJoin .text as = true) : digitsBetween (render base as) = true := by
  obtain ⟨gap, hne, hgap, -, hmem⟩ := exists_betweenTokens base has h (List.not_mem_nil
    (a := tokenMark)) (by simp) (by simp)
  exact digitsBetween_of_mem (hmem rfl) hne hgap

/-- In front of the outline stands at most the token of a bullet, with a blank behind it. -/
theorem Frame.digitsBetween_text {head front : Bytes} {regions : List Bytes}
    (hframe : Frame head front regions) {as : List Atom} (has : .byte tokenMark ∉ as)
    (h : digitsJoin .text as = true) :
    digitsBetween (head ++ render regions.length as) = true := by
  cases hframe with
  | bare => exact digitsBetween_render 0 has h
  | bullet indent b hindent hb =>
    obtain ⟨gap, hne, hgap, hmem, -⟩ :=
      exists_betweenTokens _ has h (tokenMark_notMem_blank hb) (by simp) (by simp)
    refine digitsBetween_of_mem ?_ hne hgap
    have hsplit := splitOn_token (List.not_mem_nil (a := tokenMark)) 0
      ([b] ++ render [indent ++ [Bytes.star]].length as)
    rw [List.nil_append] at hsplit
    rw [List.append_assoc, hsplit]
    exact hmem _ _

/-- Digits between the code spans of a math span stand between the tokens of its region. -/
theorem Frame.not_digitsJoin {settings : Settings} {head front rest : Bytes}
    {regions : List Bytes} (hframe : Frame head front regions)
    (hlength : bulletLength (front ++ rest) = front.length - 1) (hmark : tokenMark ∉ rest)
    (hnone : ∀ t ∈ (Protected.ofLine settings (front ++ rest)).regions,
      ¬ digitsBetween t = true) :
    ∀ r ∈ (Outline.ofLine settings rest).maths, digitsJoin .text r = false := by
  intro r hr
  have hregion : r ∈ (Outline.ofLine settings rest).regions := List.mem_append_right _ hr
  rw [hframe.ofLine_eq settings hlength] at hnone
  rw [← Bool.not_eq_true]
  intro hjoin
  refine hnone (render regions.length r) ?_ (digitsBetween_render _ ?_ hjoin)
  · exact List.mem_append_right _ (List.mem_map_of_mem hregion)
  · exact fun hatom => hmark (Outline.mem_of_mem_region settings hregion hatom)

/-- **If no digits stand between the regions of a line, its outline is apart.** -/
theorem apart_of_digitsBetween {settings : Settings} {line : Bytes} (hmark : tokenMark ∉ line)
    (hnone : ∀ t ∈ (Protected.ofLine settings line).text :: (Protected.ofLine settings line).regions,
      ¬ digitsBetween t = true) :
    Apart settings line := by
  obtain ⟨head, front, regions, rest, hframe, rfl, hlength⟩ := exists_frame line
  have hrest : tokenMark ∉ rest := fun hr => hmark (List.mem_append_right _ hr)
  have houtline := Outline.ofLine_append settings (fun d => hframe.ignores_front d) rest
  rw [List.forall_mem_cons] at hnone
  constructor
  · rw [houtline, digitsJoin_plain, ← Bool.not_eq_true]
    intro hjoin
    refine hnone.1 ?_
    rw [hframe.ofLine_eq settings hlength]
    refine hframe.digitsBetween_text ?_ hjoin
    exact fun hatom => hrest (Outline.mem_of_mem_atoms settings hatom)
  · rw [houtline]
    exact hframe.not_digitsJoin hlength hrest hnone.2

theorem apart_of_not_regionsJoined {settings : Settings} {line : Bytes}
    (hscan : needsScan line = true) (h : regionsJoined settings line = false) :
    Apart settings line := by
  obtain ⟨-, hmark, -⟩ := needsScan_iff.mp hscan
  rw [regionsJoined, hscan, Bool.true_and] at h
  exact apart_of_digitsBetween hmark (List.any_eq_false.mp h)

/-! ### Stages keep regions apart -/

/-- **A stage on a line whose regions are apart fills a respaced outline.** -/
theorem Stage.exists_fill (stage : Stage) {settings : Settings} {line : Bytes}
    (hscan : needsScan line = true) (hapart : Apart settings line) :
    ∃ as, Respaced (Outline.ofLine settings line).atoms as ∧
      stage.onLine settings line = (Outline.ofLine settings line).fill as := by
  obtain ⟨head, front, regions, rest, gs, h⟩ := exists_passage stage settings hscan
  exact ⟨plain front ++ gs, h.respaced_outline, by rw [h.onLine_eq_fill hapart, h.fill_eq]⟩

/-- A filled outline has the same regions, and they are apart as before. -/
theorem apart_fill {settings : Settings} {line : Bytes} {as : List Atom}
    (hapart : Apart settings line) (h : Respaced (Outline.ofLine settings line).atoms as) :
    Apart settings ((Outline.ofLine settings line).fill as) := by
  have houtline := Outline.ofLine_fill h
  constructor
  · rw [houtline, ← digitsJoin_respaced h]
    exact hapart.atoms
  · rw [houtline]
    exact hapart.maths

end EmphasisSpacing
