import Mathlib.Tactic.Common
import EmphasisSpacing.Text.Bytes

/-!
# Cutting a byte string at a byte

A separator cuts a text in two (`Bytes.splitOn_append_cons`), and everything else about cutting follows:
the parts hold no separator (`Bytes.notMem_of_mem_splitOn`), and parts that hold none are found again
after they were joined (`Bytes.splitOn_joinWith`). The same for lines, where the line feed stays with
its line (`Bytes.splitAfterLf_append`).
-/

namespace EmphasisSpacing

namespace Bytes

section

variable {b : UInt8} {w : Bytes}

theorem splitOn_ne_nil (b : UInt8) (s : Bytes) : Bytes.splitOn b s ≠ [] := by
  cases s with
  | nil => exact List.cons_ne_nil _ _
  | cons c s =>
    rw [Bytes.splitOn]
    split_ifs
    · exact List.cons_ne_nil _ _
    · split <;> exact List.cons_ne_nil _ _

/-- **A separator keeps the parts on its two sides apart.** -/
theorem splitOn_append_cons (b : UInt8) (u s : Bytes) :
    Bytes.splitOn b (u ++ b :: s) = Bytes.splitOn b u ++ Bytes.splitOn b s := by
  induction u with
  | nil =>
    have hstep : Bytes.splitOn b (b :: s) = [] :: Bytes.splitOn b s := by
      rw [Bytes.splitOn, if_pos (beq_self_eq_true b)]
    exact hstep
  | cons c u ih =>
    rw [List.cons_append, Bytes.splitOn, Bytes.splitOn, ih]
    split_ifs
    · rfl
    · obtain ⟨p, ps, hsplit⟩ := List.exists_cons_of_ne_nil (splitOn_ne_nil b u)
      rw [hsplit]
      rfl

theorem splitOn_of_notMem (hw : b ∉ w) : Bytes.splitOn b w = [w] := by
  induction w with
  | nil => rfl
  | cons c w ih =>
    rw [List.mem_cons, not_or] at hw
    rw [Bytes.splitOn, if_neg (by simpa using Ne.symm hw.1), ih hw.2]

theorem splitOn_append (hw : b ∉ w) (s : Bytes) :
    Bytes.splitOn b (w ++ b :: s) = w :: Bytes.splitOn b s := by
  rw [splitOn_append_cons, splitOn_of_notMem hw, List.singleton_append]

theorem notMem_of_mem_splitOn {s q : Bytes} (hq : q ∈ Bytes.splitOn b s) : b ∉ q := by
  induction s generalizing q with
  | nil =>
    rw [Bytes.splitOn, List.mem_singleton] at hq
    simp [hq]
  | cons c s ih =>
    rw [Bytes.splitOn] at hq
    split_ifs at hq with hc
    · rcases List.mem_cons.mp hq with rfl | hq
      · simp
      · exact ih hq
    · have hne : b ≠ c := fun h => hc (by simp [h])
      -- The byte joins the first part; the other parts are those of the rest.
      split at hq
      · rw [List.mem_singleton.mp hq]
        simpa using hne
      · next p ps hsplit =>
        rcases List.mem_cons.mp hq with rfl | hq
        · have hp : b ∉ p := ih (by rw [hsplit]; exact List.mem_cons_self ..)
          simp [hne, hp]
        · exact ih (by rw [hsplit]; exact List.mem_cons_of_mem _ hq)

theorem joinWith_concat (sep : Bytes) {ps : List Bytes} (hne : ps ≠ []) (p : Bytes) :
    joinWith sep (ps ++ [p]) = joinWith sep ps ++ sep ++ p := by
  induction ps with
  | nil => exact absurd rfl hne
  | cons q ps ih =>
    cases ps with
    | nil => rfl
    | cons r ps =>
      rw [List.cons_append, List.cons_append, joinWith, ← List.cons_append,
        ih (List.cons_ne_nil r ps), joinWith]
      simp only [List.append_assoc]

/-- Parts without the separator are found again after they were joined. -/
theorem splitOn_joinWith {ps : List Bytes} (hne : ps ≠ []) (hps : ∀ p ∈ ps, b ∉ p) :
    Bytes.splitOn b (joinWith [b] ps) = ps := by
  induction ps with
  | nil => exact absurd rfl hne
  | cons p ps ih =>
    have hp : b ∉ p := hps p (List.mem_cons_self ..)
    cases ps with
    | nil => exact splitOn_of_notMem hp
    | cons q qs =>
      rw [joinWith, List.append_assoc, List.singleton_append, splitOn_append hp,
        ih (List.cons_ne_nil q qs) fun r hr => hps r (List.mem_cons_of_mem _ hr)]

end

/-! ### Cutting at the last separator -/

theorem cutAt_eq_some {b : UInt8} {s l r : Bytes} (h : cutAt b s = some (l, r)) :
    s = l ++ b :: r := by
  induction s generalizing l with
  | nil => cases h
  | cons c s ih =>
    rw [cutAt] at h
    split_ifs at h with hc
    · obtain ⟨rfl, rfl⟩ := Prod.mk.inj (Option.some.inj h)
      rw [beq_iff_eq.mp hc, List.nil_append]
    · obtain ⟨⟨l', r'⟩, hcut, hpair⟩ := Option.map_eq_some_iff.mp h
      obtain ⟨rfl, rfl⟩ := Prod.mk.inj hpair
      rw [ih hcut, List.cons_append]

theorem exists_cutAt {b : UInt8} {s : Bytes} (h : b ∈ s) : ∃ l r, cutAt b s = some (l, r) := by
  induction s with
  | nil => cases h
  | cons c s ih =>
    rw [cutAt]
    by_cases hc : c = b
    · exact ⟨[], s, if_pos (beq_iff_eq.mpr hc)⟩
    · obtain ⟨l, r, hcut⟩ := ih ((List.mem_cons.mp h).resolve_left (Ne.symm hc))
      refine ⟨c :: l, r, ?_⟩
      rw [if_neg (by simpa using hc), hcut]
      rfl

theorem cutAt_append {b : UInt8} {w : Bytes} (hw : b ∉ w) (s : Bytes) :
    cutAt b (w ++ b :: s) = some (w, s) := by
  induction w with
  | nil => rw [List.nil_append, cutAt, if_pos (beq_self_eq_true b)]
  | cons c w ih =>
    rw [List.mem_cons, not_or] at hw
    rw [List.cons_append, cutAt, if_neg (by simpa using Ne.symm hw.1), ih hw.2]
    rfl

theorem cutAt_of_notMem {b : UInt8} {s : Bytes} (h : b ∉ s) : cutAt b s = none := by
  induction s with
  | nil => rfl
  | cons c s ih =>
    rw [List.mem_cons, not_or] at h
    rw [cutAt, if_neg (by simpa using Ne.symm h.1), ih h.2]
    rfl

/-- The last separator is the one with none behind it. -/
theorem cutAtLast_append {b : UInt8} {w : Bytes} (hw : b ∉ w) (s : Bytes) :
    cutAtLast b (s ++ b :: w) = some (s, w) := by
  have hcut := cutAt_append (w := w.reverse) (by rwa [List.mem_reverse]) s.reverse
  rw [cutAtLast, List.reverse_append, List.reverse_cons, List.append_assoc, List.singleton_append,
    hcut]
  simp

theorem cutAtLast_of_notMem {b : UInt8} {s : Bytes} (h : b ∉ s) : cutAtLast b s = none := by
  rw [cutAtLast, cutAt_of_notMem (by rwa [List.mem_reverse])]
  rfl

theorem exists_cutAtLast {b : UInt8} {s : Bytes} (h : b ∈ s) :
    ∃ l r, cutAtLast b s = some (l, r) ∧ s = l ++ b :: r := by
  obtain ⟨r, l, hcut⟩ := exists_cutAt (List.mem_reverse.mpr h)
  have hs := congrArg List.reverse (cutAt_eq_some hcut)
  refine ⟨l.reverse, r.reverse, ?_, by simpa using hs⟩
  rw [cutAtLast, hcut]
  rfl

/-! ### Lines -/

theorem splitAfterLfFrom_append {before w : Bytes} (hw : lf ∉ w) (s : Bytes) :
    splitAfterLfFrom before (w ++ lf :: s) =
      (before.reverse ++ w ++ [lf]) :: splitAfterLf s := by
  induction w generalizing before with
  | nil =>
    cases before <;> simp [splitAfterLfFrom, splitAfterLf]
  | cons c w ih =>
    rw [List.mem_cons, not_or] at hw
    have hc : (c == lf) = false := beq_eq_false_iff_ne.mpr (Ne.symm hw.1)
    have hstep : splitAfterLfFrom before (c :: (w ++ lf :: s)) =
        splitAfterLfFrom (c :: before) (w ++ lf :: s) := by
      cases before <;> simp [splitAfterLfFrom, hc]
    rw [List.cons_append, hstep, ih hw.2, List.reverse_cons, List.append_assoc before.reverse,
      List.singleton_append]

/-- A line feed ends a line. -/
theorem splitAfterLf_append {w : Bytes} (hw : lf ∉ w) (s : Bytes) :
    splitAfterLf (w ++ lf :: s) = (w ++ [lf]) :: splitAfterLf s :=
  splitAfterLfFrom_append hw s

/-- Whether a text is one line with its line feed. -/
def IsLine (l : Bytes) : Prop := ∃ w, lf ∉ w ∧ l = w ++ [lf]

/-- Lines one after the other are split where they end. -/
theorem splitAfterLf_flatten {ls : List Bytes} (h : ∀ l ∈ ls, IsLine l) :
    splitAfterLf ls.flatten = ls := by
  induction ls with
  | nil => rfl
  | cons l ls ih =>
    rw [List.forall_mem_cons] at h
    obtain ⟨⟨w, hw, rfl⟩, hls⟩ := h
    rw [List.flatten_cons, List.append_assoc, List.singleton_append, splitAfterLf_append hw, ih hls]

end Bytes

/-! ### Beginnings and ends of one part -/

section

variable {α : Type} {b : α} {p u v : List α}

/-- A beginning without the separator lies in the first part. -/
theorem isPrefix_of_notMem (hp : b ∉ p) (h : p <+: u ++ b :: v) : p <+: u := by
  obtain ⟨t, ht⟩ := h
  rcases List.append_eq_append_iff.mp ht with ⟨r, rfl, -⟩ | ⟨r, rfl, hr⟩
  · exact List.prefix_append ..
  · cases r with
    | nil => exact ⟨[], by simp⟩
    | cons c r =>
      rw [List.cons_append] at hr
      rw [(List.cons.inj hr).1] at hp
      simp at hp

/-- An end without the separator lies in the last part. -/
theorem isSuffix_of_notMem (hp : b ∉ p) (h : p <:+ u ++ b :: v) : p <:+ v := by
  rw [← List.reverse_prefix] at h ⊢
  rw [List.reverse_append, List.reverse_cons, List.append_assoc, List.singleton_append] at h
  exact isPrefix_of_notMem (by rwa [List.mem_reverse]) h

/-- A beginning and an end without the separator do not overlap where it stands between them. -/
theorem exists_between {p q s : List α} (hp : p <+: s) (hq : q <:+ s) (hs : b ∈ s) (hbp : b ∉ p)
    (hbq : b ∉ q) : ∃ m, s = p ++ m ++ q ∧ b ∈ m := by
  obtain ⟨t, rfl⟩ := hp
  have ht : b ∈ t := (List.mem_append.mp hs).resolve_left hbp
  obtain ⟨u, v, rfl⟩ := List.append_of_mem ht
  rw [← List.append_assoc] at hq
  obtain ⟨r, rfl⟩ := isSuffix_of_notMem hbq hq
  exact ⟨u ++ b :: r, by simp, by simp⟩

end

end EmphasisSpacing
