import Mathlib.Data.List.Basic
import EmphasisSpacing.Proofs.Cut

/-!
# Which spans are found

Spans are found in one pass that remembers at most one delimiter, the one that waits for its partner.
This module says what comes out of it in terms of positions alone, for every text.

A delimiter is *live* where it is not escaped (`Delimiter.IsLive`). A span starts and ends with a live
delimiter, has something between them, and no live delimiter among it (`Delimiter.Delimits`). What is left
over between the spans could not have been paired: the live delimiters there form an unbroken block
(`Delimiter.Block`).

The invariant of the pass is `Delimiter.Waits`: since the end of the last span, no live delimiter was
met, or the waiting one is the last of a block. `Delimiter.paired_delimitedFrom` follows it along the
text, and `mathSpans_maximal` reads the result off for the whole list of spans.
-/

namespace EmphasisSpacing

namespace Delimiter

/-! ### Live delimiters -/

/-- Whether a delimiter stands at a position of a text and the byte before it does not escape it. -/
def IsLive (d : Delimiter) (t : Bytes) (i : Nat) : Prop :=
  t[i]? = some d.byte ∧ ∀ j, j + 1 = i → t[j]? ≠ d.escape

/-- Whether nothing but delimiters stands from one position to another, both included. -/
def Block (d : Delimiter) (t : Bytes) (p q : Nat) : Prop :=
  ∀ k, p ≤ k → k ≤ q → t[k]? = some d.byte

/-- Whether a range reaches from a live delimiter to the next one, with something between them. -/
structure Delimits (d : Delimiter) (t : Bytes) (r : Range) : Prop where
  start_live : d.IsLive t r.start
  stop_live : d.IsLive t (r.stop - 1)
  long : r.start + 3 ≤ r.stop
  not_live : ∀ i, r.start < i → i + 1 < r.stop → ¬ d.IsLive t i

section

variable {d : Delimiter} {t pre s : Bytes} {b : UInt8} {dead : Bool} {lo i o p q : Nat} {r : Range}
  {rs : List Range}

theorem Block.concat (h : d.Block t p o) (ho : t[o + 1]? = some d.byte) : d.Block t p (o + 1) := by
  intro k hp hk
  by_cases hlast : k = o + 1
  · rw [hlast]
    exact ho
  · exact h k hp (by omega)

theorem Block.mono (h : d.Block t p o) (hq : q ≤ o) : d.Block t p q :=
  fun k hp hk => h k hp (Nat.le_trans hk hq)

/-- Whether a delimiter behind some bytes is escaped: the last of them tells. -/
def deadAfter (d : Delimiter) (pre : Bytes) : Bool := pre.getLast?.any fun b => d.escape == some b

theorem deadAfter_concat (pre : Bytes) (b : UInt8) :
    d.deadAfter (pre ++ [b]) = (d.escape == some b) := by
  rw [deadAfter, List.getLast?_concat, Option.any_some]

/-- What the pass tests at a position is that a live delimiter stands there. -/
theorem isLive_length_iff :
    d.IsLive (pre ++ b :: s) pre.length ↔ (b == d.byte && !d.deadAfter pre) = true := by
  have hbyte : (pre ++ b :: s)[pre.length]? = some b := by simp
  have hescape : (∀ j, j + 1 = pre.length → (pre ++ b :: s)[j]? ≠ d.escape) ↔
      d.deadAfter pre = false := by
    rcases List.eq_nil_or_concat' pre with rfl | ⟨init, last, rfl⟩
    · simp [deadAfter]
    · have hlast : (init ++ [last] ++ b :: s)[init.length]? = some last := by simp
      rw [deadAfter_concat, beq_eq_false_iff_ne]
      constructor
      · intro h hesc
        exact h init.length (by simp) (hlast.trans hesc.symm)
      · intro h j hj hesc
        obtain rfl : j = init.length := by simpa using hj
        exact h (hesc.symm.trans hlast)
  unfold IsLive
  rw [hbyte, hescape]
  simp

/-! ### The pass -/

/-- What is known of the live delimiters from `lo` up to `i`: without a waiting one there is none, and
otherwise the waiting one is the last of them and the end of a block. -/
def Waits (d : Delimiter) (t : Bytes) (lo i : Nat) : (opening : Option Nat) → Prop
  | none => ∀ p, lo ≤ p → p < i → ¬ d.IsLive t p
  | some o => lo ≤ o ∧ o < i ∧ d.IsLive t o ∧
      ∀ p, lo ≤ p → p < i → d.IsLive t p → p ≤ o ∧ d.Block t p o

/-- What is found from `lo` on: spans one after the other, and between them only blocks of live
delimiters, of which one may end where a span starts. -/
def Paired (d : Delimiter) (t : Bytes) : (lo : Nat) → List Range → Prop
  | lo, [] => ∀ p q, lo ≤ p → p ≤ q → d.IsLive t p → d.IsLive t q → d.Block t p q
  | lo, r :: rs => lo ≤ r.start ∧ d.Delimits t r ∧
      (∀ p, lo ≤ p → p < r.start → d.IsLive t p → d.Block t p r.start) ∧ d.Paired t r.stop rs

/-- A position without a live delimiter changes nothing. -/
theorem Waits.skip {opening : Option Nat} (h : d.Waits t lo i opening) (hi : ¬ d.IsLive t i) :
    d.Waits t lo (i + 1) opening := by
  have hbefore : ∀ p, p < i + 1 → d.IsLive t p → p < i := by
    intro p hp hlive
    refine Nat.lt_of_le_of_ne (Nat.le_of_lt_succ hp) ?_
    rintro rfl
    exact hi hlive
  cases opening with
  | none => exact fun p hlo hp hlive => h p hlo (hbefore p hp hlive) hlive
  | some o =>
    obtain ⟨hlo, ho, hlive, hlast⟩ := h
    exact ⟨hlo, by omega, hlive, fun p hp hpi hpl => hlast p hp (hbefore p hpi hpl) hpl⟩

/-- A live delimiter starts to wait. -/
theorem Waits.start (h : d.Waits t lo i none) (hlo : lo ≤ i) (hi : d.IsLive t i) :
    d.Waits t lo (i + 1) (some i) := by
  refine ⟨hlo, by omega, hi, fun p hp hpi hpl => ?_⟩
  have hpeq : p = i := by
    by_contra hne
    exact h p hp (by omega) hpl
  subst hpeq
  refine ⟨Nat.le_refl p, fun k hk hkp => ?_⟩
  obtain rfl : k = p := by omega
  exact hpl.1

/-- A live delimiter right behind a waiting one takes its place, and the block is longer by one. -/
theorem Waits.replace (h : d.Waits t lo (o + 1) (some o)) (hi : d.IsLive t (o + 1)) :
    d.Waits t lo (o + 2) (some (o + 1)) := by
  obtain ⟨hlo, -, -, hlast⟩ := h
  refine ⟨by omega, by omega, hi, fun p hp hpi hpl => ?_⟩
  by_cases hpo : p = o + 1
  · subst hpo
    refine ⟨Nat.le_refl _, fun k hk hko => ?_⟩
    obtain rfl : k = o + 1 := by omega
    exact hi.1
  · obtain ⟨hle, hblock⟩ := hlast p hp (by omega) hpl
    exact ⟨by omega, hblock.concat hi.1⟩

/-- A live delimiter further behind is the partner of the waiting one. -/
theorem Waits.delimits (h : d.Waits t lo i (some o)) (hne : i ≠ o + 1) (hi : d.IsLive t i) :
    d.Delimits t ⟨o, i + 1⟩ := by
  obtain ⟨hlo, ho, hlive, hlast⟩ := h
  refine ⟨hlive, hi, ?_, fun j (hj : o < j) (hji : j + 1 < i + 1) hjl => ?_⟩
  · show o + 3 ≤ i + 1
    omega
  · have hjo : j ≤ o := (hlast j (by omega) (by omega) hjl).1
    omega

/-- **The pass finds spans and leaves blocks.** The text starts with `pre`, which was read, and goes on
with `s`. -/
theorem paired_delimitedFrom (d : Delimiter) (t s : Bytes) :
    ∀ (pre : Bytes) (lo : Nat) (opening : Option Nat), t = pre ++ s → lo ≤ pre.length →
      d.Waits t lo pre.length opening →
      d.Paired t lo
        (delimitedFrom d.byte d.escape pre.length opening (d.deadAfter pre) s) := by
  induction s with
  | nil =>
    intro pre lo opening ht hlo hwaits p q hp hpq hpl hql
    -- Every live delimiter of the text has been met.
    have hq : q < pre.length := by
      have hlt := (List.getElem?_eq_some_iff.mp hql.1).1
      rwa [ht, List.append_nil] at hlt
    cases opening with
    | none => exact absurd hql (hwaits q (by omega) hq)
    | some o =>
      obtain ⟨-, -, -, hlast⟩ := hwaits
      have hqo := (hlast q (by omega) hq hql).1
      exact (hlast p hp (by omega) hpl).2.mono hqo
  | cons b s ih =>
    intro pre lo opening ht hlo hwaits
    have hnext : t = (pre ++ [b]) ++ s := by rw [ht, List.append_assoc, List.singleton_append]
    have hlen : (pre ++ [b]).length = pre.length + 1 := List.length_append
    have htest : d.IsLive t pre.length ↔ (b == d.byte && !d.deadAfter pre) = true := by
      rw [ht]
      exact isLive_length_iff
    cases hlive : (b == d.byte && !d.deadAfter pre) with
    | false =>
      have hdead : ¬ d.IsLive t pre.length := by
        rw [htest, hlive]
        decide
      have hrec := ih (pre ++ [b]) lo opening hnext (by omega) (by rw [hlen]; exact hwaits.skip hdead)
      rw [hlen, deadAfter_concat] at hrec
      rw [delimitedFrom_cons hlive]
      exact hrec
    | true =>
      have hhere : d.IsLive t pre.length := htest.mpr hlive
      obtain ⟨rfl, halive⟩ : b = d.byte ∧ d.deadAfter pre = false := by simpa using hlive
      have hclear : d.deadAfter (pre ++ [d.byte]) = false := by
        rw [deadAfter_concat]
        cases d <;> decide
      rw [halive]
      cases opening with
      | none =>
        have hrec := ih (pre ++ [d.byte]) lo (some pre.length) hnext (by omega)
          (by rw [hlen]; exact hwaits.start hlo hhere)
        rw [hlen, hclear] at hrec
        rw [delimitedFrom_open]
        exact hrec
      | some o =>
        by_cases hadjacent : pre.length = o + 1
        · rw [hadjacent] at hwaits hhere
          have hrec := ih (pre ++ [d.byte]) lo (some (o + 1)) hnext (by omega)
            (by rw [hlen, hadjacent]; exact hwaits.replace hhere)
          rw [hlen, hclear, hadjacent] at hrec
          rw [hadjacent, delimitedFrom_reopen]
          exact hrec
        · have hrec := ih (pre ++ [d.byte]) (pre.length + 1) none hnext (by omega)
            (fun p hp hpi => by omega)
          rw [hlen, hclear] at hrec
          rw [delimitedFrom_close hadjacent]
          have hspan := hwaits.delimits hadjacent hhere
          obtain ⟨hlo', ho, -, hlast⟩ := hwaits
          exact ⟨hlo', hspan, fun p hp hpo hpl => (hlast p hp (Nat.lt_trans hpo ho) hpl).2, hrec⟩

/-! ### All spans of a text -/

theorem Paired.le_start (h : d.Paired t lo rs) (hr : r ∈ rs) : lo ≤ r.start := by
  induction rs generalizing lo with
  | nil => cases hr
  | cons first rs ih =>
    obtain ⟨hlo, hspan, -, hrest⟩ := h
    rcases List.mem_cons.mp hr with rfl | hr
    · exact hlo
    · have hlong := hspan.long
      exact Nat.le_trans (by omega) (ih hrest hr)

theorem Paired.pairwise (h : d.Paired t lo rs) : rs.Pairwise fun r r' => r.stop ≤ r'.start := by
  induction rs generalizing lo with
  | nil => exact .nil
  | cons first rs ih =>
    obtain ⟨-, -, -, hrest⟩ := h
    exact .cons (fun r hr => hrest.le_start hr) (ih hrest)

theorem Paired.delimits (h : d.Paired t lo rs) (hr : r ∈ rs) : d.Delimits t r := by
  induction rs generalizing lo with
  | nil => cases hr
  | cons first rs ih =>
    obtain ⟨-, hspan, -, hrest⟩ := h
    rcases List.mem_cons.mp hr with rfl | hr
    · exact hspan
    · exact ih hrest hr

/-- Two live delimiters that are left over with no span between them lie in one block. -/
theorem Paired.block (h : d.Paired t lo rs) (hlo : lo ≤ p) (hpq : p ≤ q) (hp : d.IsLive t p)
    (hq : d.IsLive t q) (hpout : ∀ r ∈ rs, ¬ (r.start ≤ p ∧ p < r.stop))
    (hqout : ∀ r ∈ rs, ¬ (r.start ≤ q ∧ q < r.stop))
    (hbetween : ∀ r ∈ rs, ¬ (p < r.start ∧ r.stop ≤ q)) : d.Block t p q := by
  induction rs generalizing lo with
  | nil => exact h p q hlo hpq hp hq
  | cons first rs ih =>
    obtain ⟨-, -, hblock, hrest⟩ := h
    rw [List.forall_mem_cons] at hpout hqout hbetween
    by_cases hfirst : p < first.start
    · -- The first span lies behind both delimiters, and the block in front of it holds them.
      exact (hblock p hlo hfirst hp).mono (by omega)
    · exact ih hrest (by omega) hpout.2 hqout.2 hbetween.2

end

end Delimiter

open Delimiter in
/-- **Math spans are well formed and nothing more could be paired.** In every text the spans are
disjoint and in increasing order, each of them reaches from a live dollar sign to the next one with
something between them, and two live dollar signs outside all spans with no span between them are joined
by dollar signs. -/
theorem mathSpans_maximal (s : Bytes) :
    (mathSpans s).Pairwise (fun r r' => r.stop ≤ r'.start) ∧
      (∀ r ∈ mathSpans s, math.Delimits s r) ∧
      ∀ p q, p ≤ q → math.IsLive s p → math.IsLive s q →
        (∀ r ∈ mathSpans s, ¬ (r.start ≤ p ∧ p < r.stop)) →
        (∀ r ∈ mathSpans s, ¬ (r.start ≤ q ∧ q < r.stop)) →
        (∀ r ∈ mathSpans s, ¬ (p < r.start ∧ r.stop ≤ q)) → math.Block s p q := by
  have hpaired : math.Paired s 0 (mathSpans s) :=
    paired_delimitedFrom math s s [] 0 none rfl (Nat.le_refl 0) fun p _ hp => by simp at hp
  refine ⟨hpaired.pairwise, fun r hr => hpaired.delimits hr, ?_⟩
  intro p q hpq hp hq hpout hqout hbetween
  exact hpaired.block (Nat.zero_le p) hpq hp hq hpout hqout hbetween

example : mathSpans (bytes "$$x$ \\$ $y$ $$") = [⟨1, 4⟩, ⟨8, 11⟩] := by decide +kernel

end EmphasisSpacing
