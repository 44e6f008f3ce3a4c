import Mathlib.Tactic.Common
import EmphasisSpacing.Document.Block
import EmphasisSpacing.Proofs.Token

/-!
# Trimming white space

`WhiteSpace.trim` takes whole characters from both ends of a text: `White` texts, which are
sequences of white space characters. So a text is its trimmed form between two white texts, and two
questions that are asked about trimmed lines can be asked about the lines themselves: what the
trimmed line starts with (`startsWith_trim_iff`), and whether it is a thematic break of stars
(`isThematicBreak_trim_iff`).
-/

namespace EmphasisSpacing

namespace WhiteSpace

/-- The bytes of one white space character. -/
inductive IsSpace : Bytes → Prop
  | ascii (b : UInt8) (hb : isAscii b = true) : IsSpace [b]
  | latin (b : UInt8) (hb : b = 0x85 ∨ b = 0xA0) : IsSpace [0xC2, b]
  | ogham : IsSpace [0xE1, 0x9A, 0x80]
  | general (b₁ b₂ : UInt8) (hb : isGeneral b₁ b₂ = true) : IsSpace [0xE2, b₁, b₂]
  | ideographic : IsSpace [0xE3, 0x80, 0x80]

/-- A sequence of white space characters. -/
inductive White : Bytes → Prop
  | nil : White []
  | append {c w : Bytes} (hc : IsSpace c) (hw : White w) : White (c ++ w)

/-- An ASCII byte that is no white space. It is part of no white space character. -/
def isSolid (b : UInt8) : Bool := b < 0x80 && !isAscii b

/-! ### One character -/

theorem isGeneral_cases {b₁ b₂ : UInt8} (h : isGeneral b₁ b₂ = true) :
    (b₁ = 0x80 ∨ b₁ = 0x81) ∧ 0x80 ≤ b₂ := by
  simp only [isGeneral, Bool.or_eq_true, Bool.and_eq_true, beq_iff_eq, decide_eq_true_eq] at h
  rcases h with ⟨h₁, ((⟨h₂, -⟩ | rfl) | rfl) | rfl⟩ | ⟨h₁, rfl⟩
  · exact ⟨.inl h₁, h₂⟩
  · exact ⟨.inl h₁, by decide⟩
  · exact ⟨.inl h₁, by decide⟩
  · exact ⟨.inl h₁, by decide⟩
  · exact ⟨.inr h₁, by decide⟩

theorem isAscii_of_le {b : UInt8} (h : 0x80 ≤ b) : isAscii b = false := by
  rw [UInt8.le_iff_toNat_le] at h
  simp only [isAscii, Bool.or_eq_false_iff, Bool.and_eq_false_iff, beq_eq_false_iff_ne,
    decide_eq_false_iff_not, UInt8.le_iff_toNat_le]
  refine ⟨fun hb => ?_, .inr ?_⟩
  · rw [hb] at h
    exact absurd h (by decide)
  · rw [show (0x80 : UInt8).toNat = 128 from rfl] at h
    rw [show (0x0D : UInt8).toNat = 13 from rfl]
    omega

/-- No byte of a white space character is solid. -/
theorem IsSpace.isSolid_eq {c : Bytes} (h : IsSpace c) : ∀ b ∈ c, isSolid b = false := by
  have hclosed : ∀ {c : Bytes}, c.all (fun b => !isSolid b) = true →
      ∀ b ∈ c, isSolid b = false := by
    intro c hall b hb
    simpa using List.all_eq_true.mp hall b hb
  cases h with
  | ascii b hb => simp [isSolid, hb]
  | latin b hb => rcases hb with rfl | rfl <;> exact hclosed (by decide)
  | ogham => exact hclosed (by decide)
  | general b₁ b₂ hb =>
    obtain ⟨h₁, h₂⟩ := isGeneral_cases hb
    intro b hmem
    simp only [List.mem_cons, List.not_mem_nil, or_false] at hmem
    rcases hmem with rfl | rfl | rfl
    · decide
    · rcases h₁ with rfl | rfl <;> decide
    · simp [isSolid, UInt8.not_lt.mpr h₂]
  | ideographic => exact hclosed (by decide)

/-- A character is found at the front. -/
theorem IsSpace.frontWidth_eq {c : Bytes} (h : IsSpace c) :
    ∃ b t, c = b :: t ∧ ∀ s, frontWidth b (t ++ s) = t.length + 1 := by
  cases h with
  | ascii b hb => exact ⟨b, [], rfl, fun s => by simp [frontWidth, hb]⟩
  | latin b hb =>
    refine ⟨0xC2, [b], rfl, fun s => ?_⟩
    rcases hb with rfl | rfl <;> rfl
  | ogham => exact ⟨0xE1, [0x9A, 0x80], rfl, fun s => rfl⟩
  | general b₁ b₂ hb =>
    refine ⟨0xE2, [b₁, b₂], rfl, fun s => ?_⟩
    unfold frontWidth
    rw [if_neg (by decide)]
    simp [hb]
  | ideographic => exact ⟨0xE3, [0x80, 0x80], rfl, fun s => rfl⟩

/-- A character is found at the end. -/
theorem IsSpace.backWidth_eq {c : Bytes} (h : IsSpace c) :
    ∃ b t, c.reverse = b :: t ∧ ∀ s, backWidth b (t ++ s) = t.length + 1 := by
  cases h with
  | ascii b hb => exact ⟨b, [], rfl, fun s => by simp [backWidth, hb]⟩
  | latin b hb =>
    refine ⟨b, [0xC2], rfl, fun s => ?_⟩
    rcases hb with rfl | rfl <;> rfl
  | ogham => exact ⟨0x80, [0x9A, 0xE1], rfl, fun s => rfl⟩
  | general b₁ b₂ hb =>
    refine ⟨b₂, [b₁, 0xE2], rfl, fun s => ?_⟩
    obtain ⟨h₁, h₂⟩ := isGeneral_cases hb
    unfold backWidth
    rw [if_neg (by rw [isAscii_of_le h₂]; decide)]
    rcases h₁ with rfl | rfl <;> simp [hb]
  | ideographic => exact ⟨0x80, [0x80, 0xE3], rfl, fun s => rfl⟩

/-- What is found at the front is a character. -/
theorem exists_isSpace_of_frontWidth {b : UInt8} {s : Bytes} {k : Nat}
    (h : frontWidth b s = k + 1) :
    ∃ c, IsSpace c ∧ c.length = k + 1 ∧ b :: s = c ++ s.drop k := by
  unfold frontWidth at h
  by_cases hascii : isAscii b = true
  · rw [if_pos hascii] at h
    cases h
    exact ⟨[b], .ascii b hascii, rfl, rfl⟩
  · rw [if_neg hascii] at h
    split at h
    · rename_i b₁ t
      split_ifs at h with hb
      cases h
      exact ⟨[0xC2, b₁], .latin b₁ (by simpa using hb), rfl, rfl⟩
    · rename_i b₁ b₂ t
      split_ifs at h with hb
      cases h
      rw [Bool.and_eq_true, beq_iff_eq, beq_iff_eq] at hb
      obtain ⟨rfl, rfl⟩ := hb
      exact ⟨_, .ogham, rfl, rfl⟩
    · rename_i b₁ b₂ t
      split_ifs at h with hb
      cases h
      exact ⟨_, .general b₁ b₂ hb, rfl, rfl⟩
    · rename_i b₁ b₂ t
      split_ifs at h with hb
      cases h
      rw [Bool.and_eq_true, beq_iff_eq, beq_iff_eq] at hb
      obtain ⟨rfl, rfl⟩ := hb
      exact ⟨_, .ideographic, rfl, rfl⟩
    · cases h

/-- What is found at the end is a character. -/
theorem exists_isSpace_of_backWidth {b : UInt8} {s : Bytes} {k : Nat} (h : backWidth b s = k + 1) :
    ∃ c, IsSpace c ∧ c.length = k + 1 ∧ b :: s = c.reverse ++ s.drop k := by
  unfold backWidth at h
  by_cases hascii : isAscii b = true
  · rw [if_pos hascii] at h
    cases h
    exact ⟨[b], .ascii b hascii, rfl, rfl⟩
  · rw [if_neg hascii] at h
    split at h
    · rename_i t
      split_ifs at h with hb
      cases h
      exact ⟨[0xC2, b], .latin b (by simpa using hb), rfl, rfl⟩
    · rename_i b₁ t _
      split_ifs at h with hb
      cases h
      rw [Bool.and_eq_true, beq_iff_eq, beq_iff_eq] at hb
      obtain ⟨rfl, rfl⟩ := hb
      exact ⟨_, .ogham, rfl, rfl⟩
    · rename_i b₁ t _
      split_ifs at h with hb
      cases h
      exact ⟨_, .general b₁ b hb, rfl, rfl⟩
    · rename_i b₁ t _
      split_ifs at h with hb
      cases h
      rw [Bool.and_eq_true, beq_iff_eq, beq_iff_eq] at hb
      obtain ⟨rfl, rfl⟩ := hb
      exact ⟨_, .ideographic, rfl, rfl⟩
    · cases h

/-- A solid byte is no white space at either end. -/
theorem width_eq_zero {b : UInt8} (hb : isSolid b = true) (s : Bytes) :
    frontWidth b s = 0 ∧ backWidth b s = 0 := by
  constructor
  · by_contra hne
    obtain ⟨k, hk⟩ := Nat.exists_eq_succ_of_ne_zero hne
    obtain ⟨c, hc, hlen, hsplit⟩ := exists_isSpace_of_frontWidth hk
    cases c with
    | nil => cases hlen
    | cons x c =>
      have hx := hc.isSolid_eq x (List.mem_cons_self ..)
      rw [← (List.cons.inj hsplit).1, hb] at hx
      cases hx
  · by_contra hne
    obtain ⟨k, hk⟩ := Nat.exists_eq_succ_of_ne_zero hne
    obtain ⟨c, hc, hlen, hsplit⟩ := exists_isSpace_of_backWidth hk
    cases hrev : c.reverse with
    | nil => simp [List.reverse_eq_nil_iff.mp hrev] at hlen
    | cons x c' =>
      have hx := hc.isSolid_eq x (by rw [← List.mem_reverse, hrev]; simp)
      rw [hrev] at hsplit
      rw [← (List.cons.inj hsplit).1, hb] at hx
      cases hx

/-! ### Sequences of characters -/

theorem White.isSolid_eq {w : Bytes} (h : White w) : ∀ b ∈ w, isSolid b = false := by
  induction h with
  | nil => simp
  | append hc _ ih =>
    intro b hb
    rcases List.mem_append.mp hb with hb | hb
    · exact hc.isSolid_eq b hb
    · exact ih b hb

theorem White.star_notMem {w : Bytes} (h : White w) : Bytes.star ∉ w := fun hmem =>
  absurd (h.isSolid_eq _ hmem) (by decide)

theorem White.concat {w : Bytes} (h : White w) {w' : Bytes} (h' : White w') : White (w ++ w') := by
  induction h with
  | nil => exact h'
  | append hc _ ih =>
    rw [List.append_assoc]
    exact .append hc ih

theorem white_of_blanks {w : Bytes} (h : ∀ b ∈ w, Bytes.isBlank b = true) : White w := by
  induction w with
  | nil => exact .nil
  | cons b w ih =>
    rw [List.forall_mem_cons] at h
    have hb : isAscii b = true := by
      rcases Bool.or_eq_true_iff.mp h.1 with hb | hb <;> rw [beq_iff_eq.mp hb] <;> rfl
    exact .append (.ascii b hb) (ih h.2)

/-- Behind a blank at the front, white text goes on. -/
theorem White.of_cons {b : UInt8} (hb : Bytes.isBlank b = true) {w : Bytes} (h : White (b :: w)) :
    White w := by
  have hascii : b < 0x80 := by
    rcases Bool.or_eq_true_iff.mp hb with hb | hb <;> rw [beq_iff_eq.mp hb] <;> decide
  generalize hw : b :: w = w₀ at h
  cases h with
  | nil => cases hw
  | append hc hrest =>
    -- No longer character starts with a blank.
    cases hc with
    | ascii x hx =>
      obtain ⟨-, rfl⟩ := List.cons.inj hw
      exact hrest
    | latin x hx => rw [(List.cons.inj hw).1] at hascii; exact absurd hascii (by decide)
    | ogham => rw [(List.cons.inj hw).1] at hascii; exact absurd hascii (by decide)
    | general x y hx => rw [(List.cons.inj hw).1] at hascii; exact absurd hascii (by decide)
    | ideographic => rw [(List.cons.inj hw).1] at hascii; exact absurd hascii (by decide)

theorem White.of_concat {b : UInt8} (hb : Bytes.isBlank b = true) {w : Bytes}
    (h : White (w ++ [b])) : White w := by
  have hascii : b < 0x80 := by
    rcases Bool.or_eq_true_iff.mp hb with hb | hb <;> rw [beq_iff_eq.mp hb] <;> decide
  generalize hw : w ++ [b] = w₀ at h
  induction h generalizing w with
  | nil => simp at hw
  | @append c w₁ hc hw₁ ih =>
    rcases List.eq_nil_or_concat w₁ with rfl | ⟨t, x, rfl⟩
    · rw [List.append_nil] at hw
      have hlast : c.getLast? = some b := by rw [← hw]; simp
      have hlen : c.length = w.length + 1 := by rw [← hw]; simp
      -- No longer character ends with a blank.
      cases hc with
      | ascii x hx =>
        have hnil : w = [] := List.length_eq_zero_iff.mp (by simpa using hlen.symm)
        rw [hnil]
        exact .nil
      | latin x hx =>
        obtain rfl : x = b := by simpa using hlast
        rcases hx with rfl | rfl <;> exact absurd hascii (by decide)
      | ogham =>
        obtain rfl : 0x80 = b := by simpa using hlast
        exact absurd hascii (by decide)
      | general x y hxy =>
        obtain rfl : y = b := by simpa using hlast
        exact absurd (isGeneral_cases hxy).2 (UInt8.not_le.mpr hascii)
      | ideographic =>
        obtain rfl : 0x80 = b := by simpa using hlast
        exact absurd hascii (by decide)
    · rw [List.concat_eq_append, ← List.append_assoc] at hw
      obtain ⟨rfl, hx⟩ := List.append_inj' hw rfl
      refine .append hc (ih ?_)
      rw [List.concat_eq_append, hx]

theorem dropFrom_eq (width : UInt8 → Bytes → Nat) (k : Nat) (s : Bytes) :
    dropFrom width k s = dropFrom width 0 (s.drop k) := by
  induction k generalizing s with
  | zero => rfl
  | succ k ih =>
    cases s with
    | nil => rfl
    | cons b s => exact ih s

theorem dropFrom_stop {width : UInt8 → Bytes → Nat} {b : UInt8} {s : Bytes} (h : width b s = 0) :
    dropFrom width 0 (b :: s) = b :: s := by
  rw [dropFrom, h]

theorem dropFrom_step {width : UInt8 → Bytes → Nat} {b : UInt8} {t : Bytes} (s : Bytes)
    (h : width b (t ++ s) = t.length + 1) :
    dropFrom width 0 (b :: (t ++ s)) = dropFrom width 0 s := by
  rw [dropFrom, h]
  dsimp only
  rw [dropFrom_eq, List.drop_left]

/-- Trimming takes a white text from the front. -/
theorem exists_trimLeft (s : Bytes) : ∃ w, White w ∧ s = w ++ trimLeft s := by
  induction hn : s.length using Nat.strongRecOn generalizing s with
  | ind n ih =>
    cases s with
    | nil => exact ⟨[], .nil, rfl⟩
    | cons b s =>
      cases hk : frontWidth b s with
      | zero => exact ⟨[], .nil, (dropFrom_stop hk).symm⟩
      | succ k =>
        obtain ⟨c, hc, hlen, hsplit⟩ := exists_isSpace_of_frontWidth hk
        obtain ⟨w, hw, heq⟩ := ih (s.drop k).length (by
          rw [List.length_drop, ← hn, List.length_cons]; omega) (s.drop k) rfl
        have htrim : trimLeft (b :: s) = trimLeft (s.drop k) := by
          rw [trimLeft, trimLeft, dropFrom, hk]
          exact dropFrom_eq frontWidth k s
        exact ⟨c ++ w, .append hc hw, by rw [htrim, List.append_assoc, ← heq, hsplit]⟩

/-- Trimming takes a white text from the end. -/
theorem exists_trimRight (s : Bytes) : ∃ w, White w ∧ s = trimRight s ++ w := by
  -- Trimming at the end reads backwards, so the text that goes is built from its last character on.
  have hback : ∀ r : Bytes, ∃ w, White w ∧ r = w.reverse ++ dropFrom backWidth 0 r := by
    intro r
    induction hn : r.length using Nat.strongRecOn generalizing r with
    | ind n ih =>
      cases r with
      | nil => exact ⟨[], .nil, rfl⟩
      | cons b r =>
        cases hk : backWidth b r with
        | zero => exact ⟨[], .nil, (dropFrom_stop hk).symm⟩
        | succ k =>
          obtain ⟨c, hc, hlen, hsplit⟩ := exists_isSpace_of_backWidth hk
          obtain ⟨w, hw, heq⟩ := ih (r.drop k).length (by
            rw [List.length_drop, ← hn, List.length_cons]; omega) (r.drop k) rfl
          have hdrop : dropFrom backWidth 0 (b :: r) = dropFrom backWidth 0 (r.drop k) := by
            rw [dropFrom, hk]
            exact dropFrom_eq backWidth k r
          have hone : White (c ++ []) := .append hc .nil
          rw [List.append_nil] at hone
          refine ⟨w ++ c, hw.concat hone, ?_⟩
          rw [hdrop, List.reverse_append, List.append_assoc, ← heq, hsplit]
  obtain ⟨w, hw, heq⟩ := hback s.reverse
  refine ⟨w, hw, ?_⟩
  rw [trimRight, ← List.reverse_inj, List.reverse_append, List.reverse_reverse]
  exact heq

theorem trimLeft_append {w : Bytes} (hw : White w) (s : Bytes) :
    trimLeft (w ++ s) = trimLeft s := by
  induction hw with
  | nil => rfl
  | append hc _ ih =>
    obtain ⟨b, t, rfl, hwidth⟩ := hc.frontWidth_eq
    rw [List.append_assoc, trimLeft, List.cons_append, dropFrom_step _ (hwidth _)]
    exact ih

theorem trimRight_append {w : Bytes} (hw : White w) (s : Bytes) :
    trimRight (s ++ w) = trimRight s := by
  induction hw generalizing s with
  | nil => rw [List.append_nil]
  | @append c w hc _ ih =>
    obtain ⟨b, t, hrev, hwidth⟩ := hc.backWidth_eq
    rw [← List.append_assoc, ih, trimRight, trimRight, List.reverse_append, hrev, List.cons_append,
      dropFrom_step _ (hwidth _)]

theorem trimLeft_solid {b : UInt8} (hb : isSolid b = true) (s : Bytes) :
    trimLeft (b :: s) = b :: s :=
  dropFrom_stop (width_eq_zero hb s).1

theorem trimRight_solid {b : UInt8} (hb : isSolid b = true) (s : Bytes) :
    trimRight (s ++ [b]) = s ++ [b] := by
  rw [trimRight, List.reverse_append, List.reverse_singleton, List.singleton_append,
    dropFrom_stop (width_eq_zero hb _).2, ← List.singleton_append, List.reverse_append,
    List.reverse_reverse, List.reverse_singleton]

/-! ### Questions about a trimmed text -/

/-- A text is its trimmed form between two white texts. -/
theorem exists_trim (s : Bytes) : ∃ w w', White w ∧ White w' ∧ s = w ++ (trim s ++ w') := by
  obtain ⟨w, hw, hleft⟩ := exists_trimLeft s
  obtain ⟨w', hw', hright⟩ := exists_trimRight (trimLeft s)
  exact ⟨w, w', hw, hw', by rw [trim, ← hright, ← hleft]⟩

theorem mem_trim_iff {b : UInt8} (hb : isSolid b = true) {s : Bytes} : b ∈ trim s ↔ b ∈ s := by
  obtain ⟨w, w', hw, hw', hs⟩ := exists_trim s
  refine ⟨fun h => by rw [hs]; simp [h], fun h => ?_⟩
  rw [hs] at h
  rcases List.mem_append.mp h with h | h
  · exact absurd (hw.isSolid_eq b h) (by rw [hb]; decide)
  · rcases List.mem_append.mp h with h | h
    · exact h
    · exact absurd (hw'.isSolid_eq b h) (by rw [hb]; decide)

/-- **What a trimmed text starts with** stands behind white text. -/
theorem startsWith_trim_iff {p : Bytes} (hne : p ≠ []) (hp : ∀ b ∈ p, isSolid b = true)
    {s : Bytes} :
    Bytes.startsWith (trim s) p = true ↔ ∃ w, White w ∧ w ++ p <+: s := by
  rw [Bytes.startsWith_iff]
  constructor
  · rintro ⟨t, ht⟩
    obtain ⟨w, w', hw, -, hs⟩ := exists_trim s
    exact ⟨w, hw, t ++ w', by rw [hs, ht]; simp⟩
  · rintro ⟨w, hw, t, rfl⟩
    obtain ⟨q, b, rfl⟩ : ∃ q b, p = q ++ [b] := by
      rcases List.eq_nil_or_concat p with h | ⟨q, b, h⟩
      · exact absurd h hne
      · exact ⟨q, b, by rw [h, List.concat_eq_append]⟩
    have hb : isSolid b = true := hp b (by simp)
    have hleft : trimLeft (w ++ (q ++ [b]) ++ t) = q ++ [b] ++ t := by
      rw [List.append_assoc, trimLeft_append hw]
      cases q with
      | nil => exact trimLeft_solid hb t
      | cons x q => exact trimLeft_solid (hp x (by simp)) _
    -- Trimming at the end stops at the last byte of `p` at the latest.
    obtain ⟨w', hw', hright⟩ := exists_trimRight (q ++ [b] ++ t)
    rw [trim, hleft]
    rcases List.append_eq_append_iff.mp hright with ⟨r, hr, -⟩ | ⟨r, hr, hrw⟩
    · exact ⟨r, hr⟩
    · rcases List.eq_nil_or_concat r with rfl | ⟨r, x, rfl⟩
      · rw [List.append_nil] at hr
        exact ⟨[], by rw [List.append_nil, ← hr]⟩
      · rw [List.concat_eq_append] at hr hrw
        rw [← List.append_assoc] at hr
        obtain ⟨-, hx⟩ := List.append_inj' hr rfl
        have hmem : b ∈ w' := by
          rw [hrw, List.singleton_inj.mp hx]
          simp
        rw [hw'.isSolid_eq b hmem] at hb
        cases hb

theorem trim_between {w m w' : Bytes} {b b' : UInt8} (hw : White w) (hw' : White w')
    (hb : isSolid b = true) (hb' : isSolid b' = true) (hfront : m.head? = some b)
    (hback : m.getLast? = some b') : trim (w ++ (m ++ w')) = m := by
  have hleft : trimLeft (m ++ w') = m ++ w' := by
    cases m with
    | nil => cases hfront
    | cons x m =>
      cases hfront
      exact trimLeft_solid hb _
  obtain ⟨q, rfl⟩ := List.getLast?_eq_some_iff.mp hback
  rw [trim, trimLeft_append hw, hleft, trimRight_append hw', trimRight_solid hb']

/-! ### Trimmed texts -/

/-- Nothing is trimmed from the front exactly if no white text stands there. -/
theorem trimLeft_eq_self_iff {s : Bytes} :
    trimLeft s = s ↔ ∀ w, White w → w <+: s → w = [] := by
  constructor
  · rintro h w hw ⟨t, rfl⟩
    obtain ⟨w', -, ht⟩ := exists_trimLeft t
    have hlength := congrArg List.length h
    rw [trimLeft_append hw, List.length_append] at hlength
    have ht' := congrArg List.length ht
    rw [List.length_append] at ht'
    exact List.length_eq_zero_iff.mp (by omega)
  · intro h
    obtain ⟨w, hw, hs⟩ := exists_trimLeft s
    have hnil : w = [] := h w hw ⟨_, hs.symm⟩
    rw [hnil, List.nil_append] at hs
    exact hs.symm

/-- Nothing is trimmed from the end exactly if no white text stands there. -/
theorem trimRight_eq_self_iff {s : Bytes} :
    trimRight s = s ↔ ∀ w, White w → w <:+ s → w = [] := by
  constructor
  · rintro h w hw ⟨t, rfl⟩
    obtain ⟨w', -, ht⟩ := exists_trimRight t
    have hlength := congrArg List.length h
    rw [trimRight_append hw, List.length_append] at hlength
    have ht' := congrArg List.length ht
    rw [List.length_append] at ht'
    exact List.length_eq_zero_iff.mp (by omega)
  · intro h
    obtain ⟨w, hw, hs⟩ := exists_trimRight s
    have hnil : w = [] := h w hw ⟨_, hs.symm⟩
    rw [hnil, List.append_nil] at hs
    exact hs.symm

theorem trim_eq_self_iff {s : Bytes} :
    trim s = s ↔ (∀ w, White w → w <+: s → w = []) ∧ ∀ w, White w → w <:+ s → w = [] := by
  rw [← trimLeft_eq_self_iff, ← trimRight_eq_self_iff]
  constructor
  · intro h
    -- Both trimmings can only take away, so neither has taken anything.
    obtain ⟨w, -, hleft⟩ := exists_trimLeft s
    obtain ⟨w', -, hright⟩ := exists_trimRight (trimLeft s)
    have hlength := congrArg List.length hleft
    have hlength' := congrArg List.length hright
    rw [List.length_append] at hlength hlength'
    rw [show trimRight (trimLeft s) = s from h] at hlength'
    have hnil : w = [] := List.length_eq_zero_iff.mp (by omega)
    rw [hnil, List.nil_append] at hleft
    rw [trim, ← hleft] at h
    exact ⟨hleft.symm, h⟩
  · rintro ⟨hleft, hright⟩
    rw [trim, hleft, hright]

/-- Trimming again changes nothing. -/
theorem trim_trim (s : Bytes) : trim (trim s) = trim s := by
  obtain ⟨w, hw, hleft⟩ := exists_trimLeft s
  obtain ⟨w', hw', hright⟩ := exists_trimRight (trimLeft s)
  have hfront : trimLeft (trimLeft s) = trimLeft s := by
    conv_rhs => rw [hleft, trimLeft_append hw]
  have hback : trimRight (trim s) = trim s := by
    conv_rhs => rw [trim, hright, trimRight_append hw']
    rfl
  rw [trim_eq_self_iff]
  refine ⟨fun v hv hpre => ?_, trimRight_eq_self_iff.mp hback⟩
  exact trimLeft_eq_self_iff.mp hfront v hv (hpre.trans ⟨w', hright.symm⟩)

end WhiteSpace

/-! ### Thematic breaks of stars -/

open WhiteSpace

/-- Stars and blanks, three stars or more, between white texts. -/
def StarBreak (s : Bytes) : Prop :=
  ∃ w m w', White w ∧ White w' ∧ s = w ++ (m ++ w') ∧
    (∀ b ∈ m, b = Bytes.star ∨ Bytes.isBlank b = true) ∧ 3 ≤ m.count Bytes.star

/-- The part of a text from the first to the last occurrence of a byte. -/
theorem exists_core {s : Bytes} {x : UInt8} (hx : x ∈ s) :
    ∃ u core v, s = u ++ (core ++ v) ∧ x ∉ u ∧ x ∉ v ∧ core.head? = some x ∧
      core.getLast? = some x := by
  obtain ⟨u, r, rfl, hu⟩ := List.eq_append_cons_of_mem hx
  obtain ⟨v, t, hrev, hv⟩ := List.eq_append_cons_of_mem
    (show x ∈ (x :: r).reverse from List.mem_reverse.mpr (List.mem_cons_self ..))
  have hr : x :: r = t.reverse ++ [x] ++ v.reverse := by
    rw [← List.reverse_inj, hrev]
    simp
  refine ⟨u, t.reverse ++ [x], v.reverse, by rw [hr], hu, by simpa using hv, ?_, by simp⟩
  cases hhead : t.reverse with
  | nil => rfl
  | cons y t' =>
    rw [hhead] at hr
    exact congrArg some (List.cons.inj hr).1.symm

/-- **A line with stars is a thematic break** when all but white text at its ends is stars and
blanks, three stars or more. -/
theorem isThematicBreak_trim_iff {s : Bytes} (hs : Bytes.star ∈ s) :
    Block.isThematicBreak (trim s) = true ↔ StarBreak s := by
  have hsolid : isSolid Bytes.star = true := by decide
  constructor
  · intro h
    obtain ⟨w, w', hw, hw', hsplit⟩ := exists_trim s
    refine ⟨w, trim s, w', hw, hw', hsplit, ?_⟩
    have hmem := (mem_trim_iff hsolid).mpr hs
    cases htrim : trim s with
    | nil =>
      rw [htrim] at h
      cases h
    | cons mark t =>
      rw [htrim] at h hmem
      simp only [Block.isThematicBreak, Bool.and_eq_true, List.all_eq_true, Bool.or_eq_true,
        beq_iff_eq, decide_eq_true_eq] at h
      obtain ⟨⟨-, hall⟩, hcount⟩ := h
      -- A star in the line can only be one of the marks.
      have hmark : Bytes.star = mark := (hall _ hmem).resolve_right (by decide)
      subst hmark
      exact ⟨hall, hcount⟩
  · rintro ⟨w, m, w', hw, hw', rfl, hall, hcount⟩
    have hstar : Bytes.star ∈ m := List.count_pos_iff.mp (by omega)
    obtain ⟨u, core, v, rfl, hu, hv, hfront, hback⟩ := exists_core hstar
    have hblanks : ∀ {l : Bytes}, Bytes.star ∉ l → (∀ x ∈ l, x ∈ u ++ (core ++ v)) →
        ∀ x ∈ l, Bytes.isBlank x = true := fun hl hsub x hx =>
      (hall x (hsub x hx)).resolve_left fun h => hl (h ▸ hx)
    have huBlank := hblanks hu fun x hx => by simp [hx]
    have hvBlank := hblanks hv fun x hx => by simp [hx]
    have htrim : trim (w ++ (u ++ (core ++ v) ++ w')) = core := by
      have hregroup : w ++ (u ++ (core ++ v) ++ w') = (w ++ u) ++ (core ++ (v ++ w')) := by simp
      rw [hregroup]
      exact trim_between (hw.concat (white_of_blanks huBlank))
        ((white_of_blanks hvBlank).concat hw')
        hsolid hsolid hfront hback
    rw [List.count_append, List.count_append, List.count_eq_zero.mpr hu, List.count_eq_zero.mpr hv,
      Nat.zero_add, Nat.add_zero] at hcount
    rw [htrim]
    cases core with
    | nil => cases hfront
    | cons x t =>
      cases hfront
      simp only [Block.isThematicBreak, Bool.and_eq_true, List.all_eq_true, Bool.or_eq_true,
        beq_iff_eq, decide_eq_true_eq]
      exact ⟨⟨by simp, fun y hy =>
        hall y (List.mem_append_right _ (List.mem_append_left _ hy))⟩, hcount⟩

end EmphasisSpacing
