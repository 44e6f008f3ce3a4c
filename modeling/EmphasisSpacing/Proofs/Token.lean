import Mathlib.Tactic.Common
import EmphasisSpacing.Document.Region

/-!
# Tokens

A token is a number between two NUL bytes. Three things about it matter: the number is written with
digits only, different numbers are written differently, and a token is met in a text only where a
NUL is followed by just these digits and another NUL. The last one says what `Bytes.replaceFirst`
does on its way to the first occurrence of a token.
-/

namespace EmphasisSpacing

/-! ### Decimal numbers -/

namespace Integer

theorem toNat_digitByte {d : Nat} (hd : d < 10) : (digitByte d).toNat = 0x30 + d := by
  rw [digitByte, UInt8.toNat_ofNat']
  exact Nat.mod_eq_of_lt (by omega)

theorem isDigit_digitByte {d : Nat} (hd : d < 10) : Bytes.isDigit (digitByte d) = true := by
  simp only [Bytes.isDigit, Bool.and_eq_true, decide_eq_true_eq, UInt8.le_iff_toNat_le,
    toNat_digitByte hd]
  simp only [UInt8.toNat_ofNat, Nat.reducePow, Nat.reduceMod]
  omega

/-- Digits are read back with the value that they were written for. -/
theorem natOfDigits?_natDigits : ∀ (fuel n : Nat) (acc : Bytes), n < fuel →
    natOfDigits? 0 (natDigits fuel n acc) = natOfDigits? n acc := by
  intro fuel
  induction fuel with
  | zero => intro n acc h; omega
  | succ fuel ih =>
    intro n acc h
    have hmod : n % 10 < 10 := Nat.mod_lt _ (by decide)
    have hread : ∀ a, natOfDigits? a (digitByte (n % 10) :: acc) =
        natOfDigits? (a * 10 + n % 10) acc := by
      intro a
      rw [natOfDigits?, if_pos (isDigit_digitByte hmod), toNat_digitByte hmod,
        Nat.add_sub_cancel_left]
    rw [natDigits]
    split_ifs with hsmall
    · rw [hread, Nat.zero_mul, Nat.zero_add, Nat.mod_eq_of_lt hsmall]
    · rw [ih (n / 10) _ (by omega), hread, Nat.mul_comm, Nat.div_add_mod]

theorem natDigits_isDigit : ∀ (fuel n : Nat) (acc : Bytes), (∀ b ∈ acc, Bytes.isDigit b = true) →
    ∀ b ∈ natDigits fuel n acc, Bytes.isDigit b = true := by
  intro fuel
  induction fuel with
  | zero => intro n acc h; exact h
  | succ fuel ih =>
    intro n acc h
    have hcons : ∀ b ∈ digitByte (n % 10) :: acc, Bytes.isDigit b = true := by
      intro b hb
      rcases List.mem_cons.mp hb with rfl | hb
      · exact isDigit_digitByte (Nat.mod_lt _ (by decide))
      · exact h b hb
    rw [natDigits]
    split_ifs
    · exact hcons
    · exact ih _ _ hcons

/-- A number is written with digits only. -/
theorem ofNat_isDigit {n : Nat} {b : UInt8} (hb : b ∈ ofNat n) : Bytes.isDigit b = true :=
  natDigits_isDigit (n + 1) n [] (by simp) b hb

/-- Different numbers are written differently. -/
theorem ofNat_inj {m n : Nat} (h : ofNat m = ofNat n) : m = n := by
  have hm := natOfDigits?_natDigits (m + 1) m [] (by omega)
  have hn := natOfDigits?_natDigits (n + 1) n [] (by omega)
  rw [← ofNat, h, ofNat, hn] at hm
  exact (Option.some.inj hm).symm

/-- A number is written with at least one digit. -/
theorem ofNat_ne_nil (n : Nat) : ofNat n ≠ [] := by
  intro h
  have hn := natOfDigits?_natDigits (n + 1) n [] (by omega)
  rw [← ofNat, h] at hn
  have h0 : n = 0 := (Option.some.inj hn).symm
  subst h0
  cases h

end Integer

/-- A NUL is no digit. -/
theorem tokenMark_ne_of_isDigit {b : UInt8} (hb : Bytes.isDigit b = true) : b ≠ tokenMark := by
  intro h
  rw [h] at hb
  cases hb

theorem tokenMark_notMem_ofNat (k : Nat) : tokenMark ∉ Integer.ofNat k := fun h =>
  tokenMark_ne_of_isDigit (Integer.ofNat_isDigit h) rfl

/-! ### Beginnings -/

namespace Bytes

theorem dropPrefix?_eq_some_iff {p s r : Bytes} : dropPrefix? p s = some r ↔ s = p ++ r := by
  induction p generalizing s with
  | nil => simp [dropPrefix?, eq_comm]
  | cons a p ih =>
    cases s with
    | nil => simp [dropPrefix?]
    | cons b s =>
      rw [dropPrefix?]
      split_ifs with hab
      · rw [beq_iff_eq] at hab
        rw [ih, List.cons_append, List.cons_eq_cons, and_iff_right hab.symm]
      · rw [beq_iff_eq] at hab
        simp [eq_comm, hab]

theorem startsWith_iff {s p : Bytes} : startsWith s p = true ↔ ∃ t, s = p ++ t := by
  rw [startsWith, Option.isSome_iff_exists]
  exact exists_congr fun t => dropPrefix?_eq_some_iff

/-- An occurrence at the front is the first one. -/
theorem replaceFirst_front {old : Bytes} (hold : old ≠ []) (new s : Bytes) :
    replaceFirst old new (old ++ s) = new ++ s := by
  cases old with
  | nil => exact absurd rfl hold
  | cons a old =>
    have h : dropPrefix? (a :: old) (a :: (old ++ s)) = some s :=
      dropPrefix?_eq_some_iff.mpr rfl
    rw [List.cons_append, replaceFirst, h]

/-- Without an occurrence at the front, the search goes on behind the first byte. -/
theorem replaceFirst_cons {old : Bytes} {b : UInt8} {s : Bytes} (new : Bytes)
    (h : dropPrefix? old (b :: s) = none) :
    replaceFirst old new (b :: s) = b :: replaceFirst old new s := by
  rw [replaceFirst, h]

/-- Replacing changes nothing, or one occurrence. -/
theorem replaceFirst_cases (old new s : Bytes) :
    replaceFirst old new s = s ∨
      ∃ u v, s = u ++ (old ++ v) ∧ replaceFirst old new s = u ++ (new ++ v) := by
  induction s with
  | nil =>
    cases old with
    | nil => exact .inr ⟨[], [], rfl, by simp [replaceFirst]⟩
    | cons a old => exact .inl rfl
  | cons b s ih =>
    cases hd : dropPrefix? old (b :: s) with
    | some r =>
      right
      refine ⟨[], r, ?_, ?_⟩
      · rw [List.nil_append, ← dropPrefix?_eq_some_iff, hd]
      · rw [replaceFirst, hd, List.nil_append]
    | none =>
      rw [replaceFirst_cons new hd]
      rcases ih with heq | ⟨u, v, rfl, heq⟩
      · exact .inl (by rw [heq])
      · exact .inr ⟨b :: u, v, rfl, by rw [heq, List.cons_append]⟩

theorem mem_of_mem_replaceFirst {old new s : Bytes} {x : UInt8} (h : x ∈ replaceFirst old new s) :
    x ∈ new ∨ x ∈ s := by
  rcases replaceFirst_cases old new s with heq | ⟨u, v, rfl, heq⟩
  · exact .inr (heq ▸ h)
  · rw [heq] at h
    simp only [List.mem_append] at h ⊢
    tauto

/-- The last byte stays the last one, unless the replaced text stood at the end. -/
theorem getLast?_replaceFirst (old : Bytes) {new : Bytes} (hnew : new ≠ []) (s : Bytes) :
    (replaceFirst old new s).getLast? = s.getLast? ∨
      (replaceFirst old new s).getLast? = new.getLast? := by
  rcases replaceFirst_cases old new s with heq | ⟨u, v, rfl, heq⟩
  · exact .inl (by rw [heq])
  · obtain ⟨x, hx⟩ : ∃ x, new.getLast? = some x := by
      rw [← Option.isSome_iff_exists, List.getLast?_isSome]
      exact hnew
    rw [heq]
    simp only [List.getLast?_append, hx]
    cases v.getLast? with
    | none => exact .inr rfl
    | some y => exact .inl rfl

end Bytes

/-! ### Where tokens are met -/

/-- A token at the front of a text is a NUL, the digits of its number, and a NUL. -/
theorem dropPrefix?_token_iff {k : Nat} {b : UInt8} {s r : Bytes} :
    Bytes.dropPrefix? (token k) (b :: s) = some r ↔
      b = tokenMark ∧ s = Integer.ofNat k ++ tokenMark :: r := by
  rw [Bytes.dropPrefix?_eq_some_iff, token]
  simp [List.append_assoc]

theorem dropPrefix?_token_eq_none {k : Nat} {b : UInt8} {s : Bytes}
    (h : ∀ r, b = tokenMark → s ≠ Integer.ofNat k ++ tokenMark :: r) :
    Bytes.dropPrefix? (token k) (b :: s) = none := by
  rw [Option.eq_none_iff_forall_ne_some]
  intro r hr
  obtain ⟨hb, hs⟩ := dropPrefix?_token_iff.mp hr
  exact h r hb hs

theorem token_ne_nil (k : Nat) : token k ≠ [] := by simp [token]

/-- Text without a NUL is passed over. -/
theorem replaceFirst_token_append {w : Bytes} (hw : tokenMark ∉ w) (k : Nat) (new s : Bytes) :
    Bytes.replaceFirst (token k) new (w ++ s) = w ++ Bytes.replaceFirst (token k) new s := by
  induction w with
  | nil => rfl
  | cons b w ih =>
    rw [List.mem_cons, not_or] at hw
    rw [List.cons_append, Bytes.replaceFirst_cons new
      (dropPrefix?_token_eq_none fun r hb => absurd hb.symm hw.1), ih hw.2, List.cons_append]

/-- Two texts that both start with digits and then a NUL start with the same digits. -/
theorem digits_unique {d d' r r' : Bytes} (hd : tokenMark ∉ d) (hd' : tokenMark ∉ d')
    (h : d ++ tokenMark :: r = d' ++ tokenMark :: r') : d = d' ∧ r = r' := by
  induction d generalizing d' with
  | nil =>
    cases d' with
    | nil => exact ⟨rfl, (List.cons.inj h).2⟩
    | cons b d' => exact absurd (List.cons.inj h).1 fun hb => hd' (by rw [hb]; simp)
  | cons a d ih =>
    cases d' with
    | nil => exact absurd (List.cons.inj h).1 fun ha => hd (by rw [ha]; simp)
    | cons b d' =>
      rw [List.mem_cons, not_or] at hd hd'
      obtain ⟨hab, hrest⟩ := List.cons.inj h
      obtain ⟨hdd, hr⟩ := ih hd.2 hd'.2 hrest
      exact ⟨by rw [hab, hdd], hr⟩

/-- Past a token with another number, the search goes on at its closing NUL. -/
theorem replaceFirst_token_token {j k : Nat} (hjk : j ≠ k) (new s : Bytes) :
    Bytes.replaceFirst (token j) new (token k ++ s) =
      tokenMark :: Integer.ofNat k ++ Bytes.replaceFirst (token j) new (tokenMark :: s) := by
  have hopen : Bytes.dropPrefix? (token j) (tokenMark :: (Integer.ofNat k ++ tokenMark :: s)) =
      none := by
    refine dropPrefix?_token_eq_none fun r _ hr => hjk ?_
    exact (Integer.ofNat_inj
      (digits_unique (tokenMark_notMem_ofNat k) (tokenMark_notMem_ofNat j) hr).1).symm
  have hsplit : token k ++ s = tokenMark :: (Integer.ofNat k ++ tokenMark :: s) := by
    simp [token]
  rw [hsplit, Bytes.replaceFirst_cons new hopen,
    replaceFirst_token_append (tokenMark_notMem_ofNat k), List.cons_append]

end EmphasisSpacing
