import Mathlib.Tactic.Common
import EmphasisSpacing.Text.Utf8

/-!
# Reading UTF-8 back

Two facts about `Utf8` carry everything that is said about characters later on.

* Writing and reading are inverse to each other: `decode_encode` for every list of characters, and
  `encode_decode` for every well-formed byte string.
* A byte below `0x80` is a seam: no character reaches across it, so a text with such a byte in the
  middle is read as the two sides and the byte between them (`units_seam`). Stars, blanks, grave
  accents and dollar signs are such bytes, which is why text may be cut and joined at them.
-/

namespace EmphasisSpacing

namespace Utf8

/-! ### Seams -/

/-- A byte below `0x80` lies in no range that starts at or above it. -/
theorem not_le_of_ascii {x lo : UInt8} (hx : x < 0x80) (hlo : 0x80 ≤ lo) : ¬ lo ≤ x := by
  rw [UInt8.lt_iff_toNat_lt] at hx
  rw [UInt8.le_iff_toNat_le] at hlo ⊢
  omega

/-- No byte below `0x80` goes on with a character. -/
theorem isCont_ascii {x : UInt8} (hx : x < 0x80) : isCont x = false := by
  simp [isCont, not_le_of_ascii hx (UInt8.le_refl 0x80)]

/-- The same after the lead byte of a three-byte character. -/
theorem second3_ascii {x : UInt8} (hx : x < 0x80) (lead : UInt8) : second3 lead x = false := by
  unfold second3
  split
  · simp [not_le_of_ascii hx (show (0x80 : UInt8) ≤ 0xA0 by decide)]
  · simp [not_le_of_ascii hx (UInt8.le_refl 0x80), isCont_ascii hx]

/-- The same after the lead byte of a four-byte character. -/
theorem second4_ascii {x : UInt8} (hx : x < 0x80) (lead : UInt8) : second4 lead x = false := by
  unfold second4
  split
  · simp [not_le_of_ascii hx (show (0x80 : UInt8) ≤ 0x90 by decide)]
  · simp [not_le_of_ascii hx (UInt8.le_refl 0x80), isCont_ascii hx]

/-- What the front of a text decodes to does not depend on what stands behind a seam. -/
theorem first?_seam {x : UInt8} (hx : x < 0x80) (b : UInt8) (rest v : Bytes) :
    first? b (rest ++ x :: v) = first? b rest := by
  have hc := isCont_ascii hx
  have h3 := second3_ascii hx b
  have h4 := second4_ascii hx b
  unfold first?
  rcases rest with _ | ⟨b₁, _ | ⟨b₂, _ | ⟨b₃, rest⟩⟩⟩
  · rcases v with _ | ⟨v₁, _ | ⟨v₂, v⟩⟩ <;> simp [hc, h3, h4]
  · rcases v with _ | ⟨v₁, v⟩ <;> simp [hc]
  · simp [hc]
  · simp

/-- A character covers no more bytes than there are. -/
theorem first?_length {b : UInt8} {rest : Bytes} {c : Char} {more : Nat}
    (h : first? b rest = some (c, more)) : more ≤ rest.length := by
  unfold first? at h
  rcases rest with _ | ⟨b₁, _ | ⟨b₂, _ | ⟨b₃, rest⟩⟩⟩ <;> grind

/-- Reading passes a seam: the left side, the byte itself, and the right side from its start. -/
theorem unitsFrom_seam {x : UInt8} (hx : x < 0x80) (v : Bytes) :
    ∀ (u : Bytes) (k : Nat), k ≤ u.length →
      unitsFrom k (u ++ x :: v) = unitsFrom k u ++ some (Char.ofNat x.toNat) :: unitsFrom 0 v := by
  intro u
  induction u with
  | nil =>
    intro k hk
    have hk0 : k = 0 := by simpa using hk
    subst hk0
    simp only [List.nil_append, unitsFrom, first?, hx, if_true]
  | cons b u ih =>
    intro k hk
    cases k with
    | succ k =>
      simp only [List.cons_append, unitsFrom]
      exact ih k (by simpa using hk)
    | zero =>
      simp only [List.cons_append, unitsFrom]
      rw [first?_seam hx]
      cases hf : first? b u with
      | none => simp [ih 0 (Nat.zero_le _)]
      | some p =>
        obtain ⟨c, more⟩ := p
        simp [ih more (first?_length hf)]

/-- **Reading passes a seam.** -/
theorem units_seam {x : UInt8} (hx : x < 0x80) (u v : Bytes) :
    units (u ++ x :: v) = units u ++ some (Char.ofNat x.toNat) :: units v :=
  unitsFrom_seam hx v u 0 (Nat.zero_le _)

/-- Characters on both sides of a seam. -/
theorem decode_seam {x : UInt8} (hx : x < 0x80) (u v : Bytes) :
    decode (u ++ x :: v) = decode u ++ Char.ofNat x.toNat :: decode v := by
  simp [decode, units_seam hx]

/-- A text is well formed exactly when both sides of a seam are. -/
theorem isValid_seam {x : UInt8} (hx : x < 0x80) (u v : Bytes) :
    isValid (u ++ x :: v) = (isValid u && isValid v) := by
  simp [isValid, units_seam hx]

/-- A seam at the very front. -/
theorem isValid_cons {x : UInt8} (hx : x < 0x80) (v : Bytes) : isValid (x :: v) = isValid v := by
  have h := isValid_seam hx [] v
  simpa [isValid, units, unitsFrom] using h

/-- A seam at the very front. -/
theorem decode_cons {x : UInt8} (hx : x < 0x80) (v : Bytes) :
    decode (x :: v) = Char.ofNat x.toNat :: decode v := by
  have h := decode_seam hx [] v
  simpa [decode, units, unitsFrom] using h

/-! ### Writing, then reading -/

/-- The code point of a character is no surrogate and at most `0x10FFFF`. -/
theorem toNat_ranges (c : Char) : c.toNat < 0xD800 ∨ 0xDFFF < c.toNat ∧ c.toNat < 0x110000 := by
  have h := c.valid
  simpa [UInt32.isValidChar, Nat.isValidChar] using h

/-- The number of a byte that is written down as one. -/
theorem toNat_byte {n : Nat} (h : n < 256) : (UInt8.ofNat n).toNat = n := by
  rw [UInt8.toNat_ofNat']
  exact Nat.mod_eq_of_lt h

theorem isCont_iff (b : UInt8) : isCont b = true ↔ 0x80 ≤ b.toNat ∧ b.toNat ≤ 0xBF := by
  simp [isCont, UInt8.le_iff_toNat_le]

theorem second3_iff (lead b : UInt8) : second3 lead b = true ↔
    0x80 ≤ b.toNat ∧ b.toNat ≤ 0xBF ∧ (lead.toNat = 0xE0 → 0xA0 ≤ b.toNat) ∧
      (lead.toNat = 0xED → b.toNat ≤ 0x9F) := by
  unfold second3
  simp only [beq_iff_eq, ← UInt8.toNat_inj]
  split_ifs with h1 h2
  · simp [UInt8.le_iff_toNat_le, h1] at h1 ⊢
    omega
  · simp [UInt8.le_iff_toNat_le] at h1 h2 ⊢
    omega
  · rw [isCont_iff]
    simp at h1 h2 ⊢
    omega

theorem second4_iff (lead b : UInt8) : second4 lead b = true ↔
    0x80 ≤ b.toNat ∧ b.toNat ≤ 0xBF ∧ (lead.toNat = 0xF0 → 0x90 ≤ b.toNat) ∧
      (lead.toNat = 0xF4 → b.toNat ≤ 0x8F) := by
  unfold second4
  simp only [beq_iff_eq, ← UInt8.toNat_inj]
  split_ifs with h1 h2
  · simp [UInt8.le_iff_toNat_le] at h1 ⊢
    omega
  · simp [UInt8.le_iff_toNat_le] at h1 h2 ⊢
    omega
  · rw [isCont_iff]
    simp at h1 h2 ⊢
    omega

/-- **The four forms of a character.** What `first?` reads, with the bytes as numbers. -/
theorem first?_eq_some_iff (b : UInt8) (rest : Bytes) (c : Char) (k : Nat) :
    first? b rest = some (c, k) ↔
      (b.toNat < 0x80 ∧ c = Char.ofNat b.toNat ∧ k = 0) ∨
      (∃ b₁ t, rest = b₁ :: t ∧ 0xC2 ≤ b.toNat ∧ b.toNat ≤ 0xDF ∧ isCont b₁ = true ∧
        c = Char.ofNat (b.toNat % 32 * 64 + payload b₁) ∧ k = 1) ∨
      (∃ b₁ b₂ t, rest = b₁ :: b₂ :: t ∧ 0xE0 ≤ b.toNat ∧ b.toNat ≤ 0xEF ∧
        second3 b b₁ = true ∧ isCont b₂ = true ∧
        c = Char.ofNat ((b.toNat % 16 * 64 + payload b₁) * 64 + payload b₂) ∧ k = 2) ∨
      (∃ b₁ b₂ b₃ t, rest = b₁ :: b₂ :: b₃ :: t ∧ 0xF0 ≤ b.toNat ∧ b.toNat ≤ 0xF4 ∧
        second4 b b₁ = true ∧ isCont b₂ = true ∧ isCont b₃ = true ∧
        c = Char.ofNat
          (((b.toNat % 8 * 64 + payload b₁) * 64 + payload b₂) * 64 + payload b₃) ∧ k = 3) := by
  unfold first?
  simp only [UInt8.lt_iff_toNat_lt, UInt8.le_iff_toNat_le, Bool.and_eq_true, decide_eq_true_eq]
  simp only [UInt8.toNat_ofNat, Nat.reducePow, Nat.reduceMod]
  rcases rest with _ | ⟨b₁, _ | ⟨b₂, _ | ⟨b₃, rest⟩⟩⟩
  all_goals split_ifs <;> simp <;> grind

/-- The bytes of a character are read as that character, whatever follows them. -/
theorem first?_encodeChar (c : Char) (s : Bytes) :
    ∃ b t, encodeChar c = b :: t ∧ first? b (t ++ s) = some (c, t.length) := by
  have hr := toNat_ranges c
  have hc : c = Char.ofNat c.toNat := (Char.ofNat_toNat c).symm
  unfold encodeChar
  dsimp only
  -- One case for each number of bytes. The payloads make up the code again, and its range keeps
  -- clear of overlong forms and surrogates.
  split_ifs with h1 h2 h3
  · refine ⟨_, _, rfl, (first?_eq_some_iff ..).mpr (.inl ?_)⟩
    rw [toNat_byte (by omega)]
    exact ⟨h1, hc, rfl⟩
  · refine ⟨_, _, rfl, (first?_eq_some_iff ..).mpr (.inr (.inl ⟨_, _, rfl, ?_⟩))⟩
    simp only [isCont_iff, payload]
    rw [toNat_byte (by omega), toNat_byte (by omega)]
    refine ⟨by omega, by omega, by omega, ?_, rfl⟩
    rw [show (192 + c.toNat / 64) % 32 * 64 + (128 + c.toNat % 64) % 64 = c.toNat by omega]
    exact hc
  · refine ⟨_, _, rfl, (first?_eq_some_iff ..).mpr (.inr (.inr (.inl ⟨_, _, _, rfl, ?_⟩)))⟩
    simp only [isCont_iff, second3_iff, payload]
    rw [toNat_byte (by omega), toNat_byte (by omega), toNat_byte (by omega)]
    refine ⟨by omega, by omega, by omega, by omega, ?_, rfl⟩
    rw [show ((224 + c.toNat / 4096) % 16 * 64 + (128 + c.toNat / 64 % 64) % 64) * 64 +
      (128 + c.toNat % 64) % 64 = c.toNat by omega]
    exact hc
  · refine ⟨_, _, rfl, (first?_eq_some_iff ..).mpr (.inr (.inr (.inr ⟨_, _, _, _, rfl, ?_⟩)))⟩
    simp only [isCont_iff, second4_iff, payload]
    rw [toNat_byte (by omega), toNat_byte (by omega), toNat_byte (by omega),
      toNat_byte (by omega)]
    refine ⟨by omega, by omega, by omega, by omega, by omega, ?_, rfl⟩
    rw [show (((240 + c.toNat / 262144) % 8 * 64 + (128 + c.toNat / 4096 % 64) % 64) * 64 +
      (128 + c.toNat / 64 % 64) % 64) * 64 + (128 + c.toNat % 64) % 64 = c.toNat by omega]
    exact hc

/-- Bytes that a character covers are passed over. -/
theorem unitsFrom_length (t s : Bytes) : unitsFrom t.length (t ++ s) = unitsFrom 0 s := by
  induction t with
  | nil => rfl
  | cons b t ih => rw [List.length_cons, List.cons_append, unitsFrom, ih]

/-- The bytes of a list of characters are read as these characters, whatever follows. -/
theorem units_encode_append (cs : List Char) (s : Bytes) :
    units (encode cs ++ s) = cs.map some ++ units s := by
  induction cs with
  | nil => rfl
  | cons c cs ih =>
    obtain ⟨b, t, hbt, hf⟩ := first?_encodeChar c (encode cs ++ s)
    have hcons : encode (c :: cs) ++ s = b :: (t ++ (encode cs ++ s)) := by
      simp [encode, hbt]
    rw [hcons, units, unitsFrom, hf]
    simp only [unitsFrom_length, List.map_cons, List.cons_append]
    rw [← ih, units]

theorem units_encode (cs : List Char) : units (encode cs) = cs.map some := by
  have h := units_encode_append cs []
  rwa [List.append_nil, show units [] = [] from rfl, List.append_nil] at h

/-- **Writing, then reading, gives the characters back.** -/
@[simp]
theorem decode_encode (cs : List Char) : decode (encode cs) = cs := by
  simp [decode, units_encode, Function.comp_def]

/-- What is written is well formed. -/
@[simp]
theorem isValid_encode (cs : List Char) : isValid (encode cs) = true := by
  simp [isValid, units_encode]

@[simp]
theorem encode_nil : encode [] = [] := rfl

theorem encode_cons (c : Char) (cs : List Char) : encode (c :: cs) = encodeChar c ++ encode cs :=
  rfl

theorem encode_append (cs ds : List Char) : encode (cs ++ ds) = encode cs ++ encode ds := by
  simp [encode]

/-! ### Reading, then writing -/

/-- A byte is the byte of its number. -/
theorem byte_of_toNat {b : UInt8} {n : Nat} (h : n = b.toNat) : UInt8.ofNat n = b := by
  rw [h, UInt8.ofNat_toNat]

/-- The code point of a character that is built from a number in range. -/
theorem toNat_ofNat_of_ranges {n : Nat} (h : n < 0xD800 ∨ 0xDFFF < n ∧ n < 0x110000) :
    (Char.ofNat n).toNat = n := by
  have hv : n.isValidChar := h
  rw [Char.ofNat, dif_pos hv]
  rfl

/-- A character that was read is written with the bytes that it was read from. -/
theorem encodeChar_of_first? {b : UInt8} {rest : Bytes} {c : Char} {k : Nat}
    (h : first? b rest = some (c, k)) : encodeChar c = b :: rest.take k := by
  have hb := b.toNat_lt
  rw [first?_eq_some_iff] at h
  -- One case for each number of bytes. What the reader refuses is what the writer never writes.
  rcases h with ⟨h1, rfl, rfl⟩ | ⟨b₁, t, rfl, h1, h2, h3, rfl, rfl⟩ |
    ⟨b₁, b₂, t, rfl, h1, h2, h3, h4, rfl, rfl⟩ | ⟨b₁, b₂, b₃, t, rfl, h1, h2, h3, h4, h5, rfl, rfl⟩
  · unfold encodeChar
    dsimp only
    rw [toNat_ofNat_of_ranges (by omega), if_pos h1, UInt8.ofNat_toNat, List.take_zero]
  · rw [isCont_iff] at h3
    unfold encodeChar payload
    dsimp only
    rw [toNat_ofNat_of_ranges (by omega), if_neg (by omega), if_pos (by omega)]
    rw [byte_of_toNat (b := b) (by omega), byte_of_toNat (b := b₁) (by omega)]
    rfl
  · rw [second3_iff] at h3
    rw [isCont_iff] at h4
    unfold encodeChar payload
    dsimp only
    rw [toNat_ofNat_of_ranges (by omega), if_neg (by omega), if_neg (by omega), if_pos (by omega)]
    rw [byte_of_toNat (b := b) (by omega), byte_of_toNat (b := b₁) (by omega),
      byte_of_toNat (b := b₂) (by omega)]
    rfl
  · rw [second4_iff] at h3
    rw [isCont_iff] at h4 h5
    unfold encodeChar payload
    dsimp only
    rw [toNat_ofNat_of_ranges (by omega), if_neg (by omega), if_neg (by omega), if_neg (by omega)]
    rw [byte_of_toNat (b := b) (by omega), byte_of_toNat (b := b₁) (by omega),
      byte_of_toNat (b := b₂) (by omega), byte_of_toNat (b := b₃) (by omega)]
    rfl

/-- Well-formed text, read from behind the first `k` bytes, is written back without them. -/
theorem encode_unitsFrom : ∀ (s : Bytes) (k : Nat), (unitsFrom k s).all Option.isSome = true →
    encode ((unitsFrom k s).map (·.getD replacement)) = s.drop k := by
  intro s
  induction s with
  | nil => intro k _; simp [unitsFrom]
  | cons b s ih =>
    intro k h
    cases k with
    | succ k =>
      rw [unitsFrom] at h ⊢
      rw [ih k h, List.drop_succ_cons]
    | zero =>
      rw [unitsFrom] at h ⊢
      cases hf : first? b s with
      | none => simp [hf] at h
      | some p =>
        obtain ⟨c, more⟩ := p
        simp only [hf, List.all_cons, Option.isSome_some, Bool.true_and] at h
        simp only [List.map_cons, Option.getD_some, encode_cons, List.drop_zero]
        rw [ih more h, encodeChar_of_first? hf, List.cons_append, List.take_append_drop]

/-- **Reading well-formed text, then writing, gives the bytes back.** -/
theorem encode_decode {s : Bytes} (h : isValid s = true) : encode (decode s) = s :=
  encode_unitsFrom s 0 h

/-- Well-formed text is read on its own, whatever follows. -/
theorem units_append {s : Bytes} (h : isValid s = true) (t : Bytes) :
    units (s ++ t) = (decode s).map some ++ units t := by
  rw [← units_encode_append, encode_decode h]

theorem decode_append {s : Bytes} (h : isValid s = true) (t : Bytes) :
    decode (s ++ t) = decode s ++ decode t := by
  rw [decode, units_append h, List.map_append, List.map_map]
  simp [decode]

end Utf8

end EmphasisSpacing
