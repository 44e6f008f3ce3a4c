import Mathlib.Tactic.Common
import EmphasisSpacing.Link.Percent

/-!
# Encoding and decoding a path

An encoded path is made of bytes that an address holds as they are, and of percent signs
(`Percent.isWritten_of_mem_encode`); decoding gives the path back, whatever bytes it has
(`Percent.decode_encode`).

Decoding a path that was *not* encoded is another matter: it succeeds if two hexadecimal digits follow
every percent sign (`Percent.decode_isOk_iff`), and then it makes every escape a single byte, so that the
result is shorter unless there is no percent sign at all (`Percent.length_decode_lt`).
-/

namespace EmphasisSpacing

/-- What holds of the first 256 numbers as bytes holds of every byte. -/
theorem forall_byte {P : UInt8 → Prop} (h : ∀ n : Fin 256, P (UInt8.ofNat n)) (b : UInt8) : P b := by
  have hb : P (UInt8.ofNat b.toNat) := h ⟨b.toNat, b.toNat_lt⟩
  rwa [UInt8.ofNat_toNat] at hb

namespace Percent

/-! ### Bytes -/

/-- The byte that starts an escape. -/
def sign : UInt8 := 0x25

/-- Whether a byte is a hexadecimal digit. -/
def IsHex (b : UInt8) : Prop := (hexValue? b).isSome = true

/-- Whether a byte can stand in an encoded path. -/
def isWritten (b : UInt8) : Bool := Part.path.keeps b || b == sign

theorem hexValue?_hexDigit : ∀ d < 16, hexValue? (hexDigit d) = some d := by decide

theorem keeps_hexDigit : ∀ d < 16, Part.path.keeps (hexDigit d) = true := by decide

theorem ne_sign_of_isHex {b : UInt8} (h : IsHex b) : b ≠ sign := by
  rintro rfl
  exact absurd h (by unfold IsHex; decide)

/-- What can stand in an encoded path is visible ASCII, and neither ends a path nor a query. -/
theorem isWritten_spec (b : UInt8) (h : isWritten b = true) :
    0x20 < b ∧ b < 0x7F ∧ b ≠ 0x23 ∧ b ≠ 0x3F := by
  revert h
  refine forall_byte (P := fun b => isWritten b = true → 0x20 < b ∧ b < 0x7F ∧ b ≠ 0x23 ∧ b ≠ 0x3F) ?_ b
  decide +kernel

theorem isWritten_of_mem_encode {s : Bytes} {b : UInt8} (h : b ∈ encode .path s) :
    isWritten b = true := by
  obtain ⟨c, -, hb⟩ := List.mem_flatMap.mp h
  split_ifs at hb with hkeeps
  · rw [List.mem_singleton.mp hb, isWritten, hkeeps, Bool.true_or]
  · have hhigh : c.toNat / 16 < 16 := by
      have := c.toNat_lt
      omega
    have hlow : c.toNat % 16 < 16 := Nat.mod_lt _ (by decide)
    simp only [encodeByte, List.mem_cons, List.not_mem_nil, or_false] at hb
    rcases hb with rfl | rfl | rfl
    · rfl
    · rw [isWritten, keeps_hexDigit _ hhigh, Bool.true_or]
    · rw [isWritten, keeps_hexDigit _ hlow, Bool.true_or]

theorem encode_cons (part : Part) (b : UInt8) (s : Bytes) :
    encode part (b :: s) = (if part.keeps b then [b] else encodeByte b) ++ encode part s := rfl

/-! ### Decoding step by step -/

section

variable {a b : UInt8} {s d : Bytes} {x y : Nat}

theorem decode_cons (h : b ≠ sign) : decode .path (b :: s) = (decode .path s).map (b :: ·) := by
  rw [decode, decodeFrom.eq_def]
  dsimp only
  rw [if_neg (by simpa [sign] using h)]
  rfl

theorem decode_escape (ha : hexValue? a = some x) (hb : hexValue? b = some y) :
    decode .path (sign :: a :: b :: s) = (decode .path s).map (UInt8.ofNat (x * 16 + y) :: ·) := by
  have hescaped : escaped? (a :: b :: s) = some (UInt8.ofNat (x * 16 + y), s) := by
    rw [escaped?, ha, hb]
  rw [decode, decodeFrom.eq_def]
  dsimp only
  rw [if_pos (by decide), hescaped]
  rfl

theorem decode_sign (h : escaped? s = none) :
    decode .path (sign :: s) = .error (.badEscape ((sign :: s).take 3)) := by
  rw [decode, decodeFrom.eq_def]
  dsimp only
  rw [if_pos (by decide), h]

/-- **Decoding undoes encoding**, whatever bytes a path has. -/
theorem decode_encode (s : Bytes) : decode .path (encode .path s) = .ok s := by
  induction s with
  | nil => rfl
  | cons b s ih =>
    rw [encode_cons]
    split_ifs with hkeeps
    · have hb : b ≠ sign := by
        rintro rfl
        exact absurd hkeeps (by decide)
      rw [List.singleton_append, decode_cons hb, ih]
      rfl
    · have hlt := b.toNat_lt
      have hhigh := hexValue?_hexDigit (b.toNat / 16) (by omega)
      have hlow := hexValue?_hexDigit (b.toNat % 16) (by omega)
      have hvalue : UInt8.ofNat (b.toNat / 16 * 16 + b.toNat % 16) = b := by
        rw [Nat.div_add_mod', UInt8.ofNat_toNat]
      show decode .path (sign :: hexDigit (b.toNat / 16) :: hexDigit (b.toNat % 16) :: encode .path s) = _
      rw [decode_escape hhigh hlow, ih, hvalue]
      rfl

theorem encode_injective {s t : Bytes} (h : encode .path s = encode .path t) : s = t := by
  have hdecode := congrArg (decode .path) h
  rw [decode_encode, decode_encode] at hdecode
  exact Except.ok.inj hdecode

/-! ### Texts that can be decoded -/

/-- Whether two hexadecimal digits follow every percent sign. -/
def WellEscaped (s : Bytes) : Prop :=
  ∀ front rest, s = front ++ sign :: rest → ∃ a b more, rest = a :: b :: more ∧ IsHex a ∧ IsHex b

/-- A text is empty, or it starts with a plain byte, with an escape, or with a percent sign that is none.
This is the induction over its parts. -/
theorem escape_induction {motive : Bytes → Prop} (nil : motive [])
    (plain : ∀ b s, b ≠ sign → motive s → motive (b :: s))
    (escape : ∀ a b s, IsHex a → IsHex b → motive s → motive (sign :: a :: b :: s))
    (broken : ∀ s, escaped? s = none → motive (sign :: s)) (s : Bytes) : motive s := by
  induction hn : s.length using Nat.strongRecOn generalizing s with
  | ind n ih =>
  cases s with
  | nil => exact nil
  | cons c s =>
    by_cases hc : c = sign
    · subst hc
      cases hescaped : escaped? s with
      | none => exact broken s hescaped
      | some value =>
        -- Only two hexadecimal digits are an escape.
        unfold escaped? at hescaped
        split at hescaped
        · next a b rest =>
          split at hescaped
          · next x y hx hy =>
            have hrest : rest.length < n := by
              rw [← hn]
              simp only [List.length_cons]
              omega
            exact escape a b rest (by rw [IsHex, hx]; rfl) (by rw [IsHex, hy]; rfl) (ih _ hrest _ rfl)
          · cases hescaped
        · cases hescaped
    · have hs : s.length < n := by
        rw [← hn, List.length_cons]
        omega
      exact plain c s hc (ih _ hs _ rfl)

theorem wellEscaped_nil : WellEscaped [] := fun front rest h => by simp at h

theorem wellEscaped_cons (h : b ≠ sign) : WellEscaped (b :: s) ↔ WellEscaped s := by
  constructor
  · rintro hs front rest rfl
    exact hs (b :: front) rest rfl
  · intro hs front rest hsplit
    cases front with
    | nil => exact absurd (List.cons.inj hsplit).1 h
    | cons c front => exact hs front rest (List.cons.inj hsplit).2

theorem wellEscaped_escape (ha : IsHex a) (hb : IsHex b) :
    WellEscaped (sign :: a :: b :: s) ↔ WellEscaped s := by
  rw [← wellEscaped_cons (s := s) (ne_sign_of_isHex hb),
    ← wellEscaped_cons (s := b :: s) (ne_sign_of_isHex ha)]
  constructor
  · rintro hs front rest hsplit
    exact hs (sign :: front) rest (by rw [hsplit, List.cons_append])
  · intro hs front rest hsplit
    cases front with
    | nil => exact ⟨a, b, s, (List.cons.inj hsplit).2.symm, ha, hb⟩
    | cons c front => exact hs front rest (List.cons.inj hsplit).2

theorem not_wellEscaped_sign (h : escaped? s = none) : ¬ WellEscaped (sign :: s) := by
  intro hs
  obtain ⟨a, b, more, rfl, ha, hb⟩ := hs [] s rfl
  obtain ⟨x, hx⟩ := Option.isSome_iff_exists.mp ha
  obtain ⟨y, hy⟩ := Option.isSome_iff_exists.mp hb
  rw [escaped?, hx, hy] at h
  cases h

/-- **What can be decoded.** -/
theorem decode_isOk_iff (s : Bytes) : (∃ d, decode .path s = .ok d) ↔ WellEscaped s := by
  have hmap : ∀ (r : Except DecodeError Bytes) (f : Bytes → Bytes),
      (∃ d, r.map f = .ok d) ↔ ∃ d, r = .ok d := by
    intro r f
    cases r with
    | error e => simp [Except.map]
    | ok t => simp [Except.map]
  induction s using escape_induction with
  | nil => exact ⟨fun _ => wellEscaped_nil, fun _ => ⟨[], rfl⟩⟩
  | plain b s hb ih =>
    rw [decode_cons hb, hmap, wellEscaped_cons hb]
    exact ih
  | escape a b s ha hb ih =>
    obtain ⟨x, hx⟩ := Option.isSome_iff_exists.mp ha
    obtain ⟨y, hy⟩ := Option.isSome_iff_exists.mp hb
    rw [decode_escape hx hy, hmap, wellEscaped_escape ha hb]
    exact ih
  | broken s hs =>
    rw [decode_sign hs]
    simpa using not_wellEscaped_sign hs

/-- Without a percent sign nothing is decoded. -/
theorem decode_of_notMem (h : sign ∉ s) : decode .path s = .ok s := by
  induction s with
  | nil => rfl
  | cons b s ih =>
    rw [List.mem_cons, not_or] at h
    rw [decode_cons (Ne.symm h.1), ih h.2]
    rfl

/-- **Decoding shortens a text that has percent signs.** -/
theorem length_decode_lt (h : decode .path s = .ok d) (hs : sign ∈ s) : d.length < s.length := by
  have hmap : ∀ {r : Except DecodeError Bytes} {v : UInt8} {d : Bytes},
      r.map (v :: ·) = .ok d → ∃ t, r = .ok t ∧ d = v :: t := by
    intro r v d hr
    cases r with
    | error e => cases hr
    | ok t => exact ⟨t, rfl, (Except.ok.inj hr).symm⟩
  -- The bound that holds in any case carries the induction.
  have hle : d.length ≤ s.length ∧ (sign ∈ s → d.length < s.length) := by
    clear hs
    induction s using escape_induction generalizing d with
    | nil =>
      cases h
      exact ⟨Nat.le_refl _, fun hmem => absurd hmem List.not_mem_nil⟩
    | plain b s hb ih =>
      rw [decode_cons hb] at h
      obtain ⟨t, ht, rfl⟩ := hmap h
      obtain ⟨hle, hlt⟩ := ih ht
      refine ⟨Nat.succ_le_succ hle, fun hmem => Nat.succ_lt_succ (hlt ?_)⟩
      exact (List.mem_cons.mp hmem).resolve_left (Ne.symm hb)
    | escape a b s ha hb ih =>
      obtain ⟨x, hx⟩ := Option.isSome_iff_exists.mp ha
      obtain ⟨y, hy⟩ := Option.isSome_iff_exists.mp hb
      rw [decode_escape hx hy] at h
      obtain ⟨t, ht, rfl⟩ := hmap h
      have hle := (ih ht).1
      simp only [List.length_cons]
      exact ⟨by omega, fun _ => by omega⟩
    | broken s hs =>
      rw [decode_sign hs] at h
      cases h
  exact hle.2 hs

end

end Percent

end EmphasisSpacing
