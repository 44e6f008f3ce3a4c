import EmphasisSpacing.Proofs.Frame

/-!
# Scanning bytes

`Scan.line` works on bytes and scans the characters that they spell. On a well-formed text, nothing
is lost on the way: the result is well formed, spells the scanned characters (`Scan.decode_line`),
and is the text itself but for blanks next to stars (`Scan.respaced_line`).

What the frame of a line puts in front of the text is not touched (`Scan.line_frame`).
-/

namespace EmphasisSpacing

open LineSymbol

/-! ### Characters and their bytes -/

namespace Utf8

theorem encodeChar_ascii {c : Char} (h : c.toNat < 0x80) :
    encodeChar c = [UInt8.ofNat c.toNat] := by
  rw [encodeChar, if_pos h]

/-- Beyond ASCII, every byte is large. -/
theorem le_of_mem_encodeChar {c : Char} (h : ¬ c.toNat < 0x80) :
    ∀ b ∈ encodeChar c, 0x80 ≤ b.toNat := by
  have hr := toNat_ranges c
  rw [encodeChar, if_neg h]
  split_ifs with h₂ h₃
  all_goals
    simp only [List.mem_cons, List.not_mem_nil, or_false, forall_eq_or_imp, forall_eq]
    simp only [UInt8.toNat_ofNat']
    omega

/-- The byte of an ASCII character belongs to no other character. -/
theorem eq_of_mem_encodeChar {c x : Char} (hx : x.toNat < 0x80)
    (h : UInt8.ofNat x.toNat ∈ encodeChar c) : c = x := by
  by_cases hc : c.toNat < 0x80
  · rw [encodeChar_ascii hc, List.mem_singleton] at h
    have htoNat := congrArg UInt8.toNat h
    rw [toNat_byte (by omega), toNat_byte (by omega)] at htoNat
    exact Char.toNat_inj.mp htoNat.symm
  · have hle := le_of_mem_encodeChar hc _ h
    rw [toNat_byte (by omega)] at hle
    omega

theorem encodeChar_blank {c : Char} (hc : Scan.isBlank c = true) :
    ∃ b, encodeChar c = [b] ∧ Bytes.isBlank b = true := by
  simp only [Scan.isBlank, Bool.or_eq_true, beq_iff_eq] at hc
  rcases hc with rfl | rfl
  · exact ⟨Bytes.space, rfl, rfl⟩
  · exact ⟨Bytes.tab, rfl, rfl⟩

theorem spelling_encodeChar : Spelling encodeChar where
  star c hc := by
    obtain rfl : c = '*' := beq_iff_eq.mp hc
    exact ⟨Bytes.star, rfl, rfl⟩
  blank c hc := encodeChar_blank hc
  solid c hstar hblank := by
    -- No byte of the character is a star or a blank, the first and the last among them.
    have hbytes : ∀ b ∈ encodeChar c, isStar b = false ∧ isBlank b = false := by
      intro b hb
      have hne : ∀ x : Char, x.toNat < 0x80 → c ≠ x → b ≠ UInt8.ofNat x.toNat := by
        rintro x hx hcx rfl
        exact hcx (eq_of_mem_encodeChar hx hb)
      have hcstar : c ≠ '*' := fun hc => by rw [hc] at hstar; cases hstar
      have hcspace : c ≠ ' ' := fun hc => by rw [hc] at hblank; cases hblank
      have hctab : c ≠ '\t' := fun hc => by rw [hc] at hblank; cases hblank
      constructor
      · exact beq_eq_false_iff_ne.mpr (hne '*' (by decide) hcstar)
      · have hspace : b ≠ Bytes.space := hne ' ' (by decide) hcspace
        have htab : b ≠ Bytes.tab := hne '\t' (by decide) hctab
        show (b == Bytes.space || b == Bytes.tab) = false
        rw [beq_eq_false_iff_ne.mpr hspace, beq_eq_false_iff_ne.mpr htab]
        rfl
    obtain ⟨b, t, hc, -⟩ := first?_encodeChar c []
    rw [hc] at hbytes
    refine ⟨b, t, hc, (hbytes b (by simp)).1, (hbytes b (by simp)).2, ?_⟩
    rw [starsBehind, List.getLast?_eq_some_getLast (List.cons_ne_nil b t)]
    exact (hbytes _ (List.getLast_mem _)).1

theorem isValid_of_ascii {w : Bytes} (hw : ∀ b ∈ w, b < 0x80) : isValid w = true := by
  induction w with
  | nil => rfl
  | cons b w ih =>
    rw [List.forall_mem_cons] at hw
    rw [isValid_cons hw.1, ih hw.2]

theorem toNat_ofNat_ascii {b : UInt8} (hb : b < 0x80) : (Char.ofNat b.toNat).toNat = b.toNat := by
  have hlt : b.toNat < 0x80 := UInt8.lt_iff_toNat_lt.mp hb
  exact toNat_ofNat_of_ranges (.inl (by omega))

/-- Another byte is another character. -/
theorem ofNat_ne_star {b : UInt8} (hb : b < 0x80) (hne : b ≠ Bytes.star) : Char.ofNat b.toNat ≠ '*' := by
  intro heq
  have hcode := congrArg Char.toNat heq
  rw [toNat_ofNat_ascii hb] at hcode
  exact hne (UInt8.toNat_inj.mp hcode)

theorem lt_of_isBlank {b : UInt8} (hb : Bytes.isBlank b = true) : b < 0x80 := by
  rcases Bool.or_eq_true_iff.mp hb with hb | hb <;> rw [beq_iff_eq.mp hb] <;> decide

theorem lt_of_isDigit {b : UInt8} (hb : Bytes.isDigit b = true) : b < 0x80 := by
  simp only [Bytes.isDigit, Bool.and_eq_true, decide_eq_true_eq] at hb
  exact UInt8.lt_of_le_of_lt hb.2 (by decide)

/-- Moving blanks among characters moves blanks among their bytes. -/
theorem respaced_encode {cs ds : List Char} (h : Respaced cs ds) :
    Respaced (encode cs) (encode ds) :=
  h.flatMap spelling_encodeChar

end Utf8

theorem lt_of_mem_token {k : Nat} {b : UInt8} (hb : b ∈ token k) : b < 0x80 := by
  rw [token, List.cons_append, List.mem_cons, List.mem_append, List.mem_singleton] at hb
  rcases hb with rfl | hb | rfl
  · decide
  · exact Utf8.lt_of_isDigit (Integer.ofNat_isDigit hb)
  · decide

theorem Frame.ascii_head {head front : Bytes} {regions : List Bytes}
    (h : Frame head front regions) : ∀ b ∈ head, b < 0x80 := by
  intro x hx
  cases h with
  | bare => cases hx
  | bullet indent b hindent hb =>
    rcases List.mem_append.mp hx with hx | hx
    · exact lt_of_mem_token hx
    · rw [List.mem_singleton.mp hx]
      exact Utf8.lt_of_isBlank hb

namespace Scan

open Utf8

variable (stage : Stage) (settings : Settings) {s : Bytes}

/-- On a well-formed text, a stage writes the characters that it scans. -/
theorem line_eq_encode (hs : isValid s = true) :
    line stage settings s = encode (chars stage settings (decode s)) := by
  rw [line]
  split_ifs with h
  · rw [beq_iff_eq.mp h, encode_decode hs]
  · rfl

theorem isValid_line (hs : isValid s = true) : isValid (line stage settings s) = true := by
  rw [line_eq_encode stage settings hs, isValid_encode]

theorem decode_line (hs : isValid s = true) :
    decode (line stage settings s) = chars stage settings (decode s) := by
  rw [line_eq_encode stage settings hs, decode_encode]

theorem line_encode (cs : List Char) :
    line stage settings (encode cs) = encode (chars stage settings cs) := by
  rw [line_eq_encode stage settings (isValid_encode cs), decode_encode]

/-- A stage leaves the bytes of a line alone, well formed or not, or writes the characters that it
scans. -/
theorem line_cases (s : Bytes) :
    chars stage settings (decode s) = decode s ∧ line stage settings s = s ∨
      line stage settings s = encode (chars stage settings (decode s)) := by
  by_cases hsame : chars stage settings (decode s) = decode s
  · exact .inl ⟨hsame, if_pos (beq_iff_eq.mpr hsame)⟩
  · exact .inr (if_neg (by simpa using hsame))

/-- **A stage moves blanks next to stars, and nothing else.** -/
theorem respaced_line (hs : isValid s = true) : Respaced s (line stage settings s) := by
  have h := respaced_encode (respaced_chars stage settings (decode s))
  rwa [encode_decode hs, ← line_eq_encode stage settings hs] at h

/-! ### Behind a frame -/

/-- ASCII bytes in front of a text are characters in front of it. -/
theorem decode_append {w : Bytes} (hw : ∀ b ∈ w, b < 0x80) (t : Bytes) :
    decode (w ++ t) = w.map (fun b => Char.ofNat b.toNat) ++ decode t := by
  induction w with
  | nil => rfl
  | cons b w ih =>
    rw [List.forall_mem_cons] at hw
    rw [List.cons_append, decode_cons hw.1, ih hw.2]
    rfl

theorem encode_map_ascii {w : Bytes} (hw : ∀ b ∈ w, b < 0x80) :
    encode (w.map fun b => Char.ofNat b.toNat) = w := by
  have h := encode_decode (isValid_of_ascii hw)
  rw [← List.append_nil w, decode_append hw] at h
  simpa [decode, units, unitsFrom] using h

/-- **The frame stays in front.** -/
theorem line_frame {head front : Bytes} {regions : List Bytes} (h : Frame head front regions)
    (t : Bytes) : line stage settings (head ++ t) = head ++ line stage settings t := by
  cases h with
  | bare => rfl
  | bullet indent b hindent hb =>
    have hhead := (Frame.bullet indent b hindent hb).ascii_head
    have hblank : isBlank (Char.ofNat b.toNat) = true := by
      rcases Bool.or_eq_true_iff.mp hb with hb | hb <;> rw [beq_iff_eq.mp hb] <;> rfl
    -- The token is text without stars, and its last character is no blank.
    have htoken : (token 0).map (fun x => Char.ofNat x.toNat) = ['\x00', '0', '\x00'] := rfl
    have hchars : chars stage settings (decode (token 0 ++ [b] ++ t)) =
        (token 0 ++ [b]).map (fun x => Char.ofNat x.toNat) ++
          chars stage settings (decode t) := by
      have hplain : chars stage settings (['\x00', '0', '\x00'] ++ Char.ofNat b.toNat :: decode t) =
          ['\x00', '0', '\x00'] ++ Char.ofNat b.toNat :: chars stage settings (decode t) :=
        chars_behind_plain stage settings (by simp) (by simp [isBlank]) hblank (decode t)
      rw [decode_append hhead, List.map_append, List.append_assoc, htoken]
      simpa using hplain
    rw [line, line, hchars, decode_append hhead]
    by_cases hsame : chars stage settings (decode t) = decode t
    · rw [hsame]
      simp
    · rw [if_neg (by simpa using hsame), if_neg (by simpa using hsame), encode_append,
        encode_map_ascii hhead]

end Scan

end EmphasisSpacing
