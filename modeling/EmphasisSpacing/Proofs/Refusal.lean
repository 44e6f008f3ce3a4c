import EmphasisSpacing.Document.Validation
import EmphasisSpacing.Proofs.Scanned

/-!
# Why a document is refused

Reading a document stops at the first byte that starts no character and at the first NUL. Which of the
two comes first says why the document is refused; if neither comes, the number of control characters
decides (`TextFault.ofRest_eq`). Everything else is about where reading stops, in terms of bytes: what
was read up to there is the UTF-8 form of characters, and what follows starts with the form of none
(`Utf8.units_eq_append_iff`, `Utf8.head?_units_eq_none_iff`).

The main statement, `textFault?_spec`, does not speak of reading at all. Its measure of UTF-8 is
`String.utf8EncodeChar`, which knows one form for each code point, no surrogate, and nothing above
U+10FFFF.
-/

namespace EmphasisSpacing

/-! ### Where reading stops -/

namespace TextFault

/-- Whether reading stops at a unit: at a byte that starts no character, or at a NUL. -/
def stops (u : Option Char) : Bool := u == none || u == some '\x00'

/-- The fault of a document in which reading stops at `stop`, if anywhere. -/
def ofStop (stop : Option (Option Char)) (tooMany : Bool) : Option TextFault :=
  match stop with
  | some none => some .invalidUtf8
  | some (some _) => some .binary
  | none => if tooMany then some .binary else none

section

variable {stop : Option (Option Char)} {tooMany : Bool}

theorem ofStop_eq_none_iff : ofStop stop tooMany = none ↔ stop = none ∧ tooMany = false := by
  rcases stop with _ | _ | c <;> cases tooMany <;> simp [ofStop]

theorem ofStop_eq_invalidUtf8_iff : ofStop stop tooMany = some .invalidUtf8 ↔ stop = some none := by
  rcases stop with _ | _ | c <;> cases tooMany <;> simp [ofStop]

theorem ofStop_eq_binary_iff :
    ofStop stop tooMany = some .binary ↔
      (∃ c, stop = some (some c)) ∨ stop = none ∧ tooMany = true := by
  rcases stop with _ | _ | c <;> cases tooMany <;> simp [ofStop]

end

/-- **The first stop decides**, and the control characters where there is none. -/
theorem ofRest_eq (skip controls length : Nat) (s : Bytes) :
    ofRest skip controls length s =
      ofStop ((Utf8.unitsFrom skip s).find? stops)
        (tooManyControls
          (controls + (Utf8.unitsFrom skip s).countP fun u =>
            CodePoint.isControl (codeOf (u.getD Utf8.replacement)))
          (length + s.length)) := by
  induction s generalizing skip controls length with
  | nil => rw [ofRest, Utf8.unitsFrom]; rfl
  | cons b s ih =>
    have hlength : length + (b :: s).length = length + 1 + s.length := by
      rw [List.length_cons]
      omega
    cases skip with
    | succ skip => rw [ofRest, Utf8.unitsFrom, ih, hlength]
    | zero =>
      rw [ofRest, Utf8.unitsFrom]
      cases hfirst : Utf8.first? b s with
      | none => rfl
      | some read =>
        obtain ⟨c, more⟩ := read
        have hnul : (c.toNat == 0) = stops (some c) := by
          rw [Bool.eq_iff_iff, beq_iff_eq]
          simpa [stops] using Char.toNat_inj (d := '\x00')
        dsimp only
        rw [hnul]
        cases hstop : stops (some c) with
        | true =>
          rw [if_pos rfl, List.find?_cons_of_pos hstop]
          rfl
        | false =>
          -- The scan adds to its counter first; `countP` adds to the count of the rest.
          have hcount : ∀ n : Nat, (if CodePoint.isControl (codeOf c) then controls + 1
              else controls) + n =
                controls + (n + if CodePoint.isControl (codeOf c) then 1 else 0) := by
            intro n
            split_ifs <;> omega
          rw [if_neg Bool.false_ne_true, ih, hlength, List.find?_cons_of_neg (by simp [hstop]),
            List.countP_cons, hcount]
          rfl

/-- In front of the first stop there are characters, and no NUL among them. -/
theorem forall_not_stops_iff {us : List (Option Char)} :
    (∀ u ∈ us, (!stops u) = true) ↔ ∃ cs : List Char, us = cs.map some ∧ '\x00' ∉ cs := by
  constructor
  · intro h
    induction us with
    | nil => exact ⟨[], rfl, by simp⟩
    | cons u us ih =>
      rw [List.forall_mem_cons] at h
      obtain ⟨cs, rfl, hcs⟩ := ih h.2
      cases u with
      | none => exact absurd h.1 (by decide)
      | some c =>
        have hc : '\x00' ≠ c := by
          rintro rfl
          exact absurd h.1 (by decide)
        exact ⟨c :: cs, rfl, by simp [hc, hcs]⟩
  · rintro ⟨cs, rfl, hcs⟩ u hu
    obtain ⟨c, hc, rfl⟩ := List.mem_map.mp hu
    have hne : c ≠ '\x00' := fun h => hcs (h ▸ hc)
    simp [stops, hne]

section

variable {us : List (Option Char)}

theorem find?_stops_eq_none_iff :
    us.find? stops = none ↔ ∃ cs : List Char, us = cs.map some ∧ '\x00' ∉ cs := by
  rw [List.find?_eq_none, ← forall_not_stops_iff]
  simp

theorem find?_stops_eq_some_iff {u : Option Char} :
    us.find? stops = some u ↔
      stops u = true ∧ ∃ (cs : List Char) (more : _), us = cs.map some ++ u :: more ∧ '\x00' ∉ cs := by
  rw [List.find?_eq_some_iff_append]
  refine and_congr_right fun _ => ?_
  constructor
  · rintro ⟨front, more, rfl, hfront⟩
    obtain ⟨cs, rfl, hcs⟩ := forall_not_stops_iff.mp hfront
    exact ⟨cs, more, rfl, hcs⟩
  · rintro ⟨cs, more, rfl, hcs⟩
    exact ⟨_, more, rfl, forall_not_stops_iff.mpr ⟨cs, rfl, hcs⟩⟩

end

end TextFault

/-! ### What was read, in bytes -/

namespace Utf8

theorem unitsFrom_eq_units_drop (k : Nat) (s : Bytes) : unitsFrom k s = units (s.drop k) := by
  induction s generalizing k with
  | nil => rw [List.drop_nil, unitsFrom]; rfl
  | cons b s ih =>
    cases k with
    | zero => rfl
    | succ k => rw [unitsFrom, ih, List.drop_succ_cons]

/-- A unit is a character, of which the bytes were read, or a byte that starts none. -/
theorem units_cons (b : UInt8) (s : Bytes) :
    (∃ c t, b :: s = encodeChar c ++ t ∧ units (b :: s) = some c :: units t) ∨
      first? b s = none ∧ units (b :: s) = none :: units s := by
  rw [units, unitsFrom]
  cases hfirst : first? b s with
  | none => exact .inr ⟨rfl, rfl⟩
  | some read =>
    obtain ⟨c, more⟩ := read
    refine .inl ⟨c, s.drop more, ?_, congrArg (some c :: ·) (unitsFrom_eq_units_drop more s)⟩
    rw [encodeChar_of_first? hfirst, List.cons_append, List.take_append_drop]

/-- **Characters were read exactly where their bytes stand.** -/
theorem units_eq_append_iff {s : Bytes} {cs : List Char} {us : List (Option Char)} :
    units s = cs.map some ++ us ↔ ∃ t, s = encode cs ++ t ∧ units t = us := by
  constructor
  · intro h
    induction cs generalizing s with
    | nil => exact ⟨s, rfl, h⟩
    | cons c cs ih =>
      cases s with
      | nil => cases h
      | cons b s =>
        rcases units_cons b s with ⟨d, t, hbytes, hunits⟩ | ⟨-, hunits⟩
        · rw [hunits] at h
          obtain ⟨hd, htail⟩ := List.cons.inj h
          obtain ⟨t', rfl, ht'⟩ := ih htail
          obtain rfl : d = c := Option.some.inj hd
          exact ⟨t', by rw [hbytes, encode_cons, List.append_assoc], ht'⟩
        · rw [hunits] at h
          cases (List.cons.inj h).1
  · rintro ⟨t, rfl, ht⟩
    rw [units_encode_append, ht]

/-- **Reading fails exactly where no character starts.** -/
theorem head?_units_eq_none_iff (s : Bytes) :
    (units s).head? = some none ↔ s ≠ [] ∧ ∀ c, ¬ encodeChar c <+: s := by
  cases s with
  | nil => simp [units, unitsFrom]
  | cons b s =>
    rcases units_cons b s with ⟨c, t, hbytes, hunits⟩ | ⟨hfirst, hunits⟩
    · rw [hunits]
      refine iff_of_false (by simp) fun h => h.2 c ?_
      rw [hbytes]
      exact List.prefix_append ..
    · rw [hunits]
      refine iff_of_true rfl ⟨List.cons_ne_nil b s, ?_⟩
      rintro c ⟨t, ht⟩
      -- The bytes of a character are read as that character.
      obtain ⟨b', w, hw, hread⟩ := first?_encodeChar c t
      rw [hw, List.cons_append] at ht
      obtain ⟨rfl, rfl⟩ := List.cons.inj ht
      rw [hfirst] at hread
      cases hread

/-- The form of a character is the one that the standard library gives. -/
theorem encodeChar_eq (c : Char) : encodeChar c = String.utf8EncodeChar c := by
  have hrange := toNat_ranges c
  unfold encodeChar String.utf8EncodeChar
  rw [show c.val.toNat = c.toNat from rfl]
  generalize c.toNat = n at hrange
  -- Both sides take the lead byte from the bits above the others; only one of them cuts these to size.
  have htwo : n < 0x800 → n / 64 % 32 + 192 = 0xC0 + n / 64 := by omega
  have hthree : n < 0x10000 → n / 4096 % 16 + 224 = 0xE0 + n / 4096 := by omega
  have hfour : n / 262144 % 8 + 240 = 0xF0 + n / 262144 := by omega
  have hcont : ∀ m, m % 64 + 128 = 0x80 + m % 64 := fun m => Nat.add_comm _ _
  dsimp only
  by_cases h₁ : n < 0x80
  · rw [if_pos h₁, if_pos (Nat.le_of_lt_succ h₁)]
  rw [if_neg h₁, if_neg (show ¬ n ≤ 127 by omega), hcont]
  by_cases h₂ : n < 0x800
  · rw [if_pos h₂, if_pos (Nat.le_of_lt_succ h₂), htwo h₂]
  rw [if_neg h₂, if_neg (show ¬ n ≤ 2047 by omega), hcont]
  by_cases h₃ : n < 0x10000
  · rw [if_pos h₃, if_pos (Nat.le_of_lt_succ h₃), hthree h₃]
  · rw [if_neg h₃, if_neg (show ¬ n ≤ 65535 by omega), hcont, hfour]

/-- The form of characters, in the words of the standard library. -/
theorem encode_eq (cs : List Char) : encode cs = cs.flatMap String.utf8EncodeChar :=
  congrArg (cs.flatMap ·) (funext encodeChar_eq)

/-- A NUL among the bytes is a NUL among the characters. -/
theorem nul_mem_encode_iff {cs : List Char} : tokenMark ∈ encode cs ↔ '\x00' ∈ cs := by
  rw [encode, List.mem_flatMap]
  constructor
  · rintro ⟨c, hc, hmem⟩
    rwa [← eq_of_mem_encodeChar (x := '\x00') (by decide) hmem]
  · intro h
    exact ⟨_, h, List.mem_singleton.mpr rfl⟩

end Utf8

/-! ### The verdict -/

namespace TextFault

/-- A control character that text does not hold. -/
def IsControl (c : Char) : Prop :=
  c.toNat < 0x20 ∧ c ∉ ['\n', '\r', '\t', '\x0C'] ∨ c.toNat = 0x7F

instance (c : Char) : Decidable (IsControl c) := inferInstanceAs (Decidable (_ ∨ _))

/-- Whether a document that spells `cs` has some length and holds a good share of control characters. -/
def LooksBinary (cs : List Char) (length : Nat) : Prop :=
  64 ≤ length ∧ 2 * length ≤ 100 * cs.countP fun c => decide (IsControl c)

theorem isControl_eq (c : Char) : CodePoint.isControl (codeOf c) = decide (IsControl c) := by
  have hchar : ∀ d : Char, c = d ↔ c.toNat = d.toNat := fun d => Char.toNat_inj.symm
  have hcontrol : IsControl c ↔ c.toNat < 0x20 ∧ c.toNat ≠ 0x0A ∧ c.toNat ≠ 0x0D ∧ c.toNat ≠ 0x09 ∧
      c.toNat ≠ 0x0C ∨ c.toNat = 0x7F := by
    simp [IsControl, hchar]
  have hcode : codeOf c = c.toNat := rfl
  rw [Bool.eq_iff_iff, decide_eq_true_iff, hcontrol]
  simp only [CodePoint.isControl, Bool.and_eq_true, Bool.not_eq_true', Bool.or_eq_false_iff,
    Bool.or_eq_true, beq_iff_eq, beq_eq_false_iff_ne, decide_eq_true_eq]
  omega

theorem tooManyControls_iff (controls length : Nat) :
    tooManyControls controls length = true ↔ 64 ≤ length ∧ 2 * length ≤ 100 * controls := by
  rw [tooManyControls, Bool.and_eq_true, decide_eq_true_eq, decide_eq_true_eq, minSample,
    maxControlPercent, Nat.mul_comm length, Nat.mul_comm controls]

end TextFault

open TextFault

theorem textFault?_eq_ofStop (s : Bytes) :
    textFault? s = ofStop ((Utf8.units s).find? stops)
      (tooManyControls ((Utf8.units s).countP fun u =>
        CodePoint.isControl (codeOf (u.getD Utf8.replacement))) s.length) := by
  rw [textFault?, ofRest_eq, Nat.zero_add, Nat.zero_add]
  rfl

/-- Reading stops nowhere in the form of characters without a NUL. -/
theorem find?_stops_units_eq_none_iff (s : Bytes) :
    (Utf8.units s).find? stops = none ↔ ∃ cs : List Char, s = Utf8.encode cs ∧ '\x00' ∉ cs := by
  rw [find?_stops_eq_none_iff]
  refine exists_congr fun cs => and_congr_left fun _ => ?_
  have hunits : Utf8.units s = cs.map some ++ [] ↔ ∃ t, s = Utf8.encode cs ++ t ∧ Utf8.units t = [] :=
    Utf8.units_eq_append_iff
  rw [List.append_nil] at hunits
  rw [hunits]
  constructor
  · rintro ⟨t, rfl, ht⟩
    cases t with
    | nil => exact List.append_nil _
    | cons b t =>
      rcases Utf8.units_cons b t with ⟨c, u, -, hunits⟩ | ⟨-, hunits⟩
      · rw [hunits] at ht
        cases ht
      · rw [hunits] at ht
        cases ht
  · rintro rfl
    exact ⟨[], (List.append_nil _).symm, rfl⟩

/-- Reading stops at a unit behind the form of characters without a NUL. -/
theorem find?_stops_units_eq_some_iff {s : Bytes} {u : Option Char} :
    (Utf8.units s).find? stops = some u ↔ stops u = true ∧
      ∃ (cs : List Char) (rest : Bytes), s = Utf8.encode cs ++ rest ∧ '\x00' ∉ cs ∧
        (Utf8.units rest).head? = some u := by
  rw [find?_stops_eq_some_iff]
  refine and_congr_right fun _ => ?_
  constructor
  · rintro ⟨cs, more, hunits, hcs⟩
    obtain ⟨rest, rfl, hrest⟩ := Utf8.units_eq_append_iff.mp hunits
    exact ⟨cs, rest, rfl, hcs, by rw [hrest, List.head?_cons]⟩
  · rintro ⟨cs, rest, rfl, hcs, hhead⟩
    obtain ⟨more, hmore⟩ := List.head?_eq_some_iff.mp hhead
    exact ⟨cs, more, by rw [Utf8.units_encode_append, hmore], hcs⟩

theorem countP_units_encode (cs : List Char) :
    ((Utf8.units (Utf8.encode cs)).countP fun u =>
      CodePoint.isControl (codeOf (u.getD Utf8.replacement))) =
        cs.countP fun c => decide (IsControl c) := by
  rw [Utf8.units_encode, List.countP_map]
  exact List.countP_congr fun c _ => by simp [isControl_eq]

theorem textFault?_eq_none_iff_encode (s : Bytes) :
    textFault? s = none ↔
      ∃ cs : List Char, s = Utf8.encode cs ∧ '\x00' ∉ cs ∧ ¬ LooksBinary cs s.length := by
  rw [textFault?_eq_ofStop, ofStop_eq_none_iff, find?_stops_units_eq_none_iff, ← Bool.not_eq_true,
    tooManyControls_iff]
  constructor
  · rintro ⟨⟨cs, rfl, hcs⟩, hfew⟩
    rw [countP_units_encode] at hfew
    exact ⟨cs, rfl, hcs, hfew⟩
  · rintro ⟨cs, rfl, hcs, hfew⟩
    rw [countP_units_encode]
    exact ⟨⟨cs, rfl, hcs⟩, hfew⟩

theorem textFault?_eq_invalidUtf8_iff (s : Bytes) :
    textFault? s = some .invalidUtf8 ↔
      ∃ (cs : List Char) (rest : Bytes), s = Utf8.encode cs ++ rest ∧ '\x00' ∉ cs ∧ rest ≠ [] ∧
        ∀ c, ¬ Utf8.encodeChar c <+: rest := by
  have hstops : stops none = true := rfl
  simp only [textFault?_eq_ofStop, ofStop_eq_invalidUtf8_iff, find?_stops_units_eq_some_iff, hstops,
    true_and, Utf8.head?_units_eq_none_iff]

/-- A NUL among characters is a first NUL. -/
theorem exists_first_nul {cs : List Char} (h : '\x00' ∈ cs) (t : Bytes) :
    ∃ (ds : List Char) (rest : Bytes),
      Utf8.encode cs ++ t = Utf8.encode ds ++ 0 :: rest ∧ '\x00' ∉ ds := by
  obtain ⟨ds, es, rfl, hds⟩ := List.eq_append_cons_of_mem h
  refine ⟨ds, Utf8.encode es ++ t, ?_, hds⟩
  rw [Utf8.encode_append, Utf8.encode_cons, List.append_assoc, List.append_assoc]
  rfl

theorem textFault?_eq_binary_iff (s : Bytes) :
    textFault? s = some .binary ↔
      (∃ (cs : List Char) (rest : Bytes), s = Utf8.encode cs ++ 0 :: rest) ∨
        ∃ cs : List Char, s = Utf8.encode cs ∧ LooksBinary cs s.length := by
  have hnul : ∀ {cs : List Char} (rest : Bytes), '\x00' ∉ cs →
      textFault? (Utf8.encode cs ++ 0 :: rest) = some .binary := by
    intro cs rest hcs
    rw [textFault?_eq_ofStop, ofStop_eq_binary_iff]
    refine .inl ⟨'\x00', find?_stops_units_eq_some_iff.mpr ⟨rfl, cs, 0 :: rest, rfl, hcs, ?_⟩⟩
    exact congrArg List.head? (Utf8.units_encode_append ['\x00'] rest)
  constructor
  · intro h
    rw [textFault?_eq_ofStop, ofStop_eq_binary_iff, find?_stops_units_eq_none_iff,
      tooManyControls_iff] at h
    rcases h with ⟨c, hstop⟩ | ⟨⟨cs, rfl, -⟩, hmany⟩
    · obtain ⟨hc, cs, rest, rfl, -, hhead⟩ := find?_stops_units_eq_some_iff.mp hstop
      obtain rfl : c = '\x00' := by simpa [stops] using hc
      obtain ⟨more, hmore⟩ := List.head?_eq_some_iff.mp hhead
      have hread : Utf8.units rest = ['\x00'].map some ++ more := hmore
      obtain ⟨t, rfl, -⟩ := Utf8.units_eq_append_iff.mp hread
      exact .inl ⟨cs, t, rfl⟩
    · rw [countP_units_encode] at hmany
      exact .inr ⟨cs, rfl, hmany⟩
  · rintro (⟨cs, rest, rfl⟩ | ⟨cs, rfl, hmany⟩)
    · by_cases hcs : '\x00' ∈ cs
      · obtain ⟨ds, rest', hsplit, hds⟩ := exists_first_nul hcs (0 :: rest)
        rw [hsplit]
        exact hnul rest' hds
      · exact hnul rest hcs
    · by_cases hcs : '\x00' ∈ cs
      · obtain ⟨ds, rest', hsplit, hds⟩ := exists_first_nul hcs []
        rw [List.append_nil] at hsplit
        rw [hsplit]
        exact hnul rest' hds
      · rw [textFault?_eq_ofStop, ofStop_eq_binary_iff, find?_stops_units_eq_none_iff,
          tooManyControls_iff, countP_units_encode]
        exact .inr ⟨⟨cs, rfl, hcs⟩, hmany⟩

/-- **What is accepted, and why the rest is refused.** A document is text when it is the UTF-8 form of
characters, holds no NUL, and does not look binary. It is refused as ill formed exactly when bytes that
start no character follow well-formed text without a NUL, and in all other cases as binary: a NUL
follows well-formed text, or all of it is well formed and looks binary. -/
theorem textFault?_spec (s : Bytes) :
    (textFault? s = none ↔
      ∃ cs : List Char, s = cs.flatMap String.utf8EncodeChar ∧ 0 ∉ s ∧ ¬ LooksBinary cs s.length) ∧
    (textFault? s = some .invalidUtf8 ↔
      ∃ (cs : List Char) (rest : Bytes), s = cs.flatMap String.utf8EncodeChar ++ rest ∧
        0 ∉ cs.flatMap String.utf8EncodeChar ∧ rest ≠ [] ∧
          ∀ c, ¬ String.utf8EncodeChar c <+: rest) ∧
    (textFault? s = some .binary ↔
      (∃ (cs : List Char) (rest : Bytes), s = cs.flatMap String.utf8EncodeChar ++ 0 :: rest) ∨
        ∃ cs : List Char, s = cs.flatMap String.utf8EncodeChar ∧ LooksBinary cs s.length) := by
  simp only [← Utf8.encode_eq, ← Utf8.encodeChar_eq]
  refine ⟨?_, ?_, textFault?_eq_binary_iff s⟩
  · rw [textFault?_eq_none_iff_encode]
    refine exists_congr fun cs => and_congr_right ?_
    rintro rfl
    exact and_congr_left fun _ => not_congr Utf8.nul_mem_encode_iff.symm
  · rw [textFault?_eq_invalidUtf8_iff]
    refine exists_congr fun cs => exists_congr fun rest => and_congr_right fun _ => ?_
    exact and_congr_left fun _ => not_congr Utf8.nul_mem_encode_iff.symm

end EmphasisSpacing
