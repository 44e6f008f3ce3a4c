import EmphasisSpacing.Proofs.Shift
import EmphasisSpacing.Proofs.Token

/-!
# Bytes with holes

A protected line is a list of *atoms*: bytes of the line, and holes where its regions were. A hole
is known by a number. `render` writes a hole as a token, and `plug` fills holes with what they stand
for.

Bullets shift the numbers of all other regions by one, so `render` takes the number of the first
region as a parameter, and the atoms themselves do not depend on it.
-/

namespace EmphasisSpacing

open LineSymbol

/-- A byte of a line, or the place of a region that was taken out of it. -/
inductive Atom where
  | byte (b : UInt8)
  | hole (k : Nat)
  deriving DecidableEq, Repr

namespace Atom

instance : LineSymbol Atom where
  isStar
    | .byte b => b == Bytes.star
    | .hole _ => false
  isBlank
    | .byte b => Bytes.isBlank b
    | .hole _ => false
  isBlank_of_isStar a h := by
    cases a with
    | byte b => exact isBlank_of_isStar b h
    | hole k => cases h

/-- The bytes of an atom. The hole with number 0 is written with the number `base`. -/
def bytes (base : Nat) : Atom → Bytes
  | .byte b => [b]
  | .hole k => token (base + k)

/-- The bytes of a list of atoms. -/
def render (base : Nat) (as : List Atom) : Bytes := as.flatMap (bytes base)

/-- A byte string as atoms. -/
def plain (s : Bytes) : List Atom := s.map .byte

/-- The atoms with every hole replaced by what `f` gives for its number. -/
def plug (f : Nat → List Atom) (as : List Atom) : List Atom :=
  as.flatMap fun
    | .byte b => [.byte b]
    | .hole k => f k

/-- The numbers of the holes, from left to right. -/
def holes (as : List Atom) : List Nat :=
  as.filterMap fun
    | .byte _ => none
    | .hole k => some k

section

variable (base : Nat)

@[simp]
theorem bytes_byte (b : UInt8) : bytes base (.byte b) = [b] := rfl

@[simp]
theorem bytes_hole (k : Nat) : bytes base (.hole k) = token (base + k) := rfl

@[simp]
theorem render_nil : render base [] = [] := rfl

@[simp]
theorem render_cons (a : Atom) (as : List Atom) :
    render base (a :: as) = a.bytes base ++ render base as := rfl

@[simp]
theorem render_append (as bs : List Atom) :
    render base (as ++ bs) = render base as ++ render base bs := by
  simp [render]

@[simp]
theorem render_plain (s : Bytes) : render base (plain s) = s := by
  induction s with
  | nil => rfl
  | cons b s ih =>
    have hcons : plain (b :: s) = .byte b :: plain s := rfl
    rw [hcons, render_cons, ih]
    rfl

end

section

variable (f : Nat → List Atom)

@[simp]
theorem plug_nil : plug f [] = [] := rfl

@[simp]
theorem plug_byte (b : UInt8) (as : List Atom) :
    plug f (.byte b :: as) = .byte b :: plug f as := rfl

@[simp]
theorem plug_hole (k : Nat) (as : List Atom) : plug f (.hole k :: as) = f k ++ plug f as := rfl

@[simp]
theorem plug_append (as bs : List Atom) : plug f (as ++ bs) = plug f as ++ plug f bs := by
  simp [plug]

end

@[simp]
theorem holes_nil : holes [] = [] := rfl

@[simp]
theorem holes_byte (b : UInt8) (as : List Atom) : holes (.byte b :: as) = holes as := rfl

@[simp]
theorem holes_hole (k : Nat) (as : List Atom) : holes (.hole k :: as) = k :: holes as := rfl

@[simp]
theorem holes_append (as bs : List Atom) : holes (as ++ bs) = holes as ++ holes bs := by
  simp [holes]

@[simp]
theorem holes_plain (s : Bytes) : holes (plain s) = [] := by
  induction s with
  | nil => rfl
  | cons b s ih => exact ih

theorem plain_append (s t : Bytes) : plain (s ++ t) = plain s ++ plain t := by simp [plain]

theorem mem_holes_iff {k : Nat} {as : List Atom} : k ∈ holes as ↔ .hole k ∈ as := by
  induction as with
  | nil => simp
  | cons a as ih => cases a <;> simp [ih]

theorem bytes_ne_nil (base : Nat) (a : Atom) : a.bytes base ≠ [] := by
  cases a with
  | byte b => simp [bytes]
  | hole k => exact token_ne_nil _

theorem render_eq_nil {base : Nat} {as : List Atom} (h : render base as = []) : as = [] := by
  cases as with
  | nil => rfl
  | cons a as => exact absurd (List.append_eq_nil_iff.mp h).1 (bytes_ne_nil base a)

/-! ### Bytes that no token holds -/

/-- Whether a byte occurs in no token. -/
def outsideTokens (x : UInt8) : Bool := x != tokenMark && !Bytes.isDigit x

theorem notMem_token {x : UInt8} (hx : outsideTokens x = true) (k : Nat) : x ∉ token k := by
  simp only [outsideTokens, Bool.and_eq_true, bne_iff_ne, Bool.not_eq_true'] at hx
  intro hmem
  simp only [token, List.cons_append, List.mem_cons, List.mem_append, List.not_mem_nil,
    or_false] at hmem
  rcases hmem with h | h | h
  · exact hx.1 h
  · rw [Integer.ofNat_isDigit h] at hx
    exact absurd hx.2 (by decide)
  · exact hx.1 h

theorem outsideTokens_star : outsideTokens Bytes.star = true := by decide

theorem outsideTokens_of_isBlank {b : UInt8} (hb : Bytes.isBlank b = true) :
    outsideTokens b = true := by
  simp only [Bytes.isBlank, Bool.or_eq_true, beq_iff_eq] at hb
  rcases hb with rfl | rfl <;> decide

theorem tokenMark_notMem_blank {b : UInt8} (hb : Bytes.isBlank b = true) : tokenMark ∉ [b] := by
  rw [List.mem_singleton]
  rintro rfl
  cases hb

/-- A byte that no token holds is an atom of its own. -/
theorem render_eq_append_cons {base : Nat} {x : UInt8} (hx : outsideTokens x = true) :
    ∀ {as : List Atom} {u v : Bytes}, render base as = u ++ x :: v →
      ∃ us vs, as = us ++ .byte x :: vs ∧ render base us = u ∧ render base vs = v := by
  intro as
  induction as with
  | nil => intro u v h; simp at h
  | cons a as ih =>
    intro u v h
    rw [render_cons] at h
    rcases List.append_eq_append_iff.mp h with ⟨w, hu, hv⟩ | ⟨w, ha, hw⟩
    · -- The atom lies in front of the byte.
      obtain ⟨us, vs, rfl, hus, hvs⟩ := ih hv
      exact ⟨a :: us, vs, rfl, by rw [render_cons, hus, hu], hvs⟩
    · cases w with
      | nil =>
        rw [List.nil_append] at hw
        -- The byte starts right behind the atom.
        obtain ⟨us, vs, rfl, hus, hvs⟩ := ih (u := []) hw.symm
        rw [render_eq_nil hus] at *
        exact ⟨[a], vs, rfl, by rw [render_cons, ha]; simp, hvs⟩
      | cons y w =>
        obtain ⟨rfl, hv⟩ := List.cons.inj hw
        cases a with
        | byte b =>
          cases u with
          | nil =>
            obtain ⟨rfl, hnil⟩ := List.cons.inj ha
            cases hnil
            exact ⟨[], as, rfl, rfl, hv.symm⟩
          | cons c u => simp [bytes] at ha
        | hole k =>
          -- It would lie in the token.
          refine absurd ?_ (notMem_token hx (base + k))
          rw [show token (base + k) = u ++ x :: w from ha]
          simp

/-! ### Moving blanks, seen through tokens -/

theorem starsAhead_render (base : Nat) (as : List Atom) :
    starsAhead (render base as) = starsAhead as := by
  cases as with
  | nil => rfl
  | cons a as =>
    cases a with
    | byte b => rfl
    | hole k => rfl

theorem starsBehind_render (base : Nat) (as : List Atom) :
    starsBehind (render base as) = starsBehind as := by
  rcases List.eq_nil_or_concat as with rfl | ⟨as, a, rfl⟩
  · rfl
  · rw [List.concat_eq_append, render_append, starsBehind_concat, starsBehind_append,
      if_neg (by simpa using bytes_ne_nil base a)]
    cases a with
    | byte b => rfl
    | hole k =>
      rw [render_cons, render_nil, List.append_nil]
      show starsBehind (tokenMark :: Integer.ofNat (base + k) ++ [tokenMark]) = false
      rw [starsBehind_concat]
      rfl

/-- A blank that is put into the bytes is put into the atoms. -/
theorem exists_shift_of_render {base : Nat} {as : List Atom} {t : Bytes}
    (h : Shift (render base as) t) : ∃ bs, Shift as bs ∧ render base bs = t := by
  generalize hs : render base as = s at h
  cases h with
  | behind u v x b hx hb hv =>
    have hx' : x = Bytes.star := beq_iff_eq.mp hx
    subst hx'
    obtain ⟨us, vs, rfl, rfl, rfl⟩ := render_eq_append_cons outsideTokens_star hs
    rw [starsAhead_render] at hv
    exact ⟨us ++ .byte Bytes.star :: .byte b :: vs, .behind us vs _ (.byte b) rfl hb hv, by
      simp⟩
  | before u v x b hx hb hu =>
    have hx' : x = Bytes.star := beq_iff_eq.mp hx
    subst hx'
    obtain ⟨us, vs, rfl, rfl, rfl⟩ := render_eq_append_cons outsideTokens_star hs
    rw [starsBehind_render] at hu
    exact ⟨us ++ .byte b :: .byte Bytes.star :: vs, .before us vs _ (.byte b) rfl hb hu, by
      simp⟩

/-- A blank that is taken from the bytes is taken from the atoms. -/
theorem exists_shift_to_render {base : Nat} {as : List Atom} {t : Bytes}
    (h : Shift t (render base as)) : ∃ bs, Shift bs as ∧ render base bs = t := by
  generalize hs : render base as = s at h
  cases h with
  | behind u v x b hx hb hv =>
    have hx' : x = Bytes.star := beq_iff_eq.mp hx
    subst hx'
    obtain ⟨us, ws, rfl, rfl, hws⟩ := render_eq_append_cons outsideTokens_star hs
    obtain ⟨ms, vs, rfl, hms, rfl⟩ :=
      render_eq_append_cons (u := []) (outsideTokens_of_isBlank hb) hws
    rw [render_eq_nil hms]
    rw [starsAhead_render] at hv
    exact ⟨us ++ .byte Bytes.star :: vs, .behind us vs _ (.byte b) rfl hb hv, by simp⟩
  | before u v x b hx hb hu =>
    have hx' : x = Bytes.star := beq_iff_eq.mp hx
    subst hx'
    obtain ⟨us, ws, rfl, rfl, hws⟩ := render_eq_append_cons (outsideTokens_of_isBlank hb) hs
    obtain ⟨ms, vs, rfl, hms, rfl⟩ := render_eq_append_cons (u := []) outsideTokens_star hws
    rw [render_eq_nil hms]
    rw [starsBehind_render] at hu
    exact ⟨us ++ .byte Bytes.star :: vs, .before us vs _ (.byte b) rfl hb hu, by simp⟩

/-- **Moving blanks in the bytes is moving blanks in the atoms.** Tokens hold neither stars nor
blanks, so every step happens between them. -/
theorem exists_respaced_of_render (base : Nat) {s t : Bytes} (h : Respaced s t) :
    (∀ as, render base as = s → ∃ bs, Respaced as bs ∧ render base bs = t) ∧
      ∀ bs, render base bs = t → ∃ as, Respaced bs as ∧ render base as = s := by
  induction h with
  | rel s t h =>
    constructor
    · rintro as rfl
      obtain ⟨bs, hbs, hr⟩ := exists_shift_of_render h
      exact ⟨bs, .of_shift hbs, hr⟩
    · rintro bs rfl
      obtain ⟨as, has, hr⟩ := exists_shift_to_render h
      exact ⟨as, (Respaced.of_shift has).symm, hr⟩
  | refl s => exact ⟨fun as h => ⟨as, .refl as, h⟩, fun bs h => ⟨bs, .refl bs, h⟩⟩
  | symm s t _ ih => exact ⟨ih.2, ih.1⟩
  | trans s t u _ _ ih ih' =>
    constructor
    · intro as has
      obtain ⟨bs, hab, hbs⟩ := ih.1 as has
      obtain ⟨cs, hbc, hcs⟩ := ih'.1 bs hbs
      exact ⟨cs, hab.trans hbc, hcs⟩
    · intro cs hcs
      obtain ⟨bs, hcb, hbs⟩ := ih'.2 cs hcs
      obtain ⟨as, hba, has⟩ := ih.2 bs hbs
      exact ⟨as, hcb.trans hba, has⟩

/-- What a blank next to a star does not change is the same for respaced atoms: holes do not move,
so only bytes are to be looked at. -/
theorem value_respaced {γ : Sort*} (f : List Atom → γ)
    (hbehind : ∀ (u v : List Atom) (b : UInt8), Bytes.isBlank b = true →
      f (u ++ .byte Bytes.star :: v) = f (u ++ .byte Bytes.star :: .byte b :: v))
    (hbefore : ∀ (u v : List Atom) (b : UInt8), Bytes.isBlank b = true →
      f (u ++ .byte Bytes.star :: v) = f (u ++ .byte b :: .byte Bytes.star :: v))
    {as bs : List Atom} (h : Respaced as bs) : f as = f bs := by
  have hstar : ∀ {s : Atom}, isStar s = true → s = .byte Bytes.star := by
    intro s hs
    cases s with
    | byte s => exact congrArg Atom.byte (beq_iff_eq.mp hs)
    | hole k => cases hs
  have hblank : ∀ {b : Atom}, isBlank b = true → ∃ c, b = .byte c ∧ Bytes.isBlank c = true := by
    intro b hb
    cases b with
    | byte b => exact ⟨b, rfl, hb⟩
    | hole k => cases hb
  refine h.value f fun as bs hshift => ?_
  cases hshift with
  | behind u v s b hs hb hv =>
    obtain ⟨c, rfl, hc⟩ := hblank hb
    rw [hstar hs]
    exact hbehind u v c hc
  | before u v s b hs hb hu =>
    obtain ⟨c, rfl, hc⟩ := hblank hb
    rw [hstar hs]
    exact hbefore u v c hc

end Atom

end EmphasisSpacing
