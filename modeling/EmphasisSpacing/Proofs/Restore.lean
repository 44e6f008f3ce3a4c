import Mathlib.Data.List.Induction
import EmphasisSpacing.Proofs.Scanned

/-!
# Putting regions back

Tokens are found by searching the text, from the newest to the oldest. When digits and nothing else
stand between two holes, they can be taken for the number of a token (`digitsJoin`); then the NUL
that closes one hole, the digits and the NUL that opens the next are replaced.

* Without such digits, putting the regions back fills the holes (`putBack_eq_fill`).
* With them, it fills the holes or leaves a NUL behind; up to the first NUL, the text is still a
  beginning of the filled one (`putBack_cases`). A token that was broken in this way is never met
  again, because something other than a digit now stands behind its NUL (`Stuck`).
-/

namespace EmphasisSpacing

open LineSymbol Atom Delimiter

/-! ### Digits between holes -/

/-- What stands right in front of an atom: a hole, digits behind a hole, or anything else. -/
inductive Behind where
  | text
  | hole
  | digits
  deriving DecidableEq, Repr

/-- Whether digits and nothing else stand between two neighbouring holes. -/
def digitsJoin : Behind → List Atom → Bool
  | _, [] => false
  | behind, .hole _ :: as => behind == .digits || digitsJoin .hole as
  | behind, .byte b :: as =>
    if behind != .text && Bytes.isDigit b then digitsJoin .digits as else digitsJoin .text as

/-- No digits join two regions of a line, or two code regions in a math region. -/
structure Apart (settings : Settings) (line : Bytes) : Prop where
  atoms : digitsJoin .text (Outline.ofLine settings line).atoms = false
  maths : ∀ r ∈ (Outline.ofLine settings line).maths, digitsJoin .text r = false

section

variable {as bs : List Atom}

/-- Most is allowed behind text. -/
theorem digitsJoin_text (behind : Behind) (h : digitsJoin behind as = false) :
    digitsJoin .text as = false := by
  induction as generalizing behind with
  | nil => rfl
  | cons a as ih =>
    cases a with
    | byte b =>
      rw [digitsJoin] at h ⊢
      split_ifs at h with hb
      · exact ih .digits h
      · exact h
    | hole k =>
      rw [digitsJoin, Bool.or_eq_false_iff] at h
      rw [digitsJoin, h.2]
      rfl

/-- A byte that is no digit keeps both sides apart. -/
theorem digitsJoin_append_byte {b : UInt8} (hb : Bytes.isDigit b = false) (behind : Behind) :
    digitsJoin behind (as ++ .byte b :: bs) = (digitsJoin behind as || digitsJoin .text bs) := by
  induction as generalizing behind with
  | nil => simp [digitsJoin, hb]
  | cons a as ih =>
    cases a with
    | byte c =>
      rw [List.cons_append, digitsJoin, digitsJoin]
      split_ifs
      · exact ih .digits
      · exact ih .text
    | hole k =>
      rw [List.cons_append, digitsJoin, digitsJoin, ih, Bool.or_assoc]

theorem digitsJoin_of_append {behind : Behind} (h : digitsJoin behind (as ++ bs) = false) :
    digitsJoin behind as = false ∧ digitsJoin .text bs = false := by
  induction as generalizing behind with
  | nil => exact ⟨rfl, digitsJoin_text behind h⟩
  | cons a as ih =>
    cases a with
    | byte b =>
      rw [List.cons_append, digitsJoin] at h
      rw [digitsJoin]
      split_ifs at h ⊢
      · exact ih h
      · exact ih h
    | hole k =>
      rw [List.cons_append, digitsJoin, Bool.or_eq_false_iff] at h
      rw [digitsJoin, h.1]
      exact ih h.2

/-- Text in front of the first hole does not matter. -/
theorem digitsJoin_plain (s : Bytes) : digitsJoin .text (plain s ++ as) = digitsJoin .text as := by
  induction s with
  | nil => rfl
  | cons b s ih => exact ih

theorem digitsJoin_of_holes (behind : Behind) (h : holes as = []) :
    digitsJoin behind as = false := by
  induction as generalizing behind with
  | nil => rfl
  | cons a as ih =>
    cases a with
    | byte b =>
      rw [digitsJoin]
      split_ifs
      · exact ih _ h
      · exact ih _ h
    | hole k => simp at h

/-- Digits behind a hole, and then another hole. -/
theorem digitsJoin_digits {ds : Bytes} (hne : ds ≠ []) (hds : ∀ b ∈ ds, Bytes.isDigit b = true)
    (k : Nat) (behind : Behind) (hbehind : behind ≠ .text) :
    digitsJoin behind (plain ds ++ .hole k :: as) = true := by
  induction ds generalizing behind with
  | nil => exact absurd rfl hne
  | cons b ds ih =>
    rw [List.forall_mem_cons] at hds
    have hcons : plain (b :: ds) = .byte b :: plain ds := rfl
    rw [hcons, List.cons_append, digitsJoin, if_pos (by simp [hbehind, hds.1])]
    cases ds with
    | nil => rfl
    | cons c ds => exact ih (by simp) hds.2 .digits (by decide)

/-- A span in the place of a hole keeps the rest apart as the hole did. -/
theorem digitsJoin_plug {d : Delimiter} {m k : Nat} {body us vs : List Atom}
    (hbody : d.IsSpan m body) (hjoin : digitsJoin .text body = false)
    (h : digitsJoin .text (us ++ .hole k :: vs) = false) :
    digitsJoin .text (us ++ (body ++ vs)) = false := by
  obtain ⟨mid, -, rfl, -⟩ := hbody
  have hdigit : Bytes.isDigit d.byte = false := by cases d <;> rfl
  have hus := digitsJoin_of_append h
  have hvs : digitsJoin .text vs = false := by
    have hhole := hus.2
    rw [digitsJoin, Bool.or_eq_false_iff] at hhole
    exact digitsJoin_text _ hhole.2
  have hmid : digitsJoin .text mid = false := by
    rw [digitsJoin, if_neg (by simp)] at hjoin
    exact (digitsJoin_of_append hjoin).1
  rw [List.cons_append, digitsJoin_append_byte hdigit, List.append_assoc, List.singleton_append,
    digitsJoin_append_byte hdigit, hus.1, hmid, hvs]
  rfl

/-- Blanks that come and go next to stars join nothing. -/
theorem digitsJoin_respaced (h : Respaced as bs) (behind : Behind) :
    digitsJoin behind as = digitsJoin behind bs := by
  have hstar : Bytes.isDigit Bytes.star = false := rfl
  refine value_respaced (digitsJoin behind) (fun u v b hb => ?_) (fun u v b hb => ?_) h
  · rw [digitsJoin_append_byte hstar, digitsJoin_append_byte hstar]
    simp [digitsJoin]
  · have hblank : Bytes.isDigit b = false := by
      rcases Bool.or_eq_true_iff.mp hb with hb | hb <;> rw [beq_iff_eq.mp hb] <;> rfl
    rw [digitsJoin_append_byte hstar, digitsJoin_append_byte hblank]
    simp [digitsJoin]

end

/-- The frame of a line joins no regions: it holds at most a bullet, which a blank follows. -/
theorem Frame.apart_iff {head front rest : Bytes} {regions : List Bytes}
    (h : Frame head front regions) (settings : Settings) :
    Apart settings (front ++ rest) ↔ Apart settings rest := by
  have houtline := Outline.ofLine_append settings (fun d => h.ignores_front d) rest
  constructor
  · rintro ⟨hatoms, hmaths⟩
    rw [houtline] at hatoms hmaths
    rw [digitsJoin_plain] at hatoms
    exact ⟨hatoms, hmaths⟩
  · rintro ⟨hatoms, hmaths⟩
    constructor
    · rw [houtline, digitsJoin_plain]
      exact hatoms
    · rw [houtline]
      exact hmaths

/-! ### One token -/

/-- A text whose first byte is a NUL that no token starts with: something other than a digit stands
between it and the next NUL. -/
def Stuck (z : Bytes) : Prop :=
  ∃ f rest, z = tokenMark :: (f ++ rest) ∧ tokenMark ∉ f ∧ ∃ b ∈ f, Bytes.isDigit b = false

/-- What lies behind the atoms: nothing, or a stuck text. -/
def Tail (z : Bytes) : Prop := z = [] ∨ Stuck z

theorem Stuck.replaceFirst {z : Bytes} (hz : Stuck z) (k : Nat) (new : Bytes) :
    Stuck (Bytes.replaceFirst (token k) new z) := by
  obtain ⟨f, rest, rfl, hf, b, hb, hdigit⟩ := hz
  have hopen : Bytes.dropPrefix? (token k) (tokenMark :: (f ++ rest)) = none := by
    refine dropPrefix?_token_eq_none fun r _ hr => ?_
    -- The digits of a token would have to cover all of `f`.
    rcases List.append_eq_append_iff.mp hr with ⟨w, hw, -⟩ | ⟨w, hw, hr⟩
    · have hmem : b ∈ Integer.ofNat k := by
        rw [hw]
        exact List.mem_append_left _ hb
      rw [Integer.ofNat_isDigit hmem] at hdigit
      cases hdigit
    · cases w with
      | nil =>
        rw [List.append_nil] at hw
        rw [Integer.ofNat_isDigit (hw ▸ hb)] at hdigit
        cases hdigit
      | cons c w =>
        refine hf ?_
        rw [hw, (List.cons.inj hr).1]
        simp
  rw [Bytes.replaceFirst_cons new hopen, replaceFirst_token_append hf]
  exact ⟨f, _, rfl, hf, b, hb, hdigit⟩

theorem Stuck.mem {z : Bytes} (hz : Stuck z) : tokenMark ∈ z := by
  obtain ⟨f, rest, rfl, -⟩ := hz
  exact List.mem_cons_self ..

/-- Where a NUL is met behind atoms and digits, a hole or the tail starts. -/
theorem exists_hole_of_render {base : Nat} {as : List Atom} (has : .byte tokenMark ∉ as)
    {z ds r : Bytes} (hds : tokenMark ∉ ds) (h : render base as ++ z = ds ++ tokenMark :: r) :
    z ≠ [] ∨ ∃ k vs, as = plain ds ++ .hole k :: vs := by
  induction as generalizing ds with
  | nil =>
    left
    rintro rfl
    simp at h
  | cons a as ih =>
    rw [List.mem_cons, not_or] at has
    cases a with
    | byte b =>
      cases ds with
      | nil =>
        -- A byte of the atoms is no NUL.
        rw [show b = tokenMark from (List.cons.inj h).1] at has
        exact absurd rfl has.1
      | cons c ds =>
        obtain ⟨rfl, hrest⟩ := List.cons.inj h
        rw [List.mem_cons, not_or] at hds
        rcases ih has.2 hds.2 hrest with hz | ⟨k, vs, rfl⟩
        · exact .inl hz
        · exact .inr ⟨k, vs, rfl⟩
    | hole k =>
      cases ds with
      | nil => exact .inr ⟨k, as, rfl⟩
      | cons c ds => exact absurd (List.mem_cons_self ..) ((List.cons.inj h).1 ▸ hds)

/-- What a search for the token of hole `j` can do to atoms in front of a tail `z`. -/
inductive Replaced (base j : Nat) (body : Bytes) (as : List Atom) (z : Bytes) : Bytes → Prop
  /-- It finds the hole. -/
  | hole (us vs : List Atom) (has : as = us ++ .hole j :: vs) :
      Replaced base j body as z (render base us ++ (body ++ (render base vs ++ z)))
  /-- It takes digits behind a hole for the number and breaks the tokens around them. -/
  | broken (us vs : List Atom) (z' : Bytes) (has : as = us ++ vs) (hz : Stuck z')
      (hcause : digitsJoin .text as = true ∨ z ≠ []) :
      Replaced base j body as z (render base us ++ z')
  /-- There is no such hole; it may find something in the tail. -/
  | missing (z' : Bytes) (hj : j ∉ holes as) (hz : z = [] ∧ z' = [] ∨ z ≠ [] ∧ Stuck z') :
      Replaced base j body as z (render base as ++ z')

theorem Replaced.cons {base j : Nat} {body : Bytes} {as : List Atom} {z r : Bytes} {a : Atom}
    (ha : a ≠ .hole j) (h : Replaced base j body as z r) :
    Replaced base j body (a :: as) z (a.bytes base ++ r) := by
  cases h with
  | hole us vs has =>
    rw [← List.append_assoc, ← render_cons]
    exact .hole (a :: us) vs (by rw [has]; rfl)
  | broken us vs z' has hz hcause =>
    rw [← List.append_assoc, ← render_cons]
    refine .broken (a :: us) vs z' (by rw [has]; rfl) hz (hcause.imp_left fun hjoin => ?_)
    by_contra hapart
    rw [Bool.not_eq_true] at hapart
    rw [(digitsJoin_of_append (show digitsJoin .text ([a] ++ as) = false from hapart)).2] at hjoin
    cases hjoin
  | missing z' hj hz =>
    rw [← List.append_assoc, ← render_cons]
    refine .missing z' ?_ hz
    rw [mem_holes_iff] at hj ⊢
    rw [List.mem_cons, not_or]
    exact ⟨Ne.symm ha, hj⟩

/-- **One token replaced.** It is that of a hole, or it was made of others, or there is none. -/
theorem replaced_render (base j : Nat) {x : UInt8} {t : Bytes} (hx : x ≠ tokenMark)
    (hdigit : Bytes.isDigit x = false) {as : List Atom} (has : .byte tokenMark ∉ as) {z : Bytes}
    (hz : Tail z) :
    Replaced base j (x :: t) as z
      (Bytes.replaceFirst (token (base + j)) (x :: t) (render base as ++ z)) := by
  induction as with
  | nil =>
    show Replaced base j (x :: t) [] z (render base [] ++ _)
    refine .missing _ (by simp) ?_
    rcases hz with rfl | hz
    · exact .inl ⟨rfl, rfl⟩
    · exact .inr ⟨List.ne_nil_of_mem hz.mem, hz.replaceFirst _ _⟩
  | cons a as ih =>
    rw [List.mem_cons, not_or] at has
    rw [render_cons, List.append_assoc]
    cases a with
    | byte b =>
      have hb : tokenMark ∉ [b] := by
        rw [List.mem_singleton]
        rintro rfl
        exact has.1 rfl
      rw [bytes_byte, replaceFirst_token_append hb]
      exact (ih has.2).cons (a := .byte b) (by simp)
    | hole k =>
      rw [bytes_hole]
      by_cases hkj : k = j
      · subst hkj
        rw [Bytes.replaceFirst_front (token_ne_nil _)]
        exact .hole [] as rfl
      have hne : base + j ≠ base + k := by omega
      rw [replaceFirst_token_token hne]
      -- Behind the digits of the token, its closing NUL may look like an opening one.
      cases hfake : Bytes.dropPrefix? (token (base + j)) (tokenMark :: (render base as ++ z)) with
      | some r =>
        have hsplit := (dropPrefix?_token_iff.mp hfake).2
        have hstart : tokenMark :: (render base as ++ z) = token (base + j) ++ r :=
          Bytes.dropPrefix?_eq_some_iff.mp hfake
        rw [hstart, Bytes.replaceFirst_front (token_ne_nil _)]
        refine .broken [] _ _ rfl ⟨Integer.ofNat (base + k) ++ [x], t ++ r, by simp, ?_, x, by simp,
          hdigit⟩ ?_
        · rw [List.mem_append, List.mem_singleton, not_or]
          exact ⟨tokenMark_notMem_ofNat _, Ne.symm hx⟩
        · rcases exists_hole_of_render has.2 (tokenMark_notMem_ofNat _) hsplit with
            hz | ⟨l, vs, rfl⟩
          · exact .inr hz
          · left
            rw [digitsJoin, digitsJoin_digits (Integer.ofNat_ne_nil _)
              (fun b hb => Integer.ofNat_isDigit hb) l .hole (by decide)]
            rfl
      | none =>
        rw [Bytes.replaceFirst_cons _ hfake]
        have hcons := (ih has.2).cons (a := .hole k) fun h => hkj (Atom.hole.inj h)
        rw [bytes_hole, token] at hcons
        simpa using hcons

/-! ### All tokens -/

/-- Puts spans back, newest first. The token of the oldest one has the number `base`. -/
def putBack (base : Nat) : (newestFirst : List (List Atom)) → Bytes → Bytes
  | [], s => s
  | r :: rs, s =>
    putBack base rs (Bytes.replaceFirst (token (base + rs.length)) (render base r) s)

/-- What the search for tokens relies on: a span starts with a byte that belongs to no token, and
holds no NUL. -/
structure Insertable (r : List Atom) : Prop where
  isSpan : ∃ (d : Delimiter) (m : Nat), d.IsSpan m r
  clean : .byte tokenMark ∉ r

theorem Insertable.exists_cons {r : List Atom} (h : Insertable r) (base : Nat) :
    ∃ x t, render base r = x :: t ∧ x ≠ tokenMark ∧ Bytes.isDigit x = false := by
  obtain ⟨d, m, mid, -, rfl, -⟩ := h.isSpan
  exact ⟨d.byte, _, rfl, by cases d <;> decide, by cases d <;> rfl⟩

theorem Insertable.replaced {r : List Atom} (h : Insertable r) (base j : Nat) {as : List Atom}
    (has : .byte tokenMark ∉ as) {z : Bytes} (hz : Tail z) :
    Replaced base j (render base r) as z
      (Bytes.replaceFirst (token (base + j)) (render base r) (render base as ++ z)) := by
  obtain ⟨x, t, hxt, hx, hdigit⟩ := h.exists_cons base
  rw [hxt]
  exact replaced_render base j hx hdigit has hz

theorem Insertable.clean_insert {r us vs : List Atom} (h : Insertable r) {j : Nat}
    (has : .byte tokenMark ∉ us ++ .hole j :: vs) : .byte tokenMark ∉ us ++ (r ++ vs) := by
  simp only [List.mem_append, List.mem_cons, not_or] at has ⊢
  exact ⟨has.1, h.clean, has.2.2⟩

/-- **One span put back** where no digits join two holes: it takes the place of its hole, and without
one nothing changes. -/
theorem Insertable.replaceFirst_apart {r : List Atom} (h : Insertable r) (base j : Nat)
    {as : List Atom} (has : .byte tokenMark ∉ as) (hapart : digitsJoin .text as = false) :
    (∃ us vs, as = us ++ .hole j :: vs ∧
      Bytes.replaceFirst (token (base + j)) (render base r) (render base as) =
        render base (us ++ (r ++ vs))) ∨
      j ∉ holes as ∧
        Bytes.replaceFirst (token (base + j)) (render base r) (render base as) =
          render base as := by
  have hone := h.replaced base j has (.inl rfl)
  rw [List.append_nil] at hone
  generalize Bytes.replaceFirst (token (base + j)) (render base r) (render base as) = cur at hone ⊢
  cases hone with
  | hole us vs hsplit => exact .inl ⟨us, vs, hsplit, by simp⟩
  | broken us vs z' _ _ hcause =>
    -- Only digits that join two holes can break a text to which nothing has happened yet.
    rcases hcause with hcause | hcause
    · rw [hapart] at hcause
      cases hcause
    · exact absurd rfl hcause
  | missing z' hmiss hz' =>
    rcases hz' with ⟨-, rfl⟩ | ⟨hne, -⟩
    · exact .inr ⟨hmiss, List.append_nil _⟩
    · exact absurd rfl hne

/-- **Putting all spans back.** Either the atoms are left with some of their holes filled, or a
beginning of them, in front of a stuck text. `fill` is what the atoms stand for. -/
theorem putBack_render (base : Nat) {fill : List Atom → Bytes}
    (hfill : ∀ us vs, fill (us ++ vs) = fill us ++ fill vs) {newestFirst : List (List Atom)}
    (hholes : ∀ k r, newestFirst.reverse[k]? = some r → fill [.hole k] = fill r)
    (hins : ∀ r ∈ newestFirst, Insertable r) {as : List Atom} (has : .byte tokenMark ∉ as)
    {z : Bytes} (hz : Tail z) :
    ∃ as' z', putBack base newestFirst (render base as ++ z) = render base as' ++ z' ∧
      .byte tokenMark ∉ as' ∧
      (z = [] ∧ z' = [] ∧ fill as' = fill as ∨ Stuck z' ∧ fill as' <+: fill as) := by
  induction newestFirst generalizing as z with
  | nil =>
    refine ⟨as, z, rfl, has, ?_⟩
    rcases hz with rfl | hz
    · exact .inl ⟨rfl, rfl, rfl⟩
    · exact .inr ⟨hz, List.prefix_rfl⟩
  | cons r rs ih =>
    rw [List.forall_mem_cons] at hins
    have hr : fill [.hole rs.length] = fill r := hholes _ _ (by simp)
    have hrest : ∀ k r', rs.reverse[k]? = some r' → fill [.hole k] = fill r' := by
      intro k r' hk
      refine hholes k r' ?_
      rw [List.reverse_cons]
      exact List.getElem?_append_left (List.getElem?_eq_some_iff.mp hk).1 ▸ hk
    have hone := hins.1.replaced base rs.length has hz
    rw [putBack]
    generalize Bytes.replaceFirst (token (base + rs.length)) (render base r)
      (render base as ++ z) = cur at hone ⊢
    cases hone with
    | hole us vs hsplit =>
      have hclean : .byte tokenMark ∉ us ++ (r ++ vs) := hins.1.clean_insert (hsplit ▸ has)
      have hsame : fill (us ++ (r ++ vs)) = fill as := by
        rw [hsplit, show us ++ .hole rs.length :: vs = us ++ ([.hole rs.length] ++ vs) from rfl,
          hfill, hfill, hfill, hfill, hr]
      have hcur : render base us ++ (render base r ++ (render base vs ++ z)) =
          render base (us ++ (r ++ vs)) ++ z := by simp
      rw [hcur, ← hsame]
      exact ih hrest hins.2 hclean hz
    | broken us vs z' hsplit hstuck _ =>
      have hclean : .byte tokenMark ∉ us := fun h => has (by rw [hsplit]; simp [h])
      -- A stuck tail never becomes empty again, so only a beginning of the atoms is still filled.
      obtain ⟨as', z'', h, hclean', hcases⟩ := ih hrest hins.2 hclean (.inr hstuck)
      have hprefix : fill us <+: fill as := ⟨fill vs, by rw [← hfill, hsplit]⟩
      refine ⟨as', z'', h, hclean', .inr ?_⟩
      rcases hcases with ⟨hnil, -⟩ | ⟨hstuck', hpre⟩
      · exact absurd hstuck.mem (by simp [hnil])
      · exact ⟨hstuck', hpre.trans hprefix⟩
    | missing z' _ hz' =>
      rcases hz' with ⟨rfl, rfl⟩ | ⟨-, hstuck⟩
      · exact ih hrest hins.2 has (.inl rfl)
      · obtain ⟨as', z'', h, hclean', hcases⟩ := ih hrest hins.2 has (.inr hstuck)
        refine ⟨as', z'', h, hclean', .inr ?_⟩
        rcases hcases with ⟨hnil, -⟩ | hstuck'
        · exact absurd hstuck.mem (by simp [hnil])
        · exact hstuck'

theorem mem_of_mem_putBack {base : Nat} {x : UInt8} {newestFirst : List (List Atom)} {s : Bytes}
    (h : x ∈ putBack base newestFirst s) : x ∈ s ∨ ∃ r ∈ newestFirst, x ∈ render base r := by
  induction newestFirst generalizing s with
  | nil => exact .inl h
  | cons r rs ih =>
    rcases ih h with h | ⟨r', hr', hx⟩
    · rcases Bytes.mem_of_mem_replaceFirst h with h | h
      · exact .inr ⟨r, List.mem_cons_self .., h⟩
      · exact .inl h
    · exact .inr ⟨r', List.mem_cons_of_mem _ hr', hx⟩

/-- The last byte stays the last one, or a span comes to the end. -/
theorem getLast?_putBack {base : Nat} {newestFirst : List (List Atom)}
    (hins : ∀ r ∈ newestFirst, Insertable r) (s : Bytes) :
    (putBack base newestFirst s).getLast? = s.getLast? ∨
      ∃ r ∈ newestFirst, (putBack base newestFirst s).getLast? = (render base r).getLast? := by
  induction newestFirst generalizing s with
  | nil => exact .inl rfl
  | cons r rs ih =>
    rw [List.forall_mem_cons] at hins
    obtain ⟨x, t, hxt, -⟩ := hins.1.exists_cons base
    have hne : render base r ≠ [] := by simp [hxt]
    rcases ih hins.2 (Bytes.replaceFirst (token (base + rs.length)) (render base r) s) with
      h | ⟨r', hr', h⟩
    · rw [putBack, h]
      rcases Bytes.getLast?_replaceFirst (token (base + rs.length)) hne s with h | h
      · exact .inl h
      · exact .inr ⟨r, List.mem_cons_self .., h⟩
    · exact .inr ⟨r', List.mem_cons_of_mem _ hr', h⟩

/-! ### Spans that no digits join -/

/-- The newest hole stands last among the new ones. -/
theorem newHoles_last {n m : Nat} {us vs : List Atom}
    (h : newHoles n (us ++ .hole (n + m) :: vs) = List.range' n (m + 1)) :
    newHoles n us = List.range' n m ∧ newHoles n vs = [] := by
  rw [newHoles_append, newHoles_cons_new (Nat.le_add_right n m), List.range'_1_concat] at h
  rcases List.eq_nil_or_concat (newHoles n vs) with hvs | ⟨l, k, hvs⟩
  · rw [hvs] at h ⊢
    exact ⟨(List.append_inj' h rfl).1, rfl⟩
  · -- Otherwise the newest number would come twice.
    rw [hvs, List.concat_eq_append, ← List.cons_append, ← List.append_assoc] at h
    have hmem : n + m ∈ List.range' n m := by
      rw [← (List.append_inj' h rfl).1]
      simp
    rw [List.mem_range'_1] at hmem
    omega

theorem plug_congr {f g : Nat → List Atom} {as : List Atom} (h : ∀ k ∈ holes as, f k = g k) :
    plug f as = plug g as := by
  induction as with
  | nil => rfl
  | cons a as ih =>
    cases a with
    | byte b => rw [plug_byte, plug_byte, ih h]
    | hole k =>
      rw [holes_hole, List.forall_mem_cons] at h
      rw [plug_hole, plug_hole, ih h.2, h.1]

theorem spanAt_concat_of_ne {n k : Nat} (spans : List (List Atom)) (r : List Atom)
    (hk : k ≠ n + spans.length) : spanAt n (spans ++ [r]) k = spanAt n spans k := by
  rw [spanAt, spanAt]
  split_ifs with h
  · rfl
  by_cases hlt : k - n < spans.length
  · rw [List.getD_append _ _ _ _ hlt]
  · rw [List.getD_eq_default _ _ (by simp; omega), List.getD_eq_default _ _ (by omega)]

theorem spanAt_concat_last (n : Nat) (spans : List (List Atom)) (r : List Atom) :
    spanAt n (spans ++ [r]) (n + spans.length) = r := by
  rw [spanAt, if_neg (by omega), Nat.add_sub_cancel_left]
  simp

/-- **Spans that no digits join are put back where they were.** -/
theorem putBack_spans (base : Nat) {n : Nat} {d : Delimiter} (older : List (List Atom))
    (hn : older.length = n) (spans : List (List Atom)) (hspans : ∀ r ∈ spans, d.IsSpan n r)
    (hold : ∀ r ∈ spans, ∀ a ∈ r, a.isNew n = false) (hclean : ∀ r ∈ spans, .byte tokenMark ∉ r)
    (hjoin : ∀ r ∈ spans, digitsJoin .text r = false) {as : List Atom}
    (hnew : newHoles n as = List.range' n spans.length) (has : .byte tokenMark ∉ as)
    (hapart : digitsJoin .text as = false) :
    putBack base (spans.reverse ++ older) (render base as) =
        putBack base older (render base (plug (spanAt n spans) as)) ∧
      digitsJoin .text (plug (spanAt n spans) as) = false := by
  induction spans using List.reverseRecOn generalizing as with
  | nil =>
    have hself : plug (spanAt n []) as = as :=
      plug_old (fun k hk => spanAt_of_lt hk []) (newHoles_eq_nil_iff.mp hnew)
    rw [hself]
    exact ⟨rfl, hapart⟩
  | append_singleton spans r ih =>
    have hr : r ∈ spans ++ [r] := by simp
    have hinit : ∀ {p : List Atom → Prop}, (∀ x ∈ spans ++ [r], p x) → ∀ x ∈ spans, p x :=
      fun h x hx => h x (List.mem_append_left _ hx)
    have hins : Insertable r := ⟨⟨d, n, hspans r hr⟩, hclean r hr⟩
    rw [List.length_append, List.length_singleton] at hnew
    have hlen : (spans.reverse ++ older).length = n + spans.length := by
      rw [List.length_append, List.length_reverse, hn, Nat.add_comm]
    rw [List.reverse_append, List.reverse_singleton, List.singleton_append, List.cons_append,
      putBack, hlen]
    rcases hins.replaceFirst_apart base (n + spans.length) has hapart with
      ⟨us, vs, hsplit, hcur⟩ | ⟨hmiss, -⟩
    · rw [hsplit] at hnew hapart has
      obtain ⟨hus, hvs⟩ := newHoles_last hnew
      have hvsOld := newHoles_eq_nil_iff.mp hvs
      have hnew' : newHoles n (us ++ (r ++ vs)) = List.range' n spans.length := by
        rw [newHoles_append, newHoles_append, hus, hvs,
          newHoles_eq_nil_iff.mpr (hold r hr), List.append_nil, List.append_nil]
      -- What stands behind the newest hole, and what goes into it, holds no new hole.
      have hplug : plug (spanAt n (spans ++ [r])) as = plug (spanAt n spans) (us ++ (r ++ vs)) := by
        have husSame : plug (spanAt n (spans ++ [r])) us = plug (spanAt n spans) us := by
          refine plug_congr fun k hk => spanAt_concat_of_ne spans r ?_
          by_cases hkn : n ≤ k
          · have hmem : k ∈ newHoles n us := List.mem_filter.mpr ⟨hk, by simpa using hkn⟩
            rw [hus, List.mem_range'_1] at hmem
            omega
          · omega
        have hlow : ∀ spans' : List (List Atom), ∀ k < n, spanAt n spans' k = [.hole k] :=
          fun spans' k hk => spanAt_of_lt hk spans'
        rw [hsplit, plug_append, plug_hole, plug_append, plug_append, husSame, spanAt_concat_last,
          plug_old (hlow _) hvsOld, plug_old (hlow _) hvsOld, plug_old (hlow _) (hold r hr)]
      rw [hcur, hplug]
      exact ih (hinit hspans) (hinit hold) (hinit hclean) (hinit hjoin) hnew'
        (hins.clean_insert has) (digitsJoin_plug (hspans r hr) (hjoin r hr) hapart)
    · have hmem : n + spans.length ∈ newHoles n as := by
        rw [hnew, List.mem_range'_1]
        omega
      exact absurd (List.mem_filter.mp hmem).1 hmiss

/-! ### Outlines -/

/-- The text in front of the first hole. -/
theorem exists_first_hole (as : List Atom) :
    (∃ s, as = plain s) ∨ ∃ s k vs, as = plain s ++ .hole k :: vs := by
  induction as with
  | nil => exact .inl ⟨[], rfl⟩
  | cons a as ih =>
    cases a with
    | hole k => exact .inr ⟨[], k, as, rfl⟩
    | byte b =>
      rcases ih with ⟨s, rfl⟩ | ⟨s, k, vs, rfl⟩
      · exact .inl ⟨b :: s, rfl⟩
      · exact .inr ⟨b :: s, k, vs, rfl⟩

theorem byte_mem_plug {f : Nat → List Atom} {b : UInt8} {as : List Atom} (h : .byte b ∈ as) :
    .byte b ∈ plug f as :=
  List.mem_flatMap.mpr ⟨_, h, List.mem_singleton.mpr rfl⟩

theorem mem_plug_of_mem_holes {f : Nat → List Atom} {k : Nat} {a : Atom} {as : List Atom}
    (hk : k ∈ holes as) (ha : a ∈ f k) : a ∈ plug f as :=
  List.mem_flatMap.mpr ⟨_, mem_holes_iff.mp hk, ha⟩

/-- What stands in a span stands in the filled text. -/
theorem mem_plug_of_mem_spans {n : Nat} {spans : List (List Atom)} {as r : List Atom} {a : Atom}
    (hnew : newHoles n as = List.range' n spans.length) (hr : r ∈ spans) (ha : a ∈ r) :
    a ∈ plug (spanAt n spans) as := by
  rw [← map_spanAt n spans, ← hnew] at hr
  obtain ⟨k, hk, rfl⟩ := List.mem_map.mp hr
  exact mem_plug_of_mem_holes (List.mem_filter.mp hk).1 ha

namespace Outline

theorem fill_append (o : Outline) (us vs : List Atom) :
    o.fill (us ++ vs) = o.fill us ++ o.fill vs := by
  simp [fill, fillMath, fillCode]

@[simp]
theorem fill_byte (o : Outline) (b : UInt8) : o.fill [.byte b] = [b] := rfl

theorem fill_cons (o : Outline) (a : Atom) (as : List Atom) :
    o.fill (a :: as) = o.fill [a] ++ o.fill as :=
  o.fill_append [a] as

theorem fill_eq_flatMap (o : Outline) (as : List Atom) :
    o.fill as = as.flatMap fun a => o.fill [a] := by
  induction as with
  | nil => rfl
  | cons a as ih => rw [fill_cons, ih, List.flatMap_cons]

@[simp]
theorem fill_plain (o : Outline) (s : Bytes) : o.fill (plain s) = s := by
  induction s with
  | nil => rfl
  | cons b s ih =>
    rw [show plain (b :: s) = .byte b :: plain s from rfl, fill_cons, ih]
    rfl

section

variable (settings : Settings) (line : Bytes)

/-- A hole stands for what its region stands for. -/
theorem fill_hole {k : Nat} {r : List Atom} (h : (ofLine settings line).regions[k]? = some r) :
    (ofLine settings line).fill [.hole k] = (ofLine settings line).fill r := by
  set o := ofLine settings line with ho
  have hone : ∀ f : Nat → List Atom, plug f [.hole k] = f k := fun f => by simp
  by_cases hk : k < o.codes.length
  · -- Code holds no holes, so filling leaves it alone.
    rw [regions, List.getElem?_append_left hk] at h
    have hr : r ∈ o.codes := List.mem_of_getElem? h
    have hself : ∀ f : Nat → List Atom, plug f r = r := fun f =>
      plug_of_holes_eq_nil (holes_of_mem_codes settings line r hr)
    have hspan : spanAt 0 o.codes k = r := by
      rw [spanAt, if_neg (by omega), Nat.sub_zero, List.getD_eq_getElem?_getD, h]
      rfl
    rw [fill, fill, fillMath, fillMath, fillCode, fillCode, hself, hself, hone, spanAt_of_lt hk,
      hone,
      hspan]
  · rw [regions, List.getElem?_append_right (by omega)] at h
    have hr : r ∈ o.maths := List.mem_of_getElem? h
    have hself : plug (spanAt o.codes.length o.maths) r = r :=
      plug_old (fun k hk => spanAt_of_lt hk _) (isSpan_of_mem_maths settings line r hr).isNew
    have hspan : spanAt o.codes.length o.maths k = r := by
      rw [spanAt, if_neg hk, List.getD_eq_getElem?_getD, h]
      rfl
    rw [fill, fill, fillMath, fillMath, hself, hone, hspan]

variable {line} {b : UInt8}

/-- The bytes of an outline and of its regions are bytes of the line. -/
theorem mem_of_mem_plain (h : .byte b ∈ plain line) : b ∈ line := by
  obtain ⟨c, hc, heq⟩ := List.mem_map.mp h
  cases heq
  exact hc

theorem mem_of_mem_cutCode (h : .byte b ∈ (cutCode settings (plain line)).1) : b ∈ line := by
  refine mem_of_mem_plain ?_
  rw [← fillCode_cutCode settings line]
  exact byte_mem_plug h

theorem mem_of_mem_atoms (h : .byte b ∈ (ofLine settings line).atoms) : b ∈ line := by
  refine mem_of_mem_cutCode settings ?_
  rw [← fillMath_atoms settings line]
  exact byte_mem_plug h

theorem mem_of_mem_region {r : List Atom} (hr : r ∈ (ofLine settings line).regions)
    (h : .byte b ∈ r) : b ∈ line := by
  rcases List.mem_append.mp hr with hr | hr
  · refine mem_of_mem_plain ?_
    rw [← fillCode_cutCode settings line]
    refine mem_plug_of_mem_spans (n := 0) ?_ hr h
    rw [newHoles_zero, holes_cutCode]
    rfl
  · refine mem_of_mem_cutCode settings ?_
    rw [← fillMath_atoms settings line]
    exact mem_plug_of_mem_spans (newHoles_atoms settings line) hr h

variable (hline : tokenMark ∉ line)

include hline

theorem insertable : ∀ r ∈ (ofLine settings line).regions, Insertable r := by
  intro r hr
  refine ⟨?_, fun h => hline (mem_of_mem_region settings hr h)⟩
  rcases List.mem_append.mp hr with hr | hr
  · exact ⟨_, _, isSpan_of_mem_codes settings line r hr⟩
  · exact ⟨_, _, isSpan_of_mem_maths settings line r hr⟩

theorem clean_respaced {gs : List Atom} (h : Respaced (ofLine settings line).atoms gs) :
    .byte tokenMark ∉ gs := by
  rw [← h.mem_iff (by decide)]
  exact fun hatoms => hline (mem_of_mem_atoms settings hatoms)

/-- **Without digits that join holes, putting the regions back fills the outline.** -/
theorem putBack_eq_fill {gs : List Atom} (h : Respaced (ofLine settings line).atoms gs)
    (hapart : Apart settings line) (base : Nat) :
    putBack base (ofLine settings line).regions.reverse (render base gs) =
      (ofLine settings line).fill gs := by
  have hgs := clean_respaced settings hline h
  have hholes : holes ((ofLine settings line).fillMath gs) =
      List.range' 0 (ofLine settings line).codes.length := by
    rw [← holes_respaced (respaced_fillMath h), holes_cutCode]
    rfl
  have hcodes : ∀ r ∈ (ofLine settings line).codes, digitsJoin .text r = false :=
    fun r hr => digitsJoin_of_holes .text (holes_of_mem_codes settings line r hr)
  -- First the math, then the code.
  have hmathPhase := putBack_spans base
    (ofLine settings line).codes.reverse (List.length_reverse ..) _
    (isSpan_of_mem_maths settings line)
    (fun r hr => (isSpan_of_mem_maths settings line r hr).isNew)
    (fun r hr => (insertable settings hline r (List.mem_append_right _ hr)).clean) hapart.maths
    (by rw [newHoles, ← holes_respaced h]; exact newHoles_atoms settings line) hgs
    (by rw [← digitsJoin_respaced h]; exact hapart.atoms)
  have hclean : .byte tokenMark ∉ (ofLine settings line).fillMath gs := by
    rw [← (respaced_fillMath h).mem_iff (by decide)]
    exact fun hcode => hline (mem_of_mem_cutCode settings hcode)
  have hcodePhase := putBack_spans base [] rfl _
    (isSpan_of_mem_codes settings line)
    (fun r hr => (isSpan_of_mem_codes settings line r hr).isNew)
    (fun r hr => (insertable settings hline r (List.mem_append_left _ hr)).clean) hcodes
    (by rw [List.length_nil, newHoles_zero]; exact hholes) hclean hmathPhase.2
  rw [regions, List.reverse_append, hmathPhase.1]
  rw [List.append_nil] at hcodePhase
  refine hcodePhase.1.trans (render_eq_render ?_ base 0)
  exact (holes_respaced (respaced_fillCode h)).symm.trans (holes_plain line)

/-- **In any case, putting the regions back fills the outline or leaves a NUL**, and what stands in
front of the first NUL is a beginning of the filled outline. -/
theorem putBack_cases {gs : List Atom} (h : Respaced (ofLine settings line).atoms gs) (base : Nat) :
    putBack base (ofLine settings line).regions.reverse (render base gs) =
        (ofLine settings line).fill gs ∨
      ∃ u v, putBack base (ofLine settings line).regions.reverse (render base gs) =
        u ++ tokenMark :: v ∧ tokenMark ∉ u ∧ u <+: (ofLine settings line).fill gs := by
  have hins : ∀ r ∈ (ofLine settings line).regions.reverse, Insertable r := fun r hr =>
    insertable settings hline r (List.mem_reverse.mp hr)
  obtain ⟨as, z, heq, hclean, hcases⟩ := putBack_render base
    (ofLine settings line).fill_append
    (fun k r hr => fill_hole settings line (by rwa [List.reverse_reverse] at hr)) hins
    (clean_respaced settings hline h) (.inl rfl)
  rw [List.append_nil] at heq
  rw [heq]
  have hprefix : (ofLine settings line).fill as <+: (ofLine settings line).fill gs := by
    rcases hcases with ⟨-, -, hsame⟩ | ⟨-, hprefix⟩
    · exact hsame ▸ List.prefix_rfl
    · exact hprefix
  -- What stands in front of the first hole that is left holds no NUL, and the token of that hole
  -- does.
  rcases exists_first_hole as with ⟨s, rfl⟩ | ⟨s, k, vs, rfl⟩
  · rcases hcases with ⟨-, rfl, hsame⟩ | ⟨⟨f, rest, rfl, -⟩, -⟩
    · left
      rw [← hsame]
      simp
    · refine .inr ⟨s, f ++ rest, by simp, fun hs => hclean ?_, by simpa using hprefix⟩
      exact List.mem_map_of_mem hs
  · refine .inr ⟨s, Integer.ofNat (base + k) ++ tokenMark :: (render base vs ++ z), ?_,
      fun hs => ?_, ?_⟩
    · simp [token]
    · exact hclean (List.mem_append_left _ (List.mem_map_of_mem hs))
    · rw [fill_append, fill_plain] at hprefix
      exact (List.prefix_append ..).trans hprefix

end

end Outline

/-! ### Whole lines -/

/-- **Restoring behind a frame.** -/
theorem Frame.restore_eq {head front : Bytes} {regions : List Bytes} (h : Frame head front regions)
    (spans : List (List Atom)) (t : Bytes) :
    Protected.restore (regions ++ spans.map (render regions.length)) (head ++ t) =
      front ++ putBack regions.length spans.reverse t := by
  rw [Protected.restore, List.reverse_append, ← List.map_reverse]
  generalize spans.reverse = rs
  induction rs generalizing t with
  | nil =>
    cases h with
    | bare => rfl
    | bullet indent b hindent hb =>
      rw [List.map_nil, List.nil_append, putBack]
      show Bytes.replaceFirst (token 0) (indent ++ [Bytes.star]) (token 0 ++ [b] ++ t) = _
      rw [List.append_assoc, Bytes.replaceFirst_front (token_ne_nil 0)]
      simp
  | cons r rs ih =>
    have hlen : (rs.map (render regions.length) ++ regions.reverse).length =
        regions.length + rs.length := by
      rw [List.length_append, List.length_map, List.length_reverse, Nat.add_comm]
    rw [List.map_cons, List.cons_append, Protected.restoreFrom, hlen, putBack, ← ih]
    congr 1
    -- The token of the bullet has another number, and a blank stands behind it.
    cases h with
    | bare => rfl
    | bullet indent b hindent hb =>
      have hne : [indent ++ [Bytes.star]].length + rs.length ≠ 0 := by simp
      have hblank : outsideTokens b = true := outsideTokens_of_isBlank hb
      have hopen : Bytes.dropPrefix? (token ([indent ++ [Bytes.star]].length + rs.length))
          (tokenMark :: ([b] ++ t)) = none := by
        refine dropPrefix?_token_eq_none fun r' _ hr => ?_
        cases hdigits : Integer.ofNat ([indent ++ [Bytes.star]].length + rs.length) with
        | nil => exact Integer.ofNat_ne_nil _ hdigits
        | cons c ds =>
          rw [hdigits] at hr
          have hc : Bytes.isDigit c = true := Integer.ofNat_isDigit (by rw [hdigits]; simp)
          rw [← (List.cons.inj hr).1] at hc
          simp [outsideTokens, hc] at hblank
      rw [List.append_assoc, replaceFirst_token_token hne, Bytes.replaceFirst_cons _ hopen,
        replaceFirst_token_append (tokenMark_notMem_blank hb)]
      simp [token]

/-- Without digits that join holes, restoring fills the outline behind the frame. -/
theorem Frame.restore_eq_fill {head front rest : Bytes} {regions : List Bytes}
    (h : Frame head front regions) (settings : Settings) (hmark : tokenMark ∉ rest)
    (hapart : Apart settings rest) {gs : List Atom}
    (hgs : Respaced (Outline.ofLine settings rest).atoms gs) :
    Protected.restore
        (regions ++ (Outline.ofLine settings rest).regions.map (render regions.length))
        (head ++ render regions.length gs) =
      front ++ (Outline.ofLine settings rest).fill gs := by
  rw [h.restore_eq, Outline.putBack_eq_fill settings hmark hgs hapart]

end EmphasisSpacing
