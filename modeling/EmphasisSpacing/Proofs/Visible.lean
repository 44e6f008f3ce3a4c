import EmphasisSpacing.Proofs.Outline

/-!
# The text outside code and math

Whether a leading star is a bullet is decided on the line without its code and its math: first the code
is deleted, then the math of what is left. Protecting the line finds the math of a line that still has a
token for each code span. `visible` are the bytes of a line outside its holes, and the question is
whether the two ways leave the same bytes.

They do unless code stands directly between a dollar sign or a backslash and a dollar sign
(`JoinsDollars`): where it is deleted, the two signs meet. `visible_cut_math` follows the two scans side
by side, and `dropRanges_outline` puts the steps together.
-/

namespace EmphasisSpacing

open Atom Delimiter

namespace Atom

/-- The bytes outside holes. -/
def visible (as : List Atom) : Bytes :=
  as.filterMap fun
    | .byte b => some b
    | .hole _ => none

section

variable {as : List Atom}

@[simp]
theorem visible_nil : visible [] = [] := rfl

@[simp]
theorem visible_byte (b : UInt8) (as : List Atom) : visible (.byte b :: as) = b :: visible as := rfl

@[simp]
theorem visible_hole (k : Nat) (as : List Atom) : visible (.hole k :: as) = visible as := rfl

@[simp]
theorem visible_append (as bs : List Atom) : visible (as ++ bs) = visible as ++ visible bs := by
  simp [visible]

@[simp]
theorem visible_plain (s : Bytes) : visible (plain s) = s := by
  induction s with
  | nil => rfl
  | cons b s ih => exact congrArg (b :: ·) ih

@[simp]
theorem visible_reverse (as : List Atom) : visible as.reverse = (visible as).reverse := by
  simp [visible, List.filterMap_reverse]

/-- A visible byte is an atom with visible bytes on both sides. -/
theorem exists_of_visible_eq {u v : Bytes} {b : UInt8} (h : visible as = u ++ b :: v) :
    ∃ before behind, as = before ++ .byte b :: behind ∧ visible before = u ∧ visible behind = v := by
  obtain ⟨front, rest, rfl, rfl, hrest⟩ := List.filterMap_eq_append_iff.mp h
  obtain ⟨holes, a, behind, rfl, hholes, ha, rfl⟩ := List.filterMap_eq_cons_iff.mp hrest
  cases a with
  | hole k => cases ha
  | byte c =>
    cases ha
    have hnone : visible holes = [] := List.filterMap_eq_nil_iff.mpr hholes
    refine ⟨front ++ holes, behind, by simp, ?_, rfl⟩
    rw [visible_append, hnone, List.append_nil]
    rfl

end

end Atom

/-! ### Deleting ranges -/

/-- The first range, deleted. -/
theorem dropRanges_cons (i : Nat) (rs : List Range) (pre span rest : Bytes) :
    dropRanges i (⟨i + pre.length, i + pre.length + span.length⟩ :: rs) (pre ++ (span ++ rest)) =
      pre ++ dropRanges (i + pre.length + span.length) rs rest := by
  have hdrop : (pre ++ (span ++ rest)).drop (i + pre.length + span.length - i) = rest := by
    rw [Nat.add_assoc, Nat.add_sub_cancel_left, ← List.length_append, ← List.append_assoc,
      List.drop_left]
  rw [dropRanges, hdrop, Nat.add_sub_cancel_left, List.take_left]

/-- **Deleting the ranges of a text leaves what a cut leaves visible.** The text starts at position
`i`. -/
theorem dropRanges_cut (d : Delimiter) (n i : Nat) (s : Bytes) :
    dropRanges i (delimitedFrom d.byte d.escape i none false s) s =
      visible (cut d n none false (plain s)).1 := by
  induction hlength : s.length using Nat.strongRecOn generalizing n i s with
  | _ k ih =>
    subst hlength
    have hfirst := meetsFirst d 0 n none false (plain s) i
    simp only [held, List.nil_append, render_nil, List.length_nil, Nat.add_zero, Option.map_none,
      render_plain] at hfirst
    generalize delimitedFrom d.byte d.escape i none false s = ranges,
      cut d n none false (plain s) = cutting at hfirst ⊢
    cases hfirst with
    | nothing => rw [dropRanges, visible_plain]
    | span pre body rest has hbody hstart hstop =>
      -- What a text without tokens is cut into are texts without tokens.
      obtain ⟨head, tail, rfl, rfl, htail⟩ := List.map_eq_append_iff.mp has
      obtain ⟨span, tail, rfl, rfl, rfl⟩ := List.map_eq_append_iff.mp htail
      have hshorter : tail.length < (head ++ (span ++ tail)).length := by
        have hpos : 0 < span.length := List.length_pos_iff.mpr fun hnil => hbody (by rw [hnil]; rfl)
        rw [List.length_append, List.length_append]
        omega
      have hrec := ih tail.length hshorter (n + 1) (i + head.length + span.length) tail rfl
      have hrender : ∀ t : Bytes, render 0 (t.map .byte) = t := render_plain 0
      rw [hstop, hstart, hrender, hrender, hrender, dropRanges_cons, hrec, visible_append,
        visible_hole]
      exact congrArg (· ++ _) (visible_plain head).symm

/-! ### Code between dollar signs -/

/-- Whether holes stand directly between a dollar sign or a backslash and a dollar sign. -/
def JoinsDollars (as : List Atom) : Prop :=
  ∃ (front : List Atom) (x : UInt8) (ks : List Nat) (rest : List Atom),
    as = front ++ .byte x :: (ks.map .hole ++ .byte Bytes.dollar :: rest) ∧
    (x = Bytes.dollar ∨ x = Bytes.backslash) ∧ ks ≠ []

/-- The same along the atoms: no hole stands between what is `near` a dollar sign and a dollar sign,
where `near` tells that the last byte was a dollar sign or a backslash. -/
def KeepsDollarsApart : (near : Bool) → List Atom → Prop
  | _, [] => True
  | _, .byte b :: as => KeepsDollarsApart (b == Bytes.dollar || b == Bytes.backslash) as
  | near, .hole _ :: as =>
    (near = true → (visible as).head? ≠ some Bytes.dollar) ∧ KeepsDollarsApart near as

theorem exists_holes_of_head? {as : List Atom} {b : UInt8} (h : (visible as).head? = some b) :
    ∃ (ks : List Nat) (rest : List Atom), as = ks.map .hole ++ .byte b :: rest := by
  induction as with
  | nil => cases h
  | cons a as ih =>
    cases a with
    | byte c =>
      obtain rfl : c = b := Option.some.inj h
      exact ⟨[], as, rfl⟩
    | hole k =>
      obtain ⟨ks, rest, rfl⟩ := ih h
      exact ⟨k :: ks, rest, rfl⟩

theorem JoinsDollars.cons {as : List Atom} (h : JoinsDollars as) (a : Atom) :
    JoinsDollars (a :: as) := by
  obtain ⟨front, x, ks, rest, rfl, hx, hks⟩ := h
  exact ⟨a :: front, x, ks, rest, rfl, hx, hks⟩

theorem JoinsDollars.append {as : List Atom} (h : JoinsDollars as) (bs : List Atom) :
    JoinsDollars (bs ++ as) := by
  induction bs with
  | nil => exact h
  | cons a bs ih => exact ih.cons a

theorem keepsDollarsApart {near : Bool} {as : List Atom} (h : ¬ JoinsDollars as)
    (hnear : near = true → ∀ (ks : List Nat) (rest : List Atom),
      as = ks.map .hole ++ .byte Bytes.dollar :: rest → ks = []) :
    KeepsDollarsApart near as := by
  induction as generalizing near with
  | nil => trivial
  | cons a as ih =>
    have has : ¬ JoinsDollars as := fun hjoins => h (hjoins.cons a)
    cases a with
    | byte b =>
      refine ih has fun hb ks rest hrest => ?_
      by_contra hks
      refine h ⟨[], b, ks, rest, by rw [hrest]; rfl, ?_, hks⟩
      simpa using hb
    | hole k =>
      have hdollar : near = true → ∀ (ks : List Nat) (rest : List Atom),
          as ≠ ks.map .hole ++ .byte Bytes.dollar :: rest := by
        intro hnear' ks rest hrest
        exact absurd (hnear hnear' (k :: ks) rest (by rw [hrest]; rfl)) (List.cons_ne_nil k ks)
      refine ⟨fun hnear' hhead => ?_, ih has fun hnear' ks rest hrest => ?_⟩
      · obtain ⟨ks, rest, hrest⟩ := exists_holes_of_head? hhead
        exact hdollar hnear' ks rest hrest
      · exact absurd hrest (hdollar hnear' ks rest)

/-- What two scans know, one of a line with holes and one of its visible bytes, when `as` is still to be
read: they differ only behind holes that follow a dollar sign or a backslash, and then the next visible
byte is no dollar sign. -/
structure Abreast (near : Bool) (pending : Option (List Atom)) (dead dead' : Bool) (as : List Atom) :
    Prop where
  apart : KeepsDollarsApart near as
  near_of_dead : dead' = true → near = true
  near_of_pending : ∀ mid, pending = some mid → visible mid = [] → near = true
  dead_eq : dead = dead' ∨ (visible as).head? ≠ some Bytes.dollar
  pending_eq : ∀ mid, pending = some mid → visible mid = [] →
    mid = [] ∨ (visible as).head? ≠ some Bytes.dollar

section

variable {near dead dead' : Bool} {pending : Option (List Atom)} {as : List Atom} {b : UInt8} {k : Nat}

/-- Over a hole the second scan stays where it is. -/
theorem Abreast.hole (h : Abreast near pending dead dead' (.hole k :: as)) :
    Abreast near (pending.map (.hole k :: ·)) false dead' as where
  apart := h.apart.2
  near_of_dead := h.near_of_dead
  near_of_pending := by
    intro mid hpending hnone
    obtain ⟨mid, hmid, rfl⟩ := Option.map_eq_some_iff.mp hpending
    exact h.near_of_pending mid hmid hnone
  dead_eq := by
    cases dead' with
    | false => exact .inl rfl
    | true => exact .inr (h.apart.1 (h.near_of_dead rfl))
  pending_eq := by
    intro mid hpending hnone
    obtain ⟨mid, hmid, rfl⟩ := Option.map_eq_some_iff.mp hpending
    exact .inr (h.apart.1 (h.near_of_pending mid hmid hnone))

/-- A byte is a delimiter for both or for none. -/
theorem Abreast.opens_eq (h : Abreast near pending dead dead' (.byte b :: as)) :
    Delimiter.opens .math dead (.byte b) = Delimiter.opens .math dead' (.byte b) := by
  rcases h.dead_eq with rfl | hhead
  · rfl
  · have hb : b ≠ Bytes.dollar := fun hb => hhead (by rw [hb]; rfl)
    have hclosed : ∀ dead, Delimiter.opens .math dead (.byte b) = false := by
      intro dead
      simp [Delimiter.opens, Delimiter.byte, hb]
    rw [hclosed, hclosed]

/-- Over a byte both scans go on; then they know the same. -/
theorem Abreast.byte (h : Abreast near pending dead dead' (.byte b :: as))
    (pending' : Option (List Atom)) (dead'' : Bool) (hdead : dead'' = true → b = Bytes.backslash)
    (hpending : ∀ mid, pending' = some mid → visible mid = [] → b = Bytes.dollar ∧ mid = []) :
    Abreast (b == Bytes.dollar || b == Bytes.backslash) pending' dead'' dead'' as where
  apart := h.apart
  near_of_dead hdead'' := by simp [hdead hdead'']
  near_of_pending mid hmid hnone := by simp [(hpending mid hmid hnone).1]
  dead_eq := .inl rfl
  pending_eq mid hmid hnone := .inl (hpending mid hmid hnone).2

end

/-- **Two scans side by side** leave the same bytes visible. -/
theorem visible_cut_math (as : List Atom) :
    ∀ (n n' : Nat) {near : Bool} {pending : Option (List Atom)} {dead dead' : Bool},
      Abreast near pending dead dead' as →
      visible (cut .math n pending dead as).1 =
        visible (cut .math n' (pending.map fun mid => plain (visible mid)) dead'
          (plain (visible as))).1 := by
  induction as with
  | nil =>
    intro n n' near pending dead dead' _
    rw [visible_nil, show plain [] = [] from rfl, cut_nil, cut_nil]
    cases pending <;> simp [held]
  | cons a as ih =>
    intro n n' near pending dead dead' h
    cases a with
    | hole k =>
      have hop : Delimiter.opens .math dead (.hole k) = false := rfl
      -- A hole is not visible, so only the scan that still has it moves on.
      have hrec := ih n n' h.hole
      rw [visible_hole]
      cases pending with
      | none =>
        rw [cut_copy hop, visible_hole]
        exact hrec
      | some mid =>
        rw [cut_keep hop]
        exact hrec
    | byte b =>
      have hplain : plain (visible (.byte b :: as)) = .byte b :: plain (visible as) := rfl
      rw [hplain]
      cases hop : Delimiter.opens .math dead (.byte b) with
      | true =>
        have hop' := h.opens_eq.symm.trans hop
        obtain ⟨hb, -⟩ := Delimiter.opens_iff.mp hop
        cases hb
        have hopen := ih n n' (h.byte (some []) false (by simp) (by simp +contextual [Delimiter.byte]))
        cases pending with
        | none =>
          rw [Option.map_none, cut_open hop, cut_open hop']
          exact hopen
        | some mid =>
          by_cases hmid : mid = []
          · subst hmid
            rw [Option.map_some, show plain (visible []) = [] from rfl, cut_reopen hop, cut_reopen hop']
            exact congrArg (_ :: ·) hopen
          · -- What is kept back is not empty, with its holes or without them.
            have hvisible : plain (visible mid) ≠ [] := by
              intro hnone
              have hnone : visible mid = [] := List.map_eq_nil_iff.mp hnone
              exact (h.pending_eq mid rfl hnone).elim hmid fun hhead => hhead rfl
            rw [Option.map_some, cut_close hmid hop, cut_close hvisible hop', visible_hole, visible_hole]
            exact ih (n + 1) (n' + 1) (h.byte none false (by simp) (by simp))
      | false =>
        have hop' := h.opens_eq.symm.trans hop
        have hdead : Delimiter.escapes .math (.byte b) = true → b = Bytes.backslash := by
          intro hescapes
          exact (Option.some.inj (beq_iff_eq.mp hescapes)).symm
        cases pending with
        | none =>
          rw [Option.map_none, cut_copy hop, cut_copy hop', visible_byte, visible_byte]
          exact congrArg (b :: ·) (ih n n' (h.byte none _ hdead (by simp)))
        | some mid =>
          have hkept := ih n n' (h.byte (some (.byte b :: mid)) _ hdead (by simp))
          rw [Option.map_some, cut_keep hop, cut_keep hop']
          exact hkept

/-! ### The line without its code and its math -/

/-- **Deleting code and then math leaves what the outline leaves visible**, unless code stands between
dollar signs. -/
theorem dropRanges_outline {settings : Settings} (hskip : settings.skipInlineCode = true) {s : Bytes}
    (h : ¬ JoinsDollars (Outline.cutCode settings (plain s)).1) :
    dropRanges 0 (mathSpans (dropRanges 0 (codeSpans s) s)) (dropRanges 0 (codeSpans s) s) =
      visible (Outline.ofLine settings s).atoms := by
  have hcutCode : (Outline.cutCode settings (plain s)).1 = (cut .code 0 none false (plain s)).1 := by
    rw [Outline.cutCode, if_pos hskip]
  have hcode : dropRanges 0 (codeSpans s) s = visible (Outline.cutCode settings (plain s)).1 := by
    rw [hcutCode]
    exact dropRanges_cut .code 0 0 s
  have habreast : Abreast false none false false (Outline.cutCode settings (plain s)).1 :=
    ⟨keepsDollarsApart h (by simp), by simp, by simp, .inl rfl, by simp⟩
  rw [hcode]
  calc
    _ = visible (cut .math 0 none false
          (plain (visible (Outline.cutCode settings (plain s)).1))).1 :=
      dropRanges_cut .math 0 0 _
    _ = visible (Outline.ofLine settings s).atoms := (visible_cut_math _ _ 0 habreast).symm

end EmphasisSpacing
