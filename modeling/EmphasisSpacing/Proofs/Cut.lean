import EmphasisSpacing.Proofs.Atom

/-!
# Cutting spans out of a line

Code and math are found in the same way and differ in their delimiter. `cut` does on atoms what
finding the ranges and replacing them by tokens does on bytes (`replaceRanges_cut`), in one pass and
without positions: every span becomes a hole, and the spans are given back in order. That both meet the
same first span (`meetsFirst`) is all that is needed for it.

What a cut leaves cannot be cut any further. `walk` is the automaton that says so: it follows a
delimiter that waits for its partner, and refuses a text in which one would find it. Two facts about
it carry everything that is said about protecting a line again.

* A text that the automaton accepts, with its holes filled by spans, is cut at exactly these holes
  (`cut_plug`).
* The automaton does not see blanks that come and go next to stars (`walk_respaced`).
-/

namespace EmphasisSpacing

open LineSymbol Atom

/-- What stands at both ends of a span. -/
inductive Delimiter where
  | code
  | math
  deriving DecidableEq, Repr

namespace Delimiter

/-- The byte of a delimiter. -/
def byte : Delimiter → UInt8
  | .code => Bytes.grave
  | .math => Bytes.dollar

/-- The byte that makes a delimiter behind it literal. -/
def escape : Delimiter → Option UInt8
  | .code => none
  | .math => some Bytes.backslash

/-- Whether an atom is a delimiter that counts. `dead` tells that it is escaped. -/
def opens (d : Delimiter) (dead : Bool) (a : Atom) : Bool := a == .byte d.byte && !dead

/-- Whether a delimiter right behind an atom is escaped. -/
def escapes (d : Delimiter) : Atom → Bool
  | .byte b => d.escape == some b
  | .hole _ => false

theorem opens_iff {d : Delimiter} {dead : Bool} {a : Atom} :
    d.opens dead a = true ↔ a = .byte d.byte ∧ dead = false := by
  simp [opens]

/-- What is not part of a delimiter: it neither opens, nor closes, nor escapes. -/
def Ignores (d : Delimiter) (b : UInt8) : Prop := b ≠ d.byte ∧ d.escape ≠ some b

instance (d : Delimiter) (b : UInt8) : Decidable (d.Ignores b) :=
  inferInstanceAs (Decidable (_ ∧ _))

theorem ignores_star (d : Delimiter) : d.Ignores Bytes.star := by cases d <;> decide

theorem ignores_of_isBlank (d : Delimiter) {b : UInt8} (hb : Bytes.isBlank b = true) :
    d.Ignores b := by
  simp only [Bytes.isBlank, Bool.or_eq_true, beq_iff_eq] at hb
  rcases hb with rfl | rfl <;> cases d <;> decide

theorem ignores_of_mem_token (d : Delimiter) {k : Nat} {b : UInt8} (hb : b ∈ token k) :
    d.Ignores b := by
  refine ⟨fun h => ?_, fun h => ?_⟩
  · subst h
    exact notMem_token (by cases d <;> decide) k hb
  · cases d with
    | code => cases h
    | math =>
      cases h
      exact notMem_token (by decide) k hb

theorem Ignores.opens {d : Delimiter} {b : UInt8} (h : d.Ignores b) (dead : Bool) :
    d.opens dead (.byte b) = false := by
  simp [Delimiter.opens, h.1]

theorem Ignores.escapes {d : Delimiter} {b : UInt8} (h : d.Ignores b) :
    d.escapes (.byte b) = false := by
  simpa [Delimiter.escapes] using h.2

end Delimiter

/-! ### The cut -/

/-- Cuts the spans out of a list of atoms and numbers the holes from `n`. `pending` holds,
backwards, what stands behind a delimiter that waits for its partner, and `dead` tells that a
delimiter here is escaped. -/
def cut (d : Delimiter) :
    (n : Nat) → (pending : Option (List Atom)) → (dead : Bool) → List Atom →
      List Atom × List (List Atom)
  | _, none, _, [] => ([], [])
  | _, some mid, _, [] => (.byte d.byte :: mid.reverse, [])
  | n, none, dead, a :: as =>
    if d.opens dead a then cut d n (some []) false as
    else
      let r := cut d n none (d.escapes a) as
      (a :: r.1, r.2)
  | n, some [], dead, a :: as =>
    if d.opens dead a then
      let r := cut d n (some []) false as
      (.byte d.byte :: r.1, r.2)
    else cut d n (some [a]) (d.escapes a) as
  | n, some (x :: mid), dead, a :: as =>
    if d.opens dead a then
      let r := cut d (n + 1) none false as
      (.hole n :: r.1, (.byte d.byte :: ((x :: mid).reverse ++ [.byte d.byte])) :: r.2)
    else cut d n (some (a :: x :: mid)) (d.escapes a) as

/-- The atoms that a pending delimiter keeps back. -/
def held (d : Delimiter) : Option (List Atom) → List Atom
  | none => []
  | some mid => .byte d.byte :: mid.reverse

section

variable {d : Delimiter} {n : Nat} {dead : Bool} {a : Atom} {as : List Atom}

theorem cut_nil (pending : Option (List Atom)) :
    cut d n pending dead [] = (held d pending, []) := by
  cases pending <;> rfl

/-- A delimiter starts to wait. -/
theorem cut_open (h : d.opens dead a = true) :
    cut d n none dead (a :: as) = cut d n (some []) false as := by
  rw [cut, if_pos h]

/-- A delimiter right behind a waiting one takes its place. -/
theorem cut_reopen (h : d.opens dead a = true) :
    cut d n (some []) dead (a :: as) =
      (.byte d.byte :: (cut d n (some []) false as).1, (cut d n (some []) false as).2) := by
  rw [cut, if_pos h]

/-- A delimiter finds its partner. -/
theorem cut_close {mid : List Atom} (hmid : mid ≠ []) (h : d.opens dead a = true) :
    cut d n (some mid) dead (a :: as) =
      (.hole n :: (cut d (n + 1) none false as).1,
        (.byte d.byte :: (mid.reverse ++ [.byte d.byte])) :: (cut d (n + 1) none false as).2) := by
  cases mid with
  | nil => exact absurd rfl hmid
  | cons x mid => rw [cut, if_pos h]

/-- Outside a span, what is no delimiter is copied. -/
theorem cut_copy (h : d.opens dead a = false) :
    cut d n none dead (a :: as) =
      (a :: (cut d n none (d.escapes a) as).1, (cut d n none (d.escapes a) as).2) := by
  rw [cut, if_neg (by rw [h]; decide)]

/-- Behind a waiting delimiter it is kept back. -/
theorem cut_keep {mid : List Atom} (h : d.opens dead a = false) :
    cut d n (some mid) dead (a :: as) = cut d n (some (a :: mid)) (d.escapes a) as := by
  cases mid <;> rw [cut, if_neg (by rw [h]; decide)]

end

/-- Induction along a cut. -/
theorem cut_induction (d : Delimiter)
    {motive : Nat → Option (List Atom) → Bool → List Atom → Prop}
    (nil : ∀ n pending dead, motive n pending dead [])
    (opening : ∀ n dead a as, d.opens dead a = true → motive n (some []) false as →
      motive n none dead (a :: as))
    (reopening : ∀ n dead a as, d.opens dead a = true → motive n (some []) false as →
      motive n (some []) dead (a :: as))
    (closing : ∀ n mid dead a as, mid ≠ [] → d.opens dead a = true → motive (n + 1) none false as →
      motive n (some mid) dead (a :: as))
    (copying : ∀ n dead a as, d.opens dead a = false → motive n none (d.escapes a) as →
      motive n none dead (a :: as))
    (keeping : ∀ n mid dead a as, d.opens dead a = false →
      motive n (some (a :: mid)) (d.escapes a) as → motive n (some mid) dead (a :: as)) :
    ∀ n pending dead as, motive n pending dead as := by
  intro n pending dead as
  induction as generalizing n pending dead with
  | nil => exact nil n pending dead
  | cons a as ih =>
    cases hop : d.opens dead a with
    | true =>
      cases pending with
      | none => exact opening n dead a as hop (ih _ _ _)
      | some mid =>
        by_cases hmid : mid = []
        · subst hmid
          exact reopening n dead a as hop (ih _ _ _)
        · exact closing n mid dead a as hmid hop (ih _ _ _)
    | false =>
      cases pending with
      | none => exact copying n dead a as hop (ih _ _ _)
      | some mid => exact keeping n mid dead a as hop (ih _ _ _)

/-! ### Cutting is replacing ranges -/

section

variable {d : Delimiter} {i o : Nat} {opening : Option Nat} {dead : Bool} {b : UInt8} {s : Bytes}

theorem delimitedFrom_cons (h : (b == d.byte && !dead) = false) :
    delimitedFrom d.byte d.escape i opening dead (b :: s) =
      delimitedFrom d.byte d.escape (i + 1) opening (d.escape == some b) s := by
  rw [delimitedFrom.eq_def]
  dsimp only
  rw [if_neg (by rw [h]; decide)]

theorem delimitedFrom_open :
    delimitedFrom d.byte d.escape i none false (d.byte :: s) =
      delimitedFrom d.byte d.escape (i + 1) (some i) false s := by
  rw [delimitedFrom.eq_def]
  simp

theorem delimitedFrom_reopen :
    delimitedFrom d.byte d.escape (o + 1) (some o) false (d.byte :: s) =
      delimitedFrom d.byte d.escape (o + 2) (some (o + 1)) false s := by
  rw [delimitedFrom.eq_def]
  simp

theorem delimitedFrom_close (h : i ≠ o + 1) :
    delimitedFrom d.byte d.escape i (some o) false (d.byte :: s) =
      ⟨o, i + 1⟩ :: delimitedFrom d.byte d.escape (i + 1) none false s := by
  rw [delimitedFrom.eq_def]
  simp [h]

end

/-- The first range, replaced. -/
theorem replaceRanges_cons (n i : Nat) (rs : List Range) (pre span rest : Bytes) :
    Protected.replaceRanges n i (⟨i + pre.length, i + pre.length + span.length⟩ :: rs)
        (pre ++ (span ++ rest)) =
      (pre ++ token n ++
          (Protected.replaceRanges (n + 1) (i + pre.length + span.length) rs rest).1,
        span :: (Protected.replaceRanges (n + 1) (i + pre.length + span.length) rs rest).2) := by
  have hdrop : (pre ++ (span ++ rest)).drop (i + pre.length + span.length - i) = rest := by
    rw [Nat.add_assoc, Nat.add_sub_cancel_left, ← List.length_append, ← List.append_assoc,
      List.drop_left]
  rw [Protected.replaceRanges]
  dsimp only
  rw [hdrop, Nat.add_sub_cancel_left, Nat.add_sub_cancel_left, List.take_left, List.drop_left,
    List.take_left]

/-- What holds neither delimiters nor escapes is passed over. -/
theorem delimitedFrom_append {d : Delimiter} (opening : Option Nat) :
    ∀ (w s : Bytes) (i : Nat) (dead : Bool), w ≠ [] → (∀ b ∈ w, d.Ignores b) →
      delimitedFrom d.byte d.escape i opening dead (w ++ s) =
        delimitedFrom d.byte d.escape (i + w.length) opening false s := by
  intro w
  induction w with
  | nil => intro s i dead hne; exact absurd rfl hne
  | cons b w ih =>
    intro s i dead _ hw
    obtain ⟨hbyte, hesc⟩ := hw b (List.mem_cons_self ..)
    have hstep : delimitedFrom d.byte d.escape i opening dead (b :: (w ++ s)) =
        delimitedFrom d.byte d.escape (i + 1) opening false (w ++ s) := by
      rw [delimitedFrom_cons (by simp [hbyte]), beq_eq_false_iff_ne.mpr hesc]
    rw [List.cons_append, hstep]
    cases w with
    | nil => rfl
    | cons c w =>
      rw [ih s (i + 1) false (by simp) fun x hx => hw x (List.mem_cons_of_mem _ hx),
        List.length_cons (a := b), Nat.add_assoc, Nat.add_comm 1]

/-- An atom that is no delimiter is passed over. -/
theorem delimitedFrom_bytes {d : Delimiter} {dead : Bool} {a : Atom} (h : d.opens dead a = false)
    (base i : Nat) (opening : Option Nat) (s : Bytes) :
    delimitedFrom d.byte d.escape i opening dead (a.bytes base ++ s) =
      delimitedFrom d.byte d.escape (i + (a.bytes base).length) opening (d.escapes a) s := by
  cases a with
  | byte b =>
    have hcond : (b == d.byte && !dead) = false := by simpa [Delimiter.opens] using h
    exact delimitedFrom_cons hcond
  | hole k =>
    exact delimitedFrom_append opening _ s i dead (token_ne_nil _) fun b hb =>
      d.ignores_of_mem_token hb

/-- What the pass over the bytes of atoms, which start at position `i`, and the cut of the atoms meet
first: no span, or the same one behind `pre`, where both start anew. -/
inductive MeetsFirst (d : Delimiter) (base n i : Nat) (as : List Atom) :
    (ranges : List Range) → (cutting : List Atom × List (List Atom)) → Prop
  | nothing : MeetsFirst d base n i as [] (as, [])
  | span {start stop : Nat} (pre body rest : List Atom) (has : as = pre ++ (body ++ rest))
      (hbody : body ≠ []) (hstart : start = i + (render base pre).length)
      (hstop : stop = start + (render base body).length) :
      MeetsFirst d base n i as
        (⟨start, stop⟩ :: delimitedFrom d.byte d.escape stop none false (render base rest))
        (pre ++ .hole n :: (cut d (n + 1) none false rest).1,
          body :: (cut d (n + 1) none false rest).2)

/-- An atom that both copy stands in front of the first span. -/
theorem MeetsFirst.cons {d : Delimiter} {base n i : Nat} {as : List Atom} {ranges : List Range}
    {cutting : List Atom × List (List Atom)} (a : Atom)
    (h : MeetsFirst d base n (i + (a.bytes base).length) as ranges cutting) :
    MeetsFirst d base n i (a :: as) ranges (a :: cutting.1, cutting.2) := by
  cases h with
  | nothing => exact .nothing
  | span pre body rest has hbody hstart hstop =>
    refine .span (a :: pre) body rest (by rw [has]; rfl) hbody ?_ hstop
    rw [hstart, render_cons, List.length_append, Nat.add_assoc]

/-- **The pass over bytes and the cut of atoms meet the same spans.** What is pending starts at position
`i`. -/
theorem meetsFirst (d : Delimiter) (base n : Nat) (pending : Option (List Atom)) (dead : Bool)
    (as : List Atom) (i : Nat) :
    MeetsFirst d base n i (held d pending ++ as)
      (delimitedFrom d.byte d.escape (i + (render base (held d pending)).length)
        (pending.map fun _ => i) dead (render base as))
      (cut d n pending dead as) := by
  induction n, pending, dead, as using cut_induction d generalizing i with
  | nil n pending dead =>
    rw [cut_nil, List.append_nil]
    exact .nothing
  | opening n dead a as hop ih =>
    obtain ⟨rfl, rfl⟩ := Delimiter.opens_iff.mp hop
    rw [cut_open hop]
    have hrec := ih i
    simpa [held, delimitedFrom_open] using hrec
  | reopening n dead a as hop ih =>
    obtain ⟨rfl, rfl⟩ := Delimiter.opens_iff.mp hop
    rw [cut_reopen hop]
    have hrec := (ih (i + 1)).cons (.byte d.byte)
    simpa [held, delimitedFrom_reopen] using hrec
  | closing n mid dead a as hmid hop ih =>
    obtain ⟨rfl, rfl⟩ := Delimiter.opens_iff.mp hop
    rw [cut_close hmid hop]
    -- The pass asks for a byte between the delimiters, and the cut for an atom.
    have hlen : 0 < (render base mid.reverse).length :=
      List.length_pos_iff.mpr fun h => hmid (by simpa using render_eq_nil h)
    have hheld : (render base (held d (some mid))).length = (render base mid.reverse).length + 1 := by
      rw [held, render_cons, List.length_append, Nat.add_comm]
      rfl
    rw [Option.map_some, show render base (.byte d.byte :: as) = d.byte :: render base as from rfl,
      delimitedFrom_close (by omega)]
    refine .span [] (.byte d.byte :: (mid.reverse ++ [.byte d.byte])) as ?_ (by simp) rfl ?_
    · simp [held]
    · rw [hheld]
      simp
      omega
  | copying n dead a as hop ih =>
    rw [cut_copy hop, render_cons, delimitedFrom_bytes hop]
    have hrec := (ih (i + (a.bytes base).length)).cons a
    simpa [held] using hrec
  | keeping n mid dead a as hop ih =>
    rw [cut_keep hop, render_cons, delimitedFrom_bytes hop]
    have hrec := ih i
    simpa [held, Nat.add_assoc, Nat.add_comm 1] using hrec

/-- **Cutting atoms is replacing ranges of bytes.** The bytes start at position `i`, and `head` stands in
front of the atoms. -/
theorem replaceRanges_cut (d : Delimiter) (base n i : Nat) (head : Bytes) (as : List Atom) :
    Protected.replaceRanges (base + n) i
        (delimitedFrom d.byte d.escape (i + head.length) none false (render base as))
        (head ++ render base as) =
      (head ++ render base (cut d n none false as).1,
        (cut d n none false as).2.map (render base)) := by
  induction hlength : as.length using Nat.strongRecOn generalizing n i head as with
  | _ k ih =>
    subst hlength
    have hfirst := meetsFirst d base n none false as (i + head.length)
    simp only [held, List.nil_append, render_nil, List.length_nil, Nat.add_zero,
      Option.map_none] at hfirst
    generalize delimitedFrom d.byte d.escape (i + head.length) none false (render base as) = ranges,
      cut d n none false as = cutting at hfirst ⊢
    cases hfirst with
    | nothing => rfl
    | span pre body rest has hbody hstart hstop =>
      have hshorter : rest.length < as.length := by
        have hpos := List.length_pos_iff.mpr hbody
        rw [has, List.length_append, List.length_append]
        omega
      -- Behind its first span, the pass is in the state in which it started.
      have hrec := ih rest.length hshorter (n + 1) (i + (head ++ render base pre).length +
        (render base body).length) [] rest rfl
      have hline : head ++ render base as =
          head ++ render base pre ++ (render base body ++ render base rest) := by
        rw [has]
        simp
      simp only [List.nil_append, List.length_nil, Nat.add_zero] at hrec
      rw [hstop, hstart, hline, Nat.add_assoc i, ← List.length_append, replaceRanges_cons,
        Nat.add_assoc base, hrec]
      simp

/-! ### What a cut leaves -/

/-- What the automaton knows about a delimiter that waits for its partner. -/
inductive Mode where
  /-- None waits. -/
  | idle
  /-- One waits, and nothing stands behind it. -/
  | fresh
  /-- One waits, with something behind it. -/
  | busy
  deriving DecidableEq, Repr

/-- The mode behind an atom that is no delimiter. -/
def Mode.pass : Mode → Mode
  | .idle => .idle
  | .fresh => .busy
  | .busy => .busy

@[simp]
theorem Mode.pass_pass (mode : Mode) : mode.pass.pass = mode.pass := by cases mode <;> rfl

/-- The mode that a pending delimiter is in. -/
def Mode.of : Option (List Atom) → Mode
  | none => .idle
  | some [] => .fresh
  | some (_ :: _) => .busy

/-- Whether an atom is a hole with a number from `m` on, that is, of the spans at hand. -/
def Atom.isNew (m : Nat) : Atom → Bool
  | .byte _ => false
  | .hole k => m ≤ k

/-- The numbers from `m` on of the holes, from left to right. -/
def newHoles (m : Nat) (as : List Atom) : List Nat := (holes as).filter (m ≤ ·)

namespace Delimiter

/-- One step of the automaton, given the mode and whether a delimiter here is escaped. It refuses a
delimiter that would find its partner, and a new hole where its span would not start. -/
def step (d : Delimiter) (m : Nat) (σ : Mode × Bool) (a : Atom) : Option (Mode × Bool) :=
  if a.isNew m then
    if σ.1 = .busy ∨ σ.2 = true then none else some (.idle, false)
  else if d.opens σ.2 a then
    if σ.1 = .busy then none else some (.fresh, false)
  else some (σ.1.pass, d.escapes a)

/-- The automaton over a list of atoms. -/
def walk (d : Delimiter) (m : Nat) : Mode × Bool → List Atom → Option (Mode × Bool)
  | σ, [] => some σ
  | σ, a :: as => (d.step m σ a).bind fun τ => d.walk m τ as

/-- A span: something between two delimiters, in which none counts and none is escaped last. -/
def IsSpan (d : Delimiter) (m : Nat) (body : List Atom) : Prop :=
  ∃ mid, mid ≠ [] ∧ body = .byte d.byte :: (mid ++ [.byte d.byte]) ∧
    d.walk m (.busy, false) mid = some (.busy, false)

section

variable {d : Delimiter} {m : Nat} {σ : Mode × Bool} {a : Atom} {as : List Atom}

theorem walk_append (bs : List Atom) :
    d.walk m σ (as ++ bs) = (d.walk m σ as).bind fun τ => d.walk m τ bs := by
  induction as generalizing σ with
  | nil => rfl
  | cons a as ih =>
    rw [List.cons_append, walk, walk]
    cases d.step m σ a with
    | none => rfl
    | some τ => exact ih

theorem step_new (ha : a.isNew m = true) (hmode : σ.1 ≠ .busy) (hdead : σ.2 = false) :
    d.step m σ a = some (.idle, false) := by
  rw [step, if_pos ha, if_neg (by simp [hmode, hdead])]

theorem step_open (ha : d.opens σ.2 a = true) (hmode : σ.1 ≠ .busy) :
    d.step m σ a = some (.fresh, false) := by
  have hnew : a.isNew m = false := by
    rw [(opens_iff.mp ha).1]
    rfl
  rw [step, if_neg (by rw [hnew]; decide), if_pos ha, if_neg hmode]

theorem step_pass (hnew : a.isNew m = false) (ha : d.opens σ.2 a = false) :
    d.step m σ a = some (σ.1.pass, d.escapes a) := by
  rw [step, if_neg (by rw [hnew]; decide), if_neg (by rw [ha]; decide)]

/-- Inside a span, the automaton takes neither new holes nor delimiters that count. -/
theorem step_busy {dead : Bool} {τ : Mode × Bool} (h : d.step m (.busy, dead) a = some τ) :
    a.isNew m = false ∧ d.opens dead a = false ∧ τ = (.busy, d.escapes a) := by
  rw [step] at h
  split_ifs at h with hnew hbusy hop hbusy
  · simp at hbusy
  · simp at hbusy
  · exact ⟨by simpa using hnew, by simpa using hop, (Option.some.inj h).symm⟩

/-- A span holds no new holes. -/
theorem IsSpan.isNew {body : List Atom} (h : d.IsSpan m body) : ∀ a ∈ body, a.isNew m = false := by
  obtain ⟨mid, -, rfl, hwalk⟩ := h
  have hmid : ∀ (mid : List Atom) (dead : Bool), (d.walk m (.busy, dead) mid).isSome = true →
      ∀ a ∈ mid, a.isNew m = false := by
    intro mid
    induction mid with
    | nil => simp
    | cons x mid ih =>
      intro dead hwalk
      rw [walk] at hwalk
      cases hstep : d.step m (.busy, dead) x with
      | none =>
        rw [hstep] at hwalk
        cases hwalk
      | some τ =>
        obtain ⟨hnew, -, rfl⟩ := step_busy hstep
        rw [hstep] at hwalk
        exact List.forall_mem_cons.mpr ⟨hnew, ih _ hwalk⟩
  intro a ha
  simp only [List.mem_cons, List.mem_append, List.not_mem_nil, or_false] at ha
  rcases ha with rfl | ha | rfl
  · rfl
  · exact hmid mid false (by rw [hwalk]; rfl) a ha
  · rfl

/-- In front of a list that is read behind a waiting delimiter, it does not matter whether something
stood behind the delimiter before. -/
theorem walk_fresh (h : (d.walk m (.busy, false) as).isSome = true) :
    (d.walk m (.fresh, false) as).isSome = true := by
  cases as with
  | nil => rfl
  | cons a as =>
    rw [walk] at h
    cases hstep : d.step m (.busy, false) a with
    | none =>
      rw [hstep] at h
      cases h
    | some τ =>
      obtain ⟨hnew, hop, rfl⟩ := step_busy hstep
      rw [hstep] at h
      rw [walk, step_pass hnew hop]
      exact h

end

end Delimiter

open Delimiter

section

variable {d : Delimiter} {m : Nat}

@[simp]
theorem newHoles_nil : newHoles m [] = [] := rfl

@[simp]
theorem newHoles_byte (b : UInt8) (as : List Atom) :
    newHoles m (.byte b :: as) = newHoles m as := rfl

theorem newHoles_cons_old {a : Atom} (ha : a.isNew m = false) (as : List Atom) :
    newHoles m (a :: as) = newHoles m as := by
  cases a with
  | byte b => rfl
  | hole k =>
    have hk : ¬ m ≤ k := by simpa [Atom.isNew] using ha
    simp [newHoles, hk]

theorem newHoles_cons_new {k : Nat} (hk : m ≤ k) (as : List Atom) :
    newHoles m (.hole k :: as) = k :: newHoles m as := by
  simp [newHoles, hk]

theorem newHoles_append (as bs : List Atom) :
    newHoles m (as ++ bs) = newHoles m as ++ newHoles m bs := by
  simp [newHoles]

@[simp]
theorem newHoles_zero (as : List Atom) : newHoles 0 as = holes as :=
  List.filter_eq_self.mpr (by simp)

theorem newHoles_eq_nil_iff {as : List Atom} :
    newHoles m as = [] ↔ ∀ a ∈ as, a.isNew m = false := by
  induction as with
  | nil => simp
  | cons a as ih =>
    rw [List.forall_mem_cons, ← ih]
    cases ha : a.isNew m with
    | false => simp [newHoles_cons_old ha]
    | true =>
      cases a with
      | byte b => cases ha
      | hole k => simp [newHoles_cons_new (by simpa [Atom.isNew] using ha)]

/-- What is pending is accepted up to here. -/
def Pends (d : Delimiter) (m : Nat) (pending : Option (List Atom)) (dead : Bool) : Prop :=
  ∀ mid ∈ pending, d.walk m (.busy, false) mid.reverse = some (.busy, dead)

theorem pends_none {dead : Bool} : Pends d m none dead := fun _ h => by cases h

theorem pends_fresh : Pends d m (some []) false := fun _ h => by
  cases h
  rfl

theorem Pends.keep {mid : List Atom} {dead : Bool} {a : Atom} (h : Pends d m (some mid) dead)
    (hnew : a.isNew m = false) (hop : d.opens dead a = false) :
    Pends d m (some (a :: mid)) (d.escapes a) := by
  intro mid' hmid'
  cases hmid'
  rw [List.reverse_cons, walk_append, h mid rfl]
  show d.walk m (.busy, dead) [a] = _
  rw [walk, step_pass hnew hop]
  rfl

/-- The states of the automaton in front of what is pending. -/
def Ahead (σ : Mode × Bool) (dead : Bool) : Option (List Atom) → Prop
  | none => σ = (.idle, dead)
  | some _ => σ.1 ≠ .busy ∧ σ.2 = false

/-- The automaton accepts what a cut leaves. It starts in front of what is pending, for the cut has
not written that yet. -/
theorem walk_cut {n : Nat} {pending : Option (List Atom)} {dead : Bool} {as : List Atom}
    {σ : Mode × Bool} (hn : m ≤ n) (has : ∀ a ∈ as, a.isNew m = false)
    (hpends : Pends d m pending dead) (hσ : Ahead σ dead pending) :
    (d.walk m σ (cut d n pending dead as).1).isSome = true := by
  induction n, pending, dead, as using cut_induction d generalizing σ with
  | nil n pending dead =>
    rw [cut_nil]
    cases pending with
    | none => rfl
    | some mid =>
      obtain ⟨hmode, hdead⟩ := hσ
      -- At the end the cut writes out what is pending, and nothing in that closes it.
      have hop : d.opens σ.2 (.byte d.byte) = true := by simp [opens, hdead]
      rw [held, walk, step_open hop hmode]
      exact walk_fresh (by rw [hpends mid rfl]; rfl)
  | opening n dead a as hop ih =>
    rw [List.forall_mem_cons] at has
    obtain rfl : σ = (.idle, dead) := hσ
    rw [cut_open hop, (opens_iff.mp hop).2]
    exact ih hn has.2 pends_fresh ⟨by decide, rfl⟩
  | reopening n dead a as hop ih =>
    rw [List.forall_mem_cons] at has
    obtain ⟨hmode, hdead⟩ := hσ
    have hop' : d.opens σ.2 (.byte d.byte) = true := by simp [opens, hdead]
    rw [cut_reopen hop, walk, step_open hop' hmode]
    exact ih hn has.2 pends_fresh ⟨by decide, rfl⟩
  | closing n mid dead a as hmid hop ih =>
    rw [List.forall_mem_cons] at has
    obtain ⟨hmode, hdead⟩ := hσ
    rw [cut_close hmid hop, walk, step_new (by simpa [Atom.isNew] using hn) hmode hdead]
    exact ih (Nat.le_succ_of_le hn) has.2 pends_none rfl
  | copying n dead a as hop ih =>
    rw [List.forall_mem_cons] at has
    obtain rfl : σ = (.idle, dead) := hσ
    rw [cut_copy hop, walk, step_pass has.1 hop]
    exact ih hn has.2 pends_none rfl
  | keeping n mid dead a as hop ih =>
    rw [List.forall_mem_cons] at has
    rw [cut_keep hop]
    exact ih hn has.2 (hpends.keep has.1 hop) hσ

/-- Everything that is cut out is a span. -/
theorem isSpan_of_mem_cut {n : Nat} {pending : Option (List Atom)} {dead : Bool} {as : List Atom}
    (has : ∀ a ∈ as, a.isNew m = false) (hpends : Pends d m pending dead) :
    ∀ body ∈ (cut d n pending dead as).2, d.IsSpan m body := by
  induction n, pending, dead, as using cut_induction d with
  | nil n pending dead =>
    rw [cut_nil]
    exact fun body hbody => by cases hbody
  | opening n dead a as hop ih =>
    rw [cut_open hop]
    exact ih (List.forall_mem_cons.mp has).2 pends_fresh
  | reopening n dead a as hop ih =>
    rw [cut_reopen hop]
    exact ih (List.forall_mem_cons.mp has).2 pends_fresh
  | closing n mid dead a as hmid hop ih =>
    have hdead := (opens_iff.mp hop).2
    subst hdead
    rw [cut_close hmid hop]
    refine List.forall_mem_cons.mpr ⟨⟨mid.reverse, by simpa using hmid, rfl, hpends mid rfl⟩, ?_⟩
    exact ih (List.forall_mem_cons.mp has).2 pends_none
  | copying n dead a as hop ih =>
    rw [cut_copy hop]
    exact ih (List.forall_mem_cons.mp has).2 pends_none
  | keeping n mid dead a as hop ih =>
    rw [List.forall_mem_cons] at has
    rw [cut_keep hop]
    exact ih has.2 (hpends.keep has.1 hop)

theorem newHoles_held_cons {mid : List Atom} {a : Atom} (h : newHoles m (held d (some mid)) = [])
    (ha : a.isNew m = false) : newHoles m (held d (some (a :: mid))) = [] := by
  have hgrow : held d (some (a :: mid)) = held d (some mid) ++ [a] := by simp [held]
  rw [hgrow, newHoles_append, h, newHoles_cons_old ha]
  rfl

/-- The new holes are numbered from left to right. -/
theorem newHoles_cut {n : Nat} {pending : Option (List Atom)} {dead : Bool} {as : List Atom}
    (hn : m ≤ n) (has : ∀ a ∈ as, a.isNew m = false) (hheld : newHoles m (held d pending) = []) :
    newHoles m (cut d n pending dead as).1 = List.range' n (cut d n pending dead as).2.length := by
  induction n, pending, dead, as using cut_induction d with
  | nil n pending dead => rw [cut_nil, hheld]; rfl
  | opening n dead a as hop ih =>
    rw [cut_open hop]
    exact ih hn (List.forall_mem_cons.mp has).2 rfl
  | reopening n dead a as hop ih =>
    rw [cut_reopen hop]
    exact ih hn (List.forall_mem_cons.mp has).2 rfl
  | closing n mid dead a as hmid hop ih =>
    rw [cut_close hmid hop, newHoles_cons_new hn, List.length_cons, List.range'_succ,
      ih (Nat.le_succ_of_le hn) (List.forall_mem_cons.mp has).2 rfl]
  | copying n dead a as hop ih =>
    rw [List.forall_mem_cons] at has
    rw [cut_copy hop, newHoles_cons_old has.1]
    exact ih hn has.2 rfl
  | keeping n mid dead a as hop ih =>
    rw [List.forall_mem_cons] at has
    rw [cut_keep hop]
    exact ih hn has.2 (newHoles_held_cons hheld has.1)

/-! ### Cutting and filling -/

/-- Old atoms are not touched by filling new holes. -/
theorem plug_old {f : Nat → List Atom} (hf : ∀ k < m, f k = [.hole k]) {as : List Atom}
    (has : ∀ a ∈ as, a.isNew m = false) : plug f as = as := by
  induction as with
  | nil => rfl
  | cons a as ih =>
    rw [List.forall_mem_cons] at has
    cases a with
    | byte b => rw [plug_byte, ih has.2]
    | hole k =>
      have hk : k < m := by simpa [Atom.isNew] using has.1
      rw [plug_hole, hf k hk, ih has.2]
      rfl

theorem plug_of_holes_eq_nil {f : Nat → List Atom} {as : List Atom} (h : holes as = []) :
    plug f as = as :=
  plug_old (m := 0) (by simp) (newHoles_eq_nil_iff.mp (by rw [newHoles_zero, h]))

theorem plug_cons_old {f : Nat → List Atom} (hf : ∀ k < m, f k = [.hole k]) {a : Atom}
    (ha : a.isNew m = false) (as : List Atom) : plug f (a :: as) = a :: plug f as := by
  have hone : plug f [a] = [a] := plug_old hf (by simpa using ha)
  rw [show a :: as = [a] ++ as from rfl, plug_append, hone]
  rfl

/-- Filling the new holes with what was cut out gives the atoms back. -/
theorem plug_cut {f : Nat → List Atom} (hf : ∀ k < m, f k = [.hole k]) {n : Nat}
    {pending : Option (List Atom)} {dead : Bool} {as : List Atom}
    (has : ∀ a ∈ as, a.isNew m = false) (hheld : newHoles m (held d pending) = [])
    (hspans : (List.range' n (cut d n pending dead as).2.length).map f =
      (cut d n pending dead as).2) :
    plug f (cut d n pending dead as).1 = held d pending ++ as := by
  induction n, pending, dead, as using cut_induction d with
  | nil n pending dead =>
    rw [cut_nil, plug_old hf (newHoles_eq_nil_iff.mp hheld), List.append_nil]
  | opening n dead a as hop ih =>
    rw [cut_open hop] at hspans ⊢
    rw [ih (List.forall_mem_cons.mp has).2 rfl hspans, (opens_iff.mp hop).1]
    rfl
  | reopening n dead a as hop ih =>
    rw [cut_reopen hop] at hspans ⊢
    rw [plug_byte, ih (List.forall_mem_cons.mp has).2 rfl hspans, (opens_iff.mp hop).1]
    rfl
  | closing n mid dead a as hmid hop ih =>
    rw [cut_close hmid hop] at hspans ⊢
    -- The first new number is that of the span which is closed here.
    rw [List.length_cons, List.range'_succ, List.map_cons, List.cons_eq_cons] at hspans
    rw [plug_hole, hspans.1, ih (List.forall_mem_cons.mp has).2 rfl hspans.2,
      (opens_iff.mp hop).1]
    simp [held]
  | copying n dead a as hop ih =>
    rw [List.forall_mem_cons] at has
    rw [cut_copy hop] at hspans ⊢
    rw [plug_cons_old hf has.1, ih has.2 rfl hspans]
    rfl
  | keeping n mid dead a as hop ih =>
    rw [List.forall_mem_cons] at has
    rw [cut_keep hop] at hspans ⊢
    rw [ih has.2 (newHoles_held_cons hheld has.1) hspans]
    simp [held]

/-- The inside of a span is kept back as a whole. -/
theorem cut_mid {n : Nat} {mid mid' : List Atom} {dead dead' : Bool}
    (h : d.walk m (.busy, dead) mid' = some (.busy, dead')) (rest : List Atom) :
    cut d n (some mid) dead (mid' ++ rest) = cut d n (some (mid'.reverse ++ mid)) dead' rest := by
  induction mid' generalizing mid dead with
  | nil =>
    obtain ⟨-, rfl⟩ := Prod.mk.inj (Option.some.inj h)
    rfl
  | cons a mid' ih =>
    rw [walk] at h
    cases hstep : d.step m (.busy, dead) a with
    | none =>
      rw [hstep] at h
      cases h
    | some τ =>
      obtain ⟨-, hop, rfl⟩ := step_busy hstep
      rw [hstep] at h
      rw [List.cons_append, cut_keep hop, ih h, List.reverse_cons, List.append_assoc]
      rfl

/-- A span behind whatever else, with no delimiter waiting or a fresh one, is cut out. -/
theorem cut_span {n : Nat} {pending : Option (List Atom)} {body : List Atom}
    (hbody : d.IsSpan m body) (hpending : Mode.of pending ≠ .busy) (rest : List Atom) :
    cut d n pending false (body ++ rest) =
      (held d pending ++ .hole n :: (cut d (n + 1) none false rest).1,
        body :: (cut d (n + 1) none false rest).2) := by
  obtain ⟨mid, hne, rfl, hmid⟩ := hbody
  have hop : d.opens false (.byte d.byte) = true := by simp [opens]
  have hinside : cut d n (some []) false (mid ++ .byte d.byte :: rest) =
      (.hole n :: (cut d (n + 1) none false rest).1,
        (.byte d.byte :: (mid ++ [.byte d.byte])) :: (cut d (n + 1) none false rest).2) := by
    rw [cut_mid hmid, cut_close (by simpa using hne) hop]
    simp
  rw [List.cons_append, List.append_assoc, List.singleton_append]
  match pending with
  | none =>
    rw [cut_open hop, hinside]
    rfl
  | some [] =>
    rw [cut_reopen hop, hinside]
    rfl
  | some (x :: mid) => exact absurd rfl hpending

/-- **An accepted text is cut at its new holes.** -/
theorem cut_plug {f : Nat → List Atom} (hf : ∀ k < m, f k = [.hole k]) {as : List Atom} (n : Nat)
    (pending : Option (List Atom)) (dead : Bool)
    (hholes : newHoles m as = List.range' n (newHoles m as).length)
    (hspans : ∀ k ∈ newHoles m as, d.IsSpan m (f k))
    (hwalk : (d.walk m (Mode.of pending, dead) as).isSome = true) :
    cut d n pending dead (plug f as) = (held d pending ++ as, (newHoles m as).map f) := by
  induction as generalizing n pending dead with
  | nil => rw [plug_nil, cut_nil, List.append_nil]; rfl
  | cons a as ih =>
    rw [walk] at hwalk
    cases hnew : a.isNew m with
    | true =>
      cases a with
      | byte b => cases hnew
      | hole k =>
        have hk : m ≤ k := by simpa [Atom.isNew] using hnew
        rw [newHoles_cons_new hk] at hholes hspans ⊢
        rw [List.length_cons, List.range'_succ, List.cons_eq_cons] at hholes
        obtain ⟨rfl, hholes⟩ := hholes
        rw [List.forall_mem_cons] at hspans
        rw [step, if_pos hnew] at hwalk
        -- The automaton lets a new hole pass only where the span in it would be found.
        by_cases hstop : Mode.of pending = .busy ∨ dead = true
        · rw [if_pos hstop] at hwalk
          cases hwalk
        · rw [if_neg hstop] at hwalk
          rw [not_or, Bool.not_eq_true] at hstop
          obtain ⟨hmode, rfl⟩ := hstop
          rw [plug_hole, cut_span hspans.1 hmode, ih _ none false hholes hspans.2 hwalk]
          rfl
    | false =>
      rw [newHoles_cons_old hnew] at hholes hspans ⊢
      rw [plug_cons_old hf hnew]
      cases hop : d.opens dead a with
      | false =>
        rw [step_pass hnew hop] at hwalk
        cases pending with
        | none =>
          rw [cut_copy hop, ih _ none _ hholes hspans hwalk]
          rfl
        | some mid =>
          have hmode : (Mode.of (some mid)).pass = Mode.of (some (a :: mid)) := by
            cases mid <;> rfl
          rw [hmode] at hwalk
          rw [cut_keep hop, ih _ _ _ hholes hspans hwalk]
          simp [held]
      | true =>
        obtain ⟨rfl, rfl⟩ := opens_iff.mp hop
        match pending with
        | none =>
          rw [step_open hop (by decide)] at hwalk
          rw [cut_open hop, ih _ (some []) false hholes hspans hwalk]
          rfl
        | some [] =>
          rw [step_open hop (by decide)] at hwalk
          rw [cut_reopen hop, ih _ (some []) false hholes hspans hwalk]
          rfl
        | some (x :: mid) =>
          -- This delimiter would close a span that is not in a hole.
          cases hstep : d.step m (.busy, false) (.byte d.byte) with
          | none =>
            rw [show Mode.of (some (x :: mid)) = .busy from rfl, hstep] at hwalk
            cases hwalk
          | some τ =>
            rw [(step_busy hstep).2.1] at hop
            cases hop

/-! ### Blanks next to stars -/

theorem step_ignores {b : UInt8} (hb : d.Ignores b) (σ : Mode × Bool) :
    d.step m σ (.byte b) = some (σ.1.pass, false) := by
  rw [step_pass rfl (hb.opens σ.2), hb.escapes]

/-- **The automaton does not see blanks that come and go next to stars.** One ignored byte brings it
to a state that a second one does not change. -/
theorem walk_respaced {as bs : List Atom} (h : Respaced as bs) (σ : Mode × Bool) :
    d.walk m σ as = d.walk m σ bs := by
  refine value_respaced (d.walk m σ) (fun u v b hb => ?_) (fun u v b hb => ?_) h
  · rw [walk_append, walk_append]
    -- Both runs are in the same state `τ` behind `u`.
    refine congrArg _ (funext fun τ => ?_)
    rw [walk, walk, step_ignores d.ignores_star]
    show _ = d.walk m (τ.1.pass, false) (.byte b :: v)
    rw [walk, step_ignores (d.ignores_of_isBlank hb), Mode.pass_pass]
  · rw [walk_append, walk_append]
    refine congrArg _ (funext fun τ => ?_)
    rw [walk, walk, step_ignores d.ignores_star, step_ignores (d.ignores_of_isBlank hb)]
    show _ = d.walk m (τ.1.pass, false) (.byte Bytes.star :: v)
    rw [walk, step_ignores d.ignores_star, Mode.pass_pass]

theorem holes_respaced {as bs : List Atom} (h : Respaced as bs) : holes as = holes bs :=
  value_respaced holes (fun u v b _ => by simp) (fun u v b _ => by simp) h

end

end EmphasisSpacing
