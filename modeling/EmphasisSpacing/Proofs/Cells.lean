import Mathlib.Data.List.Chain
import EmphasisSpacing.Emphasis.Hint
import EmphasisSpacing.Proofs.Expand

/-!
# Protected lines, cell by cell

Hints are found by a walk over the characters of a protected line that keeps count of bytes and
characters of the line as written, measures tokens by their regions, and joins stars into runs. All
that is easier to say of *cells*: a character, a whole run of stars, or the hole of a region.

* The outline of every line that is scanned consists of cells (`exists_cells`).
* A cell lies where the bytes end that the cells in front of it stand for (`placesFrom_cells`).
* The marks of a line are its runs of stars, each with the faces of the cells next to it
  (`Celled.marks_eq`).
-/

namespace EmphasisSpacing

open LineSymbol Atom Hint

/-- A piece of a protected line. -/
inductive Cell where
  | char (c : Char)
  /-- A whole run of stars. -/
  | stars (n : Nat)
  /-- The place of a region. -/
  | hole (k : Nat)
  deriving DecidableEq, Repr

namespace Cell

instance : LineSymbol Cell where
  isStar
    | .stars _ => true
    | _ => false
  isBlank
    | .char c => Scan.isBlank c
    | _ => false
  isBlank_of_isStar a h := by
    cases a with
    | stars n => rfl
    | char c => cases h
    | hole k => cases h

/-- The atoms of a cell. -/
def atoms : Cell → List Atom
  | .char c => plain (Utf8.encodeChar c)
  | .stars n => List.replicate n (.byte Bytes.star)
  | .hole k => [.hole k]

/-- The characters of a cell in the protected text, where the hole with number 0 is written with the
number `base`. -/
def chars (base : Nat) : Cell → List Char
  | .char c => [c]
  | .stars n => List.replicate n '*'
  | .hole k => (token (base + k)).map fun b => Char.ofNat b.toNat

/-- The bytes that a cell stands for in the line, where `text` gives those of the holes. -/
def bytes (text : Nat → Bytes) : Cell → Bytes
  | .char c => Utf8.encodeChar c
  | .stars n => List.replicate n Bytes.star
  | .hole k => text k

/-- The character that a cell shows to its neighbours. -/
def face : Cell → Char
  | .char c => c
  | .stars _ => '*'
  | .hole _ => '\x00'

/-- Whether a cell is what it seems to be. -/
def Proper : Cell → Prop
  | .char c => c ≠ '*' ∧ c.toNat ≠ 0
  | .stars n => 0 < n
  | .hole _ => True

end Cell

/-- Cells that are what they seem to be, with no run cut in two. -/
structure Tidy (cells : List Cell) : Prop where
  proper : ∀ c ∈ cells, c.Proper
  apart : cells.IsChain fun a b => isStar a = true → isStar b = false

namespace Tidy

variable {cells : List Cell}

theorem nil : Tidy [] := ⟨by simp, .nil⟩

theorem cons_of_starsAhead {c : Cell} (h : Tidy cells) (hc : c.Proper)
    (hstars : isStar c = true → starsAhead cells = false) : Tidy (c :: cells) := by
  refine ⟨List.forall_mem_cons.mpr ⟨hc, h.proper⟩, ?_⟩
  cases cells with
  | nil => exact .singleton c
  | cons d cells => exact h.apart.cons_cons hstars

theorem tail {c : Cell} (h : Tidy (c :: cells)) : Tidy cells :=
  ⟨fun d hd => h.proper d (List.mem_cons_of_mem _ hd), h.apart.of_cons⟩

/-- No stars stand next to a run. -/
theorem starless {A B : List Cell} {n : Nat} (h : Tidy (A ++ .stars n :: B)) :
    starsBehind A = false ∧ starsAhead B = false := by
  have hchain := h.apart
  rw [List.isChain_append] at hchain
  obtain ⟨-, hB, hA⟩ := hchain
  constructor
  · cases hlast : A.getLast? with
    | none => rw [starsBehind, hlast]; rfl
    | some a =>
      rw [starsBehind, hlast, Option.any_some, ← Bool.not_eq_true]
      intro ha
      have hstar := hA a hlast (.stars n) rfl ha
      cases hstar
  · cases B with
    | nil => rfl
    | cons b B =>
      rw [List.isChain_cons_cons] at hB
      exact hB.1 rfl

end Tidy

/-! ### Every outline consists of cells -/

/-- A character in front of tidy cells: a star joins a run that starts them. -/
theorem Tidy.exists_cons {cells : List Cell} (h : Tidy cells) {c : Char} (hc : c.toNat ≠ 0) :
    ∃ cells', Tidy cells' ∧
      cells'.flatMap Cell.atoms = plain (Utf8.encodeChar c) ++ cells.flatMap Cell.atoms := by
  by_cases hstar : c = '*'
  · subst hstar
    cases cells with
    | nil => exact ⟨[.stars 1], nil.cons_of_starsAhead Nat.one_pos fun _ => rfl, rfl⟩
    | cons d cells =>
      cases d with
      | stars n =>
        have hsides := Tidy.starless (A := []) h
        exact ⟨.stars (n + 1) :: cells,
          h.tail.cons_of_starsAhead (Nat.succ_pos n) fun _ => hsides.2, rfl⟩
      | char d => exact ⟨.stars 1 :: .char d :: cells, h.cons_of_starsAhead Nat.one_pos
          fun _ => rfl, rfl⟩
      | hole k => exact ⟨.stars 1 :: .hole k :: cells, h.cons_of_starsAhead Nat.one_pos
          fun _ => rfl, rfl⟩
  · exact ⟨.char c :: cells, h.cons_of_starsAhead ⟨hstar, hc⟩ (by simp [isStar]), rfl⟩

/-- Text without NULs in front of tidy cells. -/
theorem Tidy.exists_append {cells : List Cell} (h : Tidy cells) {s : Bytes}
    (hvalid : Utf8.isValid s = true) (hmark : tokenMark ∉ s) :
    ∃ cells', Tidy cells' ∧ cells'.flatMap Cell.atoms = plain s ++ cells.flatMap Cell.atoms := by
  rw [← Utf8.encode_decode hvalid] at hmark ⊢
  generalize Utf8.decode s = cs at hmark ⊢
  induction cs with
  | nil => exact ⟨cells, h, rfl⟩
  | cons c cs ih =>
    rw [Utf8.encode_cons, List.mem_append, not_or] at hmark
    obtain ⟨cells', htidy, hatoms⟩ := ih hmark.2
    have hc : c.toNat ≠ 0 := by
      intro hzero
      refine hmark.1 ?_
      rw [Utf8.encodeChar_ascii (by omega), hzero]
      exact List.mem_singleton.mpr rfl
    obtain ⟨cells'', htidy', hatoms'⟩ := htidy.exists_cons hc
    exact ⟨cells'', htidy', by rw [hatoms', hatoms, Utf8.encode_cons, plain_append,
      List.append_assoc]⟩

/-- **Well-formed text with tokens consists of cells.** Induction on the length, from one hole to
the next: the NULs around a number are seams, so the text in front of a hole is well formed. -/
theorem exists_cells (base : Nat) {as : List Atom} (hmark : .byte tokenMark ∉ as)
    (hvalid : Utf8.isValid (render base as) = true) :
    ∃ cells, Tidy cells ∧ cells.flatMap Cell.atoms = as := by
  induction hlen : as.length using Nat.strong_induction_on generalizing as with
  | _ len ih =>
    have hseam : tokenMark < 0x80 := by decide
    rcases exists_first_hole as with ⟨s, rfl⟩ | ⟨s, k, vs, rfl⟩
    · rw [render_plain] at hvalid
      obtain ⟨cells, htidy, hatoms⟩ := Tidy.nil.exists_append hvalid
        fun hs => hmark (List.mem_map_of_mem hs)
      exact ⟨cells, htidy, by simpa using hatoms⟩
    · rw [render_append, render_plain, render_cons, bytes_hole, token, List.cons_append,
        List.cons_append, List.append_assoc, Utf8.isValid_seam hseam, List.singleton_append,
        Utf8.isValid_seam hseam, Bool.and_eq_true, Bool.and_eq_true] at hvalid
      simp only [List.mem_append, List.mem_cons, not_or] at hmark
      obtain ⟨cells, htidy, hatoms⟩ := ih vs.length (by simp [← hlen]; omega) hmark.2.2
        hvalid.2.2 rfl
      have hhole : Tidy (.hole k :: cells) := htidy.cons_of_starsAhead trivial (by simp [isStar])
      obtain ⟨cells', htidy', hatoms'⟩ := hhole.exists_append hvalid.1
        fun hs => hmark.1 (List.mem_map_of_mem hs)
      exact ⟨cells', htidy', by rw [hatoms', List.flatMap_cons, hatoms]; rfl⟩

/-! ### Cells and their bytes -/

section

variable {text : Nat → Bytes} {cells : List Cell}

theorem Cell.chars_hole (base k : Nat) : chars base (.hole k) = '\x00' ::
    ((Integer.ofNat (base + k)).map (fun b => Char.ofNat b.toNat) ++ ['\x00']) := by
  simp [chars, token, tokenMark]

theorem Cell.star_notMem_chars_hole (base k : Nat) : '*' ∉ chars base (.hole k) := by
  intro hmem
  obtain ⟨b, hb, hchar⟩ := List.mem_map.mp hmem
  have hlt := UInt8.lt_iff_toNat_lt.mp (lt_of_mem_token hb)
  have htoNat : (Char.ofNat b.toNat).toNat = b.toNat := Utf8.toNat_ofNat_of_ranges (by
    rw [show (0x80 : UInt8).toNat = 0x80 from rfl] at hlt
    omega)
  rw [hchar] at htoNat
  rw [← UInt8.toNat_inj.mp (show Bytes.star.toNat = b.toNat from htoNat)] at hb
  exact notMem_token outsideTokens_star _ hb

theorem Cell.face_ne_star {c : Cell} (hc : c.Proper) (hstar : isStar c = false) :
    c.face ≠ '*' := by
  cases c with
  | char c => exact hc.1
  | stars n => cases hstar
  | hole k => exact show '\x00' ≠ '*' by decide

theorem Cell.encode_chars (base : Nat) (c : Cell) :
    Utf8.encode (c.chars base) = render base c.atoms := by
  cases c with
  | char c => simp [chars, atoms, Utf8.encode]
  | stars n =>
    induction n with
    | zero => rfl
    | succ n ih =>
      rw [chars, atoms, List.replicate_succ, List.replicate_succ, Utf8.encode_cons, render_cons]
      exact congrArg _ ih
  | hole k =>
    rw [chars, Scan.encode_map_ascii fun b hb => lt_of_mem_token hb, atoms, render_cons, render_nil,
      List.append_nil, bytes_hole]

/-- The characters of the protected text are those of the cells. -/
theorem decode_render_atoms (base : Nat) (cells : List Cell) :
    Utf8.decode (render base (cells.flatMap Cell.atoms)) = cells.flatMap (Cell.chars base) := by
  have hencode : Utf8.encode (cells.flatMap (Cell.chars base)) =
      render base (cells.flatMap Cell.atoms) := by
    induction cells with
    | nil => rfl
    | cons c cells ih =>
      rw [List.flatMap_cons, List.flatMap_cons, Utf8.encode_append, render_append, ih,
        Cell.encode_chars]
  rw [← hencode, Utf8.decode_encode]

/-- The text that a hole of an outline stands for. -/
def Outline.textOf (o : Outline) (k : Nat) : Bytes := o.fill [.hole k]

theorem Outline.fill_cells (o : Outline) (cells : List Cell) :
    o.fill (cells.flatMap Cell.atoms) = cells.flatMap (Cell.bytes o.textOf) := by
  induction cells with
  | nil => rfl
  | cons c cells ih =>
    rw [List.flatMap_cons, List.flatMap_cons, fill_append, ih]
    congr 1
    cases c with
    | char c => exact o.fill_plain _
    | stars n =>
      rw [Cell.atoms, show List.replicate n (Atom.byte Bytes.star) =
        plain (List.replicate n Bytes.star) by simp [plain], fill_plain]
      rfl
    | hole k => rfl

end

/-- What is needed of the text of a region: it is well formed and has a delimiter at both ends. -/
structure RegionText (s : Bytes) : Prop where
  valid : Utf8.isValid s = true
  sides : ∃ (d : Delimiter) (t : Bytes), s = d.byte :: (t ++ [d.byte])

theorem Outline.regionText (settings : Settings) {line : Bytes}
    (hvalid : Utf8.isValid line = true) {k : Nat}
    (hk : k ∈ holes (ofLine settings line).atoms) :
    RegionText ((ofLine settings line).textOf k) := by
  obtain ⟨d, s, hs⟩ := exists_fill_hole settings line hk
  refine ⟨?_, d, s, hs⟩
  have hd : d.byte < 0x80 := by cases d <;> decide
  obtain ⟨us, vs, hsplit⟩ := List.append_of_mem (mem_holes_iff.mp hk)
  rw [← fill_atoms settings line, hsplit, fill_append, fill_cons, hs, List.cons_append,
    Utf8.isValid_seam hd, List.append_assoc, List.singleton_append, Utf8.isValid_seam hd,
    Bool.and_eq_true, Bool.and_eq_true] at hvalid
  rw [textOf, hs, Utf8.isValid_cons hd, Utf8.isValid_seam hd, hvalid.2.1]
  rfl

/-! ### Places -/

namespace Hint

namespace Place

theorem afterText_append (p : Place) {s : Bytes} (hs : Utf8.isValid s = true) (t : Bytes) :
    p.afterText (s ++ t) = (p.afterText s).afterText t := by
  rw [afterText, afterText, afterText, Utf8.decode_append hs, List.length_append,
    List.length_append, Nat.add_assoc, Nat.add_assoc]

theorem afterChar_eq (p : Place) (c : Char) : p.afterChar c = p.afterText (Utf8.encodeChar c) := by
  have hdecode := Utf8.decode_encode [c]
  rw [Utf8.encode_cons, Utf8.encode_nil, List.append_nil] at hdecode
  rw [afterChar, afterText, hdecode, List.length_singleton]

/-- The place behind some more cells. -/
def afterCells (text : Nat → Bytes) (p : Place) (cells : List Cell) : Place :=
  cells.foldl (fun p c => p.afterText (c.bytes text)) p

section

variable (text : Nat → Bytes) (p : Place)

@[simp]
theorem afterCells_nil : p.afterCells text [] = p := rfl

@[simp]
theorem afterCells_cons (c : Cell) (cells : List Cell) :
    p.afterCells text (c :: cells) = (p.afterText (c.bytes text)).afterCells text cells := rfl

@[simp]
theorem afterCells_append (A B : List Cell) :
    p.afterCells text (A ++ B) = (p.afterCells text A).afterCells text B :=
  List.foldl_append

end

end Place

/-- The stars of a run of length `n` with their places. -/
def starsAt : Place → (n : Nat) → List (Char × Place)
  | _, 0 => []
  | p, n + 1 => ('*', p) :: starsAt (p.afterChar '*') n

/-- The characters of a cell with their places. -/
def placed (base : Nat) (p : Place) : Cell → List (Char × Place)
  | .char c => [(c, p)]
  | .stars n => starsAt p n
  | .hole k => (Cell.chars base (.hole k)).map (·, p)

theorem star_notMem_placed_hole (base k : Nat) (p : Place) :
    ∀ x ∈ placed base p (.hole k), x.1 ≠ '*' := by
  intro x hx hstar
  obtain ⟨c, hc, rfl⟩ := List.mem_map.mp hx
  obtain rfl : c = '*' := hstar
  exact Cell.star_notMem_chars_hole base k hc

section

variable (text : Nat → Bytes) (regions : List Bytes)

/-- Up to the NUL that ends a token, its digits add up to its number. -/
theorem placesFrom_digits {ds : Bytes} (p : Place) (cs : List Char) {n v : Nat}
    (hv : Integer.natOfDigits? n ds = some v) :
    placesFrom regions (some n) p (ds.map (fun b => Char.ofNat b.toNat) ++ '\x00' :: cs) =
      ((ds.map (fun b => Char.ofNat b.toNat) ++ ['\x00']).map (·, p) ++
          (placesFrom regions none (p.afterText ((Protected.expand? regions v).getD [])) cs).1,
        (placesFrom regions none (p.afterText ((Protected.expand? regions v).getD [])) cs).2) := by
  induction ds generalizing n with
  | nil =>
    obtain rfl : n = v := Option.some.inj hv
    rfl
  | cons b ds ih =>
    rw [Integer.natOfDigits?] at hv
    split_ifs at hv with hb
    have hlt : b.toNat < 0x80 := UInt8.lt_iff_toNat_lt.mp (Utf8.lt_of_isDigit hb)
    have htoNat : (Char.ofNat b.toNat).toNat = b.toNat := Utf8.toNat_ofNat_of_ranges (by omega)
    have hnul : ((Char.ofNat b.toNat).toNat == 0) = false := by
      rw [htoNat, beq_eq_false_iff_ne]
      intro hzero
      exact tokenMark_ne_of_isDigit hb (UInt8.toNat_inj.mp hzero)
    have hpush : pushDigit n (Char.ofNat b.toNat) = n * 10 + (b.toNat - 0x30) := by
      rw [pushDigit, htoNat]
      rfl
    rw [List.map_cons, List.cons_append, placesFrom, hnul, hpush]
    simp only [Bool.false_eq_true, if_false]
    rw [ih hv]
    rfl

theorem placesFrom_stars (p : Place) (n : Nat) (cs : List Char) :
    placesFrom regions none p (List.replicate n '*' ++ cs) =
      (starsAt p n ++
          (placesFrom regions none (p.afterText (List.replicate n Bytes.star)) cs).1,
        (placesFrom regions none (p.afterText (List.replicate n Bytes.star)) cs).2) := by
  induction n generalizing p with
  | zero => rfl
  | succ n ih =>
    have hstep : p.afterText (List.replicate (n + 1) Bytes.star) =
        (p.afterChar '*').afterText (List.replicate n Bytes.star) := by
      rw [Place.afterChar_eq]
      exact p.afterText_append (s := [Bytes.star]) (by decide) _
    rw [List.replicate_succ, List.cons_append, placesFrom, hstep]
    simp only [show ('*'.toNat == 0) = false from rfl, Bool.false_eq_true, if_false]
    rw [ih]
    rfl

/-- **The walk over one cell** moves on by the bytes that the cell stands for. -/
theorem placesFrom_cell (base : Nat) {c : Cell} (hc : c.Proper)
    (hexpand : ∀ k, c = .hole k → Protected.expand? regions (base + k) = some (text k))
    (p : Place) (cs : List Char) :
    placesFrom regions none p (c.chars base ++ cs) =
      (placed base p c ++ (placesFrom regions none (p.afterText (c.bytes text)) cs).1,
        (placesFrom regions none (p.afterText (c.bytes text)) cs).2) := by
  cases c with
  | char c =>
    have hnul : (c.toNat == 0) = false := beq_eq_false_iff_ne.mpr hc.2
    rw [Cell.chars, List.singleton_append, placesFrom, hnul, Cell.bytes, ← Place.afterChar_eq]
    rfl
  | stars n => exact placesFrom_stars regions p n cs
  | hole k =>
    have hread : Integer.natOfDigits? 0 (Integer.ofNat (base + k)) = some (base + k) :=
      Integer.natOfDigits?_natDigits (base + k + 1) (base + k) [] (Nat.lt_succ_self _)
    have hdigits := placesFrom_digits regions p cs hread
    -- The digits give back the number, and with it the region whose text is added.
    rw [placed, Cell.chars_hole, List.cons_append, List.append_assoc, List.singleton_append,
      placesFrom]
    simp only [show ('\x00'.toNat == 0) = true from rfl, if_true]
    rw [hdigits, hexpand k rfl]
    rfl

/-- The walk over cells ends where the text ends that they stand for, and starts with the first
cell. -/
theorem placesFrom_cells (base : Nat) {cells : List Cell} (hproper : ∀ c ∈ cells, c.Proper)
    (hexpand : ∀ k, .hole k ∈ cells → Protected.expand? regions (base + k) = some (text k))
    (p : Place) :
    (placesFrom regions none p (cells.flatMap (Cell.chars base))).1.head? =
        cells.head?.map (fun c => (c.face, p)) ∧
      (placesFrom regions none p (cells.flatMap (Cell.chars base))).2 =
        p.afterCells text cells := by
  induction cells generalizing p with
  | nil => exact ⟨rfl, rfl⟩
  | cons c cells ih =>
    rw [List.forall_mem_cons] at hproper
    have hcell := placesFrom_cell text regions base hproper.1
      (fun k hk => hexpand k (by simp [hk])) p (cells.flatMap (Cell.chars base))
    rw [List.flatMap_cons, hcell]
    refine ⟨?_, (ih hproper.2 (fun k hk => hexpand k (by simp [hk])) _).2⟩
    cases c with
    | char c => rfl
    | stars n =>
      cases n with
      | zero => exact absurd hproper.1 (Nat.lt_irrefl 0)
      | succ n => rfl
    | hole k => rfl

/-! ### Marks -/

variable {stop : Place}

theorem marksFrom_cons_of_ne {c : Char} (hc : c ≠ '*') (before : Option Char) (p : Place)
    (rest : List (Char × Place)) :
    marksFrom stop before ((c, p) :: rest) = marksFrom stop (some c) rest := by
  rw [marksFrom.eq_def]
  exact if_neg (by simpa using hc)

/-- Characters that are no stars are passed over. -/
theorem marksFrom_append {xs : List (Char × Place)} (hxs : ∀ x ∈ xs, x.1 ≠ '*')
    (before : Option Char) (rest : List (Char × Place)) :
    marksFrom stop before (xs ++ rest) =
      marksFrom stop ((xs.getLast?.map Prod.fst).or before) rest := by
  induction xs generalizing before with
  | nil => rfl
  | cons x xs ih =>
    rw [List.forall_mem_cons] at hxs
    obtain ⟨c, p⟩ := x
    rw [List.cons_append, marksFrom_cons_of_ne hxs.1, ih hxs.2]
    congr 1
    cases hlast : xs.getLast? with
    | none => simp [List.getLast?_cons, hlast]
    | some y => simp [List.getLast?_cons, hlast]

/-- A run of stars is one mark. -/
theorem marksFrom_stars {rest : List (Char × Place)} (hrest : ∀ x ∈ rest.head?, x.1 ≠ '*')
    (before : Option Char) (p : Place) (n : Nat) :
    marksFrom stop before (starsAt p (n + 1) ++ rest) =
      ⟨n + 1, before, rest.head?.map Prod.fst, p, (rest.head?.map Prod.snd).getD stop⟩ ::
        marksFrom stop (some '*') rest := by
  induction n generalizing before p with
  | zero =>
    cases rest with
    | nil => rfl
    | cons x rest =>
      have hx : (x.1 == '*') = false := beq_eq_false_iff_ne.mpr (hrest x rfl)
      rw [starsAt, starsAt, List.singleton_append, marksFrom.eq_def]
      simp [hx]
  | succ n ih =>
    have hlater : marksFrom stop (some '*')
        (('*', p.afterChar '*') :: (starsAt ((p.afterChar '*').afterChar '*') n ++ rest)) = _ :=
      ih (some '*') (p.afterChar '*')
    rw [starsAt, starsAt, List.cons_append, List.cons_append, marksFrom.eq_def]
    dsimp only
    rw [hlater]
    rfl

/-- The marks of cells, where `before` is the character in front of them and `p` their place. -/
def marksOf (text : Nat → Bytes) : (before : Option Char) → (p : Place) → List Cell → List Mark
  | _, _, [] => []
  | _, p, .char c :: cells => marksOf text (some c) (p.afterText ((Cell.char c).bytes text)) cells
  | before, p, .stars n :: cells =>
    ⟨n, before, cells.head?.map Cell.face, p, p.afterText ((Cell.stars n).bytes text)⟩ ::
      marksOf text (some '*') (p.afterText ((Cell.stars n).bytes text)) cells
  | _, p, .hole k :: cells =>
    marksOf text (some '\x00') (p.afterText ((Cell.hole k).bytes text)) cells

/-- **The marks of a walk over cells are the runs among the cells.** -/
theorem marksFrom_cells (base : Nat) {cells : List Cell} (htidy : Tidy cells)
    (hexpand : ∀ k, .hole k ∈ cells → Protected.expand? regions (base + k) = some (text k))
    (before : Option Char) (p : Place) :
    marksFrom (placesFrom regions none p (cells.flatMap (Cell.chars base))).2 before
        (placesFrom regions none p (cells.flatMap (Cell.chars base))).1 =
      marksOf text before p cells := by
  induction cells generalizing before p with
  | nil => rfl
  | cons c cells ih =>
    have htail := htidy.tail
    have hexpand' : ∀ k, .hole k ∈ cells →
        Protected.expand? regions (base + k) = some (text k) :=
      fun k hk => hexpand k (List.mem_cons_of_mem _ hk)
    have hcell := placesFrom_cell text regions base
      (htidy.proper c (List.mem_cons_self ..)) (fun k hk => hexpand k (by simp [hk])) p
      (cells.flatMap (Cell.chars base))
    rw [List.flatMap_cons, hcell]
    cases c with
    | char c =>
      have hc : c ≠ '*' := (htidy.proper (.char c) (List.mem_cons_self ..)).1
      rw [placed, marksFrom_append (by simpa using hc), marksOf]
      exact ih htail hexpand' _ _
    | hole k =>
      have hlast : (placed base p (.hole k)).getLast?.map Prod.fst = some '\x00' := by
        rw [placed, Cell.chars_hole, ← List.cons_append, List.map_append]
        exact congrArg (Option.map Prod.fst) List.getLast?_concat
      rw [marksFrom_append (star_notMem_placed_hole base k p), hlast, marksOf]
      exact ih htail hexpand' _ _
    | stars n =>
      obtain ⟨hhead, hstop⟩ := placesFrom_cells text regions base htail.proper hexpand'
        (p.afterText ((Cell.stars n).bytes text))
      cases n with
      | zero => exact absurd (htidy.proper (.stars 0) (List.mem_cons_self ..)) (Nat.lt_irrefl 0)
      | succ n =>
        have hrest : ∀ x ∈ (placesFrom regions none
            (p.afterText ((Cell.stars (n + 1)).bytes text))
              (cells.flatMap (Cell.chars base))).1.head?, x.1 ≠ '*' := by
          rw [hhead]
          intro x hx
          obtain ⟨c, hc, rfl⟩ := Option.map_eq_some_iff.mp hx
          have hstar := (Tidy.starless (A := []) htidy).2
          rw [starsAhead, hc] at hstar
          exact Cell.face_ne_star (htail.proper c (List.mem_of_mem_head? hc)) hstar
        rw [placed, marksFrom_stars hrest, marksOf, ih htail hexpand', hhead]
        -- The mark stops where the next cell starts, or where the walk ends.
        cases cells with
        | nil => rw [hstop]; rfl
        | cons d cells => rfl

end

end Hint

/-! ### Lines -/

/-- The character in front of the cells of a line. -/
def frontFace (front : Bytes) : Option Char := front.getLast?.map fun b => Char.ofNat b.toNat

/-- The walk over what stands in front of an outline: it meets no stars, and at its end it is behind
the front. -/
theorem Frame.placesFrom_head {head front : Bytes} {regions : List Bytes}
    (h : Frame head front regions) (spans : List Bytes) (cs : List Char) :
    ∃ xs : List (Char × Place), (∀ x ∈ xs, x.1 ≠ '*') ∧
      xs.getLast?.map Prod.fst = frontFace front ∧
      placesFrom (regions ++ spans) none ⟨0, 0⟩ (head.map (fun b => Char.ofNat b.toNat) ++ cs) =
        (xs ++ (placesFrom (regions ++ spans) none (Place.afterText ⟨0, 0⟩ front) cs).1,
          (placesFrom (regions ++ spans) none (Place.afterText ⟨0, 0⟩ front) cs).2) := by
  cases h with
  | bare => exact ⟨[], by simp, rfl, rfl⟩
  | bullet indent b hindent hb =>
    obtain ⟨hstar, hproper, hencode⟩ : Char.ofNat b.toNat ≠ '*' ∧
        (Cell.char (Char.ofNat b.toNat)).Proper ∧ Utf8.encodeChar (Char.ofNat b.toNat) = [b] := by
      rcases Bool.or_eq_true_iff.mp hb with hb | hb <;> rw [beq_iff_eq.mp hb] <;>
        exact ⟨by decide, ⟨by decide, by decide⟩, rfl⟩
    -- The token of the bullet is the hole 0, and the blank behind it a character.
    have hhead : (token 0 ++ [b]).map (fun b => Char.ofNat b.toNat) ++ cs =
        Cell.chars 0 (.hole 0) ++ (Cell.chars 0 (.char (Char.ofNat b.toNat)) ++ cs) := by
      simp [Cell.chars]
    have hvalid : Utf8.isValid (indent ++ [Bytes.star]) = true :=
      Utf8.isValid_of_ascii fun x hx => (Frame.bullet indent b hindent hb).ascii_front x (by
        rw [show indent ++ [Bytes.star, b] = indent ++ [Bytes.star] ++ [b] by simp]
        exact List.mem_append_left _ hx)
    have hplace : (Place.afterText ⟨0, 0⟩ (indent ++ [Bytes.star])).afterText [b] =
        Place.afterText ⟨0, 0⟩ (indent ++ [Bytes.star, b]) := by
      rw [← Place.afterText_append _ hvalid]
      simp
    rw [hhead, placesFrom_cell (fun _ => indent ++ [Bytes.star]) _ 0 (c := .hole 0) trivial
      (fun k hk => by cases hk; rfl), placesFrom_cell (fun _ => indent ++ [Bytes.star]) _ 0 hproper
      (by simp), Cell.bytes, Cell.bytes, hencode, hplace]
    refine ⟨placed 0 ⟨0, 0⟩ (.hole 0) ++ [(Char.ofNat b.toNat,
      Place.afterText ⟨0, 0⟩ (indent ++ [Bytes.star]))], ?_, ?_, by rw [List.append_assoc]; rfl⟩
    · intro x hx
      rcases List.mem_append.mp hx with hx | hx
      · exact star_notMem_placed_hole 0 0 _ x hx
      · rw [List.mem_singleton.mp hx]
        exact hstar
    · rw [List.getLast?_concat, frontFace,
        show indent ++ [Bytes.star, b] = indent ++ [Bytes.star] ++ [b] by simp,
        List.getLast?_concat]
      rfl

/-- A line that is scanned, cell by cell: behind what the frame puts in front of it, the outline of
the rest consists of the cells, and its holes stand for `text`. -/
structure Celled (settings : Settings) (front rest : Bytes) (text : Nat → Bytes)
    (cells : List Cell) : Prop where
  frame : ∃ head regions, Frame head front regions
  length_eq : bulletLength (front ++ rest) = front.length - 1
  mark : tokenMark ∉ rest
  valid : Utf8.isValid rest = true
  maths : ∀ r ∈ (Outline.ofLine settings rest).maths, digitsJoin .text r = false
  tidy : Tidy cells
  atoms_eq : cells.flatMap Cell.atoms = (Outline.ofLine settings rest).atoms
  text_eq : text = (Outline.ofLine settings rest).textOf

theorem exists_celled {settings : Settings} {line : Bytes} (hscan : needsScan line = true)
    (hjoin : mathJoined settings line = false) :
    ∃ front rest text cells, line = front ++ rest ∧ Celled settings front rest text cells := by
  obtain ⟨head, front, regions, rest, hframe, rfl, hlength⟩ := exists_frame line
  obtain ⟨hmark, hvalid⟩ := hframe.scannable_rest hscan
  rw [mathJoined, hscan, Bool.true_and] at hjoin
  obtain ⟨cells, htidy, hatoms⟩ := exists_cells 0
    (fun h => hmark (Outline.mem_of_mem_atoms settings h)) (Frame.isValid_text settings 0 hvalid)
  exact ⟨front, rest, _, cells, rfl, ⟨head, regions, hframe⟩, hlength, hmark, hvalid,
    hframe.not_digitsJoin hlength hmark (List.any_eq_false.mp hjoin), htidy, hatoms, rfl⟩

/-- The marks of a line with the given front and cells. -/
def lineMarks (text : Nat → Bytes) (front : Bytes) (cells : List Cell) : List Mark :=
  marksOf text (frontFace front) (Place.afterText ⟨0, 0⟩ front) cells

namespace Celled

variable {settings : Settings} {front rest : Bytes} {text : Nat → Bytes} {cells : List Cell}
  (h : Celled settings front rest text cells)

include h

theorem mem_holes {k : Nat} (hk : .hole k ∈ cells) :
    k ∈ holes (Outline.ofLine settings rest).atoms := by
  rw [mem_holes_iff, ← h.atoms_eq]
  exact List.mem_flatMap.mpr ⟨_, hk, List.mem_singleton.mpr rfl⟩

theorem regionText {k : Nat} (hk : .hole k ∈ cells) : RegionText (text k) := by
  rw [h.text_eq]
  exact Outline.regionText settings h.valid (h.mem_holes hk)

theorem rest_eq : rest = cells.flatMap (Cell.bytes text) := by
  conv_lhs => rw [← Outline.fill_atoms settings rest, ← h.atoms_eq, Outline.fill_cells, ← h.text_eq]

/-- **The marks of a line are the runs among its cells.** -/
theorem marks_eq :
    marks (Protected.ofLine settings (front ++ rest)) =
      (lineMarks text front cells).filter (·.width ≤ Scan.maxWidth) := by
  obtain ⟨head, regions, hframe⟩ := h.frame
  have hexpand : ∀ k, .hole k ∈ cells → Protected.expand? (regions ++
      (Outline.ofLine settings rest).regions.map (render regions.length)) (regions.length + k) =
        some (text k) := by
    intro k hk
    rw [h.text_eq]
    exact Outline.expand?_eq _ settings h.mark h.maths (h.mem_holes hk)
  obtain ⟨xs, hxs, hlast, hwalk⟩ := hframe.placesFrom_head
    ((Outline.ofLine settings rest).regions.map (render regions.length))
    (cells.flatMap (Cell.chars regions.length))
  rw [hframe.ofLine_eq settings h.length_eq, marks, Scan.decode_append hframe.ascii_head,
    ← h.atoms_eq, decode_render_atoms, hwalk]
  dsimp only
  rw [marksFrom_append hxs, hlast, marksFrom_cells text _ _ h.tidy hexpand, Option.or_none,
    lineMarks]

end Celled

end EmphasisSpacing
