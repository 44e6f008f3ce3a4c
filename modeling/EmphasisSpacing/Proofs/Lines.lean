import Mathlib.Tactic.Common
import EmphasisSpacing.Document.Line

/-!
# Splitting and joining lines

`Line.split` and `Line.join` undo each other. Joining gives every document back (`Line.join_split`),
and splitting gives lines back whenever they are `Line.Proper`, that is, could have come from
splitting (`Line.split_join`): no content holds a line feed, a content that ends with a carriage
return is not followed by a bare line feed, and only the last line can lack a terminator.
-/

namespace EmphasisSpacing

namespace Line

/-- Whether the content of a line cannot run into its terminator. -/
def Fits (l : Line) : Prop :=
  Bytes.lf ∉ l.content ∧
    match l.ending with
    | .none => l.content ≠ []
    | .lf => l.content.getLast? ≠ some Bytes.cr
    | .crlf => True

/-- Whether lines could have come from splitting a document. -/
def Proper : List Line → Prop
  | [] => True
  | l :: ls => l.Fits ∧ (ls ≠ [] → l.ending ≠ .none) ∧ Proper ls

section

variable {before : Bytes}

theorem splitFrom_nil (h : before ≠ []) : splitFrom before [] = [⟨before.reverse, .none⟩] := by
  cases before with
  | nil => exact absurd rfl h
  | cons b before => rfl

theorem splitFrom_lf (s : Bytes) :
    splitFrom before (Bytes.lf :: s) = closed before :: splitFrom [] s := by
  cases before <;> rfl

theorem splitFrom_cons {b : UInt8} (hb : b ≠ Bytes.lf) (s : Bytes) :
    splitFrom before (b :: s) = splitFrom (b :: before) s := by
  cases before <;> simp [splitFrom, hb]

/-- Content is gathered until the line feed. -/
theorem splitFrom_append {content : Bytes} (h : Bytes.lf ∉ content) (s : Bytes) :
    splitFrom before (content ++ s) = splitFrom (content.reverse ++ before) s := by
  induction content generalizing before with
  | nil => rfl
  | cons b content ih =>
    rw [List.mem_cons, not_or] at h
    rw [List.cons_append, splitFrom_cons (Ne.symm h.1), ih h.2, List.reverse_cons,
      List.append_assoc, List.singleton_append]

end

theorem closed_cr (content : Bytes) : closed (Bytes.cr :: content.reverse) = ⟨content, .crlf⟩ := by
  simp [closed]

theorem closed_of_ne {content : Bytes} (h : content.getLast? ≠ some Bytes.cr) :
    closed content.reverse = ⟨content, .lf⟩ := by
  rcases List.eq_nil_or_concat content with rfl | ⟨init, b, rfl⟩
  · rfl
  · have hb : b ≠ Bytes.cr := by simpa using h
    simp [closed, hb]

/-- The line that a line feed ends, and what it is made of. -/
theorem closed_spec {before : Bytes} (h : Bytes.lf ∉ before) :
    (closed before).Fits ∧ (closed before).ending ≠ .none ∧
      (closed before).bytes = before.reverse ++ [Bytes.lf] := by
  cases before with
  | nil => exact ⟨⟨h, by simp [closed]⟩, by simp [closed], rfl⟩
  | cons b before =>
    rw [List.mem_cons, not_or] at h
    rw [closed]
    split_ifs with hb
    · rw [beq_iff_eq] at hb
      subst hb
      exact ⟨⟨by simpa using h.2, trivial⟩, by simp, by simp [bytes, Ending.bytes]⟩
    · refine ⟨⟨?_, ?_⟩, by simp, by simp [bytes, Ending.bytes]⟩
      · rw [List.mem_reverse, List.mem_cons, not_or]
        exact h
      · simpa using hb

/-- What splitting gives, from any line that has begun. -/
theorem splitFrom_spec {before : Bytes} (h : Bytes.lf ∉ before) (s : Bytes) :
    Proper (splitFrom before s) ∧ join (splitFrom before s) = before.reverse ++ s := by
  induction s generalizing before with
  | nil =>
    by_cases hnil : before = []
    · subst hnil
      exact ⟨trivial, rfl⟩
    · rw [splitFrom_nil hnil]
      refine ⟨⟨⟨by simpa using h, by simpa using hnil⟩, by simp, trivial⟩, ?_⟩
      simp [join, bytes, Ending.bytes]
  | cons b s ih =>
    by_cases hb : b = Bytes.lf
    · subst hb
      -- The line that has begun ends here, with the carriage return in front if there is one.
      obtain ⟨hfits, hending, hbytes⟩ := closed_spec h
      obtain ⟨hproper, hjoin⟩ := ih (show Bytes.lf ∉ [] by simp)
      rw [splitFrom_lf]
      refine ⟨⟨hfits, fun _ => hending, hproper⟩, ?_⟩
      show (closed before).bytes ++ join (splitFrom [] s) = _
      rw [hbytes, hjoin]
      simp
    · rw [splitFrom_cons hb]
      have hcons : Bytes.lf ∉ b :: before := by
        rw [List.mem_cons, not_or]
        exact ⟨Ne.symm hb, h⟩
      obtain ⟨hproper, hjoin⟩ := ih hcons
      exact ⟨hproper, by rw [hjoin]; simp⟩

theorem proper_split (s : Bytes) : Proper (split s) := (splitFrom_spec (by simp) s).1

theorem join_split (s : Bytes) : join (split s) = s := (splitFrom_spec (by simp) s).2

/-- **Joined lines are split where they were joined.** -/
theorem split_join {ls : List Line} (h : Proper ls) : split (join ls) = ls := by
  induction ls with
  | nil => rfl
  | cons l ls ih =>
    obtain ⟨⟨hlf, hending⟩, hlast, hrest⟩ := h
    obtain ⟨content, ending⟩ := l
    have hjoin : join (⟨content, ending⟩ :: ls) = content ++ (ending.bytes ++ join ls) := by
      simp [join, bytes]
    rw [split, hjoin, splitFrom_append hlf, List.append_nil]
    cases ending with
    | none =>
      -- Nothing can follow.
      have hnil : ls = [] := by
        by_contra hne
        exact hlast hne rfl
      subst hnil
      show splitFrom content.reverse [] = _
      rw [splitFrom_nil (by simpa using hending), List.reverse_reverse]
    | lf =>
      show splitFrom content.reverse (Bytes.lf :: join ls) = _
      rw [splitFrom_lf, closed_of_ne hending]
      exact congrArg _ (ih hrest)
    | crlf =>
      show splitFrom content.reverse (Bytes.cr :: Bytes.lf :: join ls) = _
      rw [splitFrom_cons (by decide), splitFrom_lf, closed_cr]
      exact congrArg _ (ih hrest)

/-! ### Lines that end -/

@[simp]
theorem join_nil : join [] = [] := rfl

@[simp]
theorem join_cons (l : Line) (ls : List Line) : join (l :: ls) = l.bytes ++ join ls := rfl

@[simp]
theorem join_append (ls ls' : List Line) : join (ls ++ ls') = join ls ++ join ls' := by
  simp [join]

/-- Whether every line of a text has a terminator. -/
def Ended (s : Bytes) : Prop := ∀ l ∈ split s, l.ending ≠ .none

instance (s : Bytes) : Decidable (Ended s) :=
  inferInstanceAs (Decidable (∀ l ∈ split s, l.ending ≠ .none))

theorem Proper.append {ls ls' : List Line} (h : Proper ls) (hended : ∀ l ∈ ls, l.ending ≠ .none)
    (h' : Proper ls') : Proper (ls ++ ls') := by
  induction ls with
  | nil => exact h'
  | cons l ls ih =>
    rw [List.forall_mem_cons] at hended
    obtain ⟨hfits, -, hrest⟩ := h
    exact ⟨hfits, fun _ => hended.1, ih hrest hended.2⟩

theorem Proper.of_append {ls ls' : List Line} (h : Proper (ls ++ ls')) : Proper ls := by
  induction ls with
  | nil => trivial
  | cons l ls ih =>
    obtain ⟨hfits, hlast, hrest⟩ := h
    exact ⟨hfits, fun hne => hlast (List.append_ne_nil_of_left_ne_nil hne ls'), ih hrest⟩

/-- Behind text that has ended, lines are found as on their own. -/
theorem split_append {s : Bytes} (hs : Ended s) (t : Bytes) :
    split (s ++ t) = split s ++ split t := by
  have hjoin : join (split s ++ split t) = s ++ t := by
    rw [join_append, join_split, join_split]
  rw [← hjoin]
  exact split_join ((proper_split s).append hs (proper_split t))

theorem split_bytes {l : Line} (hl : l.Fits) : split l.bytes = [l] := by
  have hproper : Proper [l] := ⟨hl, fun h => absurd rfl h, trivial⟩
  have hsplit := split_join hproper
  rwa [join_cons, join_nil, List.append_nil] at hsplit

theorem Proper.fits {ls : List Line} (h : Proper ls) {l : Line} (hl : l ∈ ls) : l.Fits := by
  induction ls with
  | nil => cases hl
  | cons l' ls ih =>
    obtain ⟨hfits, -, hrest⟩ := h
    rcases List.mem_cons.mp hl with rfl | hl
    · exact hfits
    · exact ih hrest hl

theorem exists_bytes_eq {l : Line} (h : l.ending ≠ .none) : ∃ w, l.bytes = w ++ [Bytes.lf] := by
  unfold bytes
  cases hending : l.ending with
  | none => exact absurd hending h
  | lf => exact ⟨l.content, rfl⟩
  | crlf => exact ⟨l.content ++ [Bytes.cr], by simp [Ending.bytes]⟩

/-- Only the last line can lack a terminator. -/
theorem ended_or_exists (s : Bytes) :
    Ended s ∨ ∃ u c, s = u ++ c ∧ Ended u ∧ Bytes.lf ∉ c ∧ c ≠ [] := by
  -- Induction on the lines: one without a terminator has no other one behind it.
  have hlines : ∀ ls : List Line, Proper ls → (∀ l ∈ ls, l.ending ≠ .none) ∨
      ∃ us c, ls = us ++ [⟨c, .none⟩] ∧ ∀ l ∈ us, l.ending ≠ .none := by
    intro ls hls
    induction ls with
    | nil => exact .inl (by simp)
    | cons l ls ih =>
      obtain ⟨-, hlast, hrest⟩ := hls
      by_cases hending : l.ending = .none
      · have hnil : ls = [] := by
          by_contra hne
          exact hlast hne hending
        exact .inr ⟨[], l.content, by rw [hnil, ← hending]; rfl, by simp⟩
      · rcases ih hrest with hended | ⟨us, c, rfl, hended⟩
        · exact .inl (List.forall_mem_cons.mpr ⟨hending, hended⟩)
        · exact .inr ⟨l :: us, c, rfl, List.forall_mem_cons.mpr ⟨hending, hended⟩⟩
  rcases hlines (split s) (proper_split s) with hended | ⟨us, c, hsplit, hended⟩
  · exact .inl hended
  · right
    have hproper := proper_split s
    rw [hsplit] at hproper
    obtain ⟨hlf, hne⟩ := hproper.fits (show ⟨c, .none⟩ ∈ us ++ [⟨c, .none⟩] by simp)
    refine ⟨join us, c, ?_, ?_, hlf, hne⟩
    · rw [← join_split s, hsplit, join_append]
      simp [bytes, Ending.bytes]
    · rw [Ended, split_join hproper.of_append]
      exact hended

/-- A text has ended exactly if it is empty or its last byte is a line feed. -/
theorem ended_iff {s : Bytes} : Ended s ↔ ∀ b, s.getLast? = some b → b = Bytes.lf := by
  constructor
  · intro h b hb
    rcases List.eq_nil_or_concat (split s) with hnil | ⟨ls, l, hsplit⟩
    · rw [← join_split s, hnil] at hb
      cases hb
    · rw [List.concat_eq_append] at hsplit
      obtain ⟨w, hw⟩ := exists_bytes_eq (h l (by rw [hsplit]; simp))
      rw [← join_split s, hsplit, join_append, join_cons, join_nil, List.append_nil, hw,
        ← List.append_assoc, List.getLast?_concat] at hb
      exact (Option.some.inj hb).symm
  · intro h
    rcases ended_or_exists s with hended | ⟨u, c, rfl, -, hlf, hne⟩
    · exact hended
    · have hlast : (u ++ c).getLast? = some (c.getLast hne) := by
        rw [List.getLast?_append, List.getLast?_eq_some_getLast hne]
        rfl
      exact absurd (h _ hlast ▸ List.getLast_mem hne) hlf

theorem ended_nil : Ended [] := fun l hl => by cases hl

theorem ended_concat (s : Bytes) : Ended (s ++ [Bytes.lf]) := by
  rw [ended_iff]
  intro b hb
  rw [List.getLast?_concat] at hb
  exact (Option.some.inj hb).symm

theorem ended_bytes {l : Line} (h : l.ending ≠ .none) : Ended l.bytes := by
  obtain ⟨w, hw⟩ := exists_bytes_eq h
  rw [hw]
  exact ended_concat w

theorem Ended.append {s t : Bytes} (hs : Ended s) (ht : Ended t) : Ended (s ++ t) := by
  rw [Ended, split_append hs]
  intro l hl
  rcases List.mem_append.mp hl with hl | hl
  · exact hs l hl
  · exact ht l hl

/-- Cutting a text behind its line feeds gives the bytes of its lines. -/
theorem splitAfterLf_eq (s : Bytes) : Bytes.splitAfterLf s = (split s).map bytes := by
  have hfrom : ∀ before : Bytes, Bytes.lf ∉ before →
      Bytes.splitAfterLfFrom before s = (splitFrom before s).map bytes := by
    induction s with
    | nil =>
      intro before _
      cases before <;> simp [Bytes.splitAfterLfFrom, splitFrom, bytes, Ending.bytes]
    | cons b s ih =>
      intro before hbefore
      by_cases hb : b = Bytes.lf
      · subst hb
        rw [splitFrom_lf, List.map_cons, (closed_spec hbefore).2.2, ← ih [] (by simp)]
        cases before <;> simp [Bytes.splitAfterLfFrom]
      · rw [splitFrom_cons hb, ← ih (b :: before) (by simp [Ne.symm hb, hbefore])]
        cases before <;> simp [Bytes.splitAfterLfFrom, hb]
  exact hfrom [] (by simp)

theorem splitAfterLf_append {s : Bytes} (hs : Ended s) (t : Bytes) :
    Bytes.splitAfterLf (s ++ t) = Bytes.splitAfterLf s ++ Bytes.splitAfterLf t := by
  rw [splitAfterLf_eq, splitAfterLf_eq, splitAfterLf_eq, split_append hs, List.map_append]

end Line

end EmphasisSpacing
