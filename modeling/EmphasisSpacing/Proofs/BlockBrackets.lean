import Mathlib.Data.List.Induction
import EmphasisSpacing.Proofs.Blocks

/-!
# Blocks open and close like brackets

Fenced code and display math are found line by line, by a machine that keeps two flags and a fence mark
(`Block.step`). This module says what a whole run of it does (`Block.run_bracketed`).

* Behind any lines, at most one flag is set, and there is a mark exactly when the flag of code is. Every
  step keeps this (`Block.State.Sound`), and so only three kinds of states are ever reached.
* Behind any lines, the state is that of a block exactly if the last delimiter that was seen has opened
  it: in front of the delimiter there was no block, and behind it stands no second one of its kind.
* A delimiter, lines without it, and the delimiter again are all closed to changes, and lead back to
  where they started.

The two kinds differ in their delimiters only. `Block.Brackets` is what they have in common, and the
results are proved once, for anything that brackets lines in this way. In particular it does not matter
what the lines in between look like: the other fence, the delimiter of math and thematic breaks are
content there.
-/

namespace EmphasisSpacing

open WhiteSpace

namespace Block

/-! ### Runs -/

/-- The block behind some lines, and which of the lines are open, from a given block on. -/
def run (settings : Settings) : State → List Bytes → State × List Bool
  | state, [] => (state, [])
  | state, line :: lines =>
    let (next, isOpen) := step settings state line
    let (last, isOpens) := run settings next lines
    (last, isOpen :: isOpens)

section

variable {settings : Settings}

theorem run_cons (state : State) (line : Bytes) (lines : List Bytes) :
    run settings state (line :: lines) =
      ((run settings (step settings state line).1 lines).1,
        (step settings state line).2 :: (run settings (step settings state line).1 lines).2) := rfl

/-- Runs one after the other. -/
theorem run_append (state : State) (pre lines : List Bytes) :
    run settings state (pre ++ lines) =
      ((run settings (run settings state pre).1 lines).1,
        (run settings state pre).2 ++ (run settings (run settings state pre).1 lines).2) := by
  induction pre generalizing state with
  | nil => rfl
  | cons line pre ih => rw [List.cons_append, run_cons, run_cons, ih, List.cons_append]

theorem run_concat_fst (state : State) (lines : List Bytes) (line : Bytes) :
    (run settings state (lines ++ [line])).1 =
      (step settings (run settings state lines).1 line).1 := by
  rw [run_append, run_cons]
  rfl

/-- In a block, and where a block starts, lines are closed to changes. -/
theorem step_snd_of_block {state : State} {line : Bytes}
    (h : ¬ state.IsOutside ∨ (step settings state line).1 ≠ state) :
    (step settings state line).2 = false := by
  by_contra hopen
  rw [Bool.not_eq_false] at hopen
  rcases h with h | h
  · exact h (step_snd_iff.mp hopen).1
  · rw [step_of_open hopen] at h
    exact h rfl

end

/-! ### The states that are reached -/

/-- What a step does to the state: nothing, or it looks at a fence, outside of math, or it moves into
math or out of it, outside of code. -/
theorem step_fst_cases (settings : Settings) (state : State) (line : Bytes) :
    (step settings state line).1 = state ∨
      (∃ f, settings.skipCodeBlocks = true ∧ state.inMath = false ∧
        (step settings state line).1 = state.fenced f) ∨
      (state.inCode = false ∧
        (step settings state line).1 = { state with inMath := !state.inMath }) := by
  unfold step
  dsimp only
  split
  · next f hfence =>
    rw [ite_eq_iff] at hfence
    obtain ⟨hseen, -⟩ := hfence.resolve_right (by simp)
    rw [Bool.and_eq_true, Bool.not_eq_true'] at hseen
    exact .inr (.inl ⟨f, hseen.1, hseen.2, rfl⟩)
  · split_ifs with hmath
    · rw [Bool.and_eq_true, Bool.not_eq_true'] at hmath
      unfold State.delimited
      split_ifs
      · exact .inl rfl
      · exact .inr (.inr ⟨hmath.1, rfl⟩)
    · exact .inl rfl

theorem Fence.bytes_ne_nil (f : Fence) : f.bytes ≠ [] := by
  cases f <;> simp [Fence.bytes]

theorem Fence.bytes_inj {f g : Fence} : f.bytes = g.bytes ↔ f = g := by
  cases f <;> cases g <;> simp [Fence.bytes]

namespace State

/-- Code that the given mark opened. -/
def code (f : Fence) : State := ⟨true, f.bytes, false⟩

/-- Display math. -/
def math : State := ⟨false, [], true⟩

/-- What holds at the start, and what every step keeps. -/
structure Sound (settings : Settings) (state : State) : Prop where
  /-- No line lies in two blocks. -/
  apart : ¬ (state.inCode = true ∧ state.inMath = true)
  /-- There is a fence mark in code, and only there. -/
  fence : state.fence ≠ [] ↔ state.inCode = true
  /-- It is one of the two that there are. -/
  mark : state.inCode = true → ∃ f : Fence, state.fence = f.bytes
  /-- Fences are not seen when code blocks are not to be left alone. -/
  off : settings.skipCodeBlocks = false → state.inCode = false

section

variable {settings : Settings} {state : State}

theorem sound_text (settings : Settings) : Sound settings .text := by
  refine ⟨?_, ?_, ?_, fun _ => rfl⟩ <;> simp [text]

theorem Sound.fenced (h : Sound settings state) (hskip : settings.skipCodeBlocks = true)
    (hmath : state.inMath = false) (f : Fence) : Sound settings (state.fenced f) := by
  have hoff : ∀ next : State, settings.skipCodeBlocks = false → next.inCode = false := by
    intro next hno
    rw [hskip] at hno
    cases hno
  cases hcode : state.inCode with
  | false =>
    have hopen : state.fenced f = { state with inCode := true, fence := f.bytes } := by
      rw [State.fenced, hcode]
      rfl
    rw [hopen]
    refine ⟨?_, ?_, fun _ => ⟨f, rfl⟩, hoff _⟩
    · simp [hmath]
    · simp [f.bytes_ne_nil]
  | true =>
    by_cases hmark : f.bytes = state.fence
    · have hclose : state.fenced f = { state with inCode := false, fence := [] } := by
        simp [State.fenced, hcode, hmark]
      rw [hclose]
      refine ⟨?_, ?_, ?_, hoff _⟩ <;> simp
    · have hother : state.fenced f = state := by simp [State.fenced, hcode, hmark]
      rw [hother]
      exact h

theorem Sound.toggle (h : Sound settings state) (hcode : state.inCode = false) :
    Sound settings { state with inMath := !state.inMath } := by
  refine ⟨?_, h.fence, h.mark, h.off⟩
  simp [hcode]

/-- **A step keeps the state sound.** -/
theorem Sound.step (h : Sound settings state) (line : Bytes) :
    Sound settings (Block.step settings state line).1 := by
  obtain hsame | ⟨f, hskip, hmath, hfenced⟩ | ⟨hcode, htoggled⟩ := step_fst_cases settings state line
  · rw [hsame]
    exact h
  · rw [hfenced]
    exact h.fenced hskip hmath f
  · rw [htoggled]
    exact h.toggle hcode

/-- **Every run keeps the state sound.** -/
theorem Sound.run (h : Sound settings state) (lines : List Bytes) :
    Sound settings (Block.run settings state lines).1 := by
  induction lines generalizing state with
  | nil => exact h
  | cons line lines ih => exact ih (h.step line)

/-- A sound state is that of no block, of code or of math. -/
theorem Sound.eq_cases (h : Sound settings state) :
    state = .text ∨ (∃ f, state = .code f) ∨ state = .math := by
  obtain ⟨inCode, fence, inMath⟩ := state
  cases inCode with
  | false =>
    obtain rfl : fence = [] := by simpa using h.fence
    cases inMath
    · exact .inl rfl
    · exact .inr (.inr rfl)
  | true =>
    obtain ⟨f, rfl⟩ : ∃ f : Fence, fence = f.bytes := h.mark rfl
    obtain rfl : inMath = false := by simpa using h.apart
    exact .inr (.inl ⟨f, rfl⟩)

theorem Sound.isOutside_iff (h : Sound settings state) : state.IsOutside ↔ state = .text := by
  obtain rfl | ⟨f, rfl⟩ | rfl := h.eq_cases <;> simp [IsOutside, text, code, math]

theorem Sound.inCode_iff (h : Sound settings state) {f : Fence} :
    state.inCode = true ∧ state.fence = f.bytes ↔ state = .code f := by
  obtain rfl | ⟨g, rfl⟩ | rfl := h.eq_cases <;> simp [text, code, math]

theorem Sound.inMath_iff (h : Sound settings state) : state.inMath = true ↔ state = .math := by
  obtain rfl | ⟨f, rfl⟩ | rfl := h.eq_cases <;> simp [text, code, math]

end

end State

theorem sound_after (settings : Settings) (lines : List Bytes) :
    (run settings .text lines).1.Sound settings :=
  (State.sound_text settings).run lines

/-! ### Delimiters -/

/-- Whether a line, trimmed, starts with a fence mark. -/
def isFence (f : Fence) (line : Bytes) : Bool := Bytes.startsWith (trim line) f.bytes

/-- Whether a line, trimmed, starts with the delimiter of display math and is no display math as a
whole. -/
def isMathDelimiter (line : Bytes) : Bool :=
  Bytes.startsWith (trim line) mathMark && !isMathLine (trim line)

/-- The two fence marks exclude one another, so it does not matter which one is looked for first. -/
theorem fence?_eq_some_iff {line : Bytes} {f : Fence} :
    fence? line = some f ↔ Bytes.startsWith line f.bytes = true := by
  have hexcl : Bytes.startsWith line Fence.graves.bytes = true →
      Bytes.startsWith line Fence.tildes.bytes = true → False := by
    intro hgraves htildes
    obtain ⟨t, rfl⟩ := Bytes.startsWith_iff.mp hgraves
    cases htildes
  unfold fence?
  cases f with
  | graves => split_ifs <;> simp_all
  | tildes => split_ifs <;> simp_all

theorem fence?_eq_none_of_math {line : Bytes} (h : Bytes.startsWith line mathMark = true) :
    fence? line = none := by
  obtain ⟨t, rfl⟩ := Bytes.startsWith_iff.mp h
  rfl

section

variable (settings : Settings) (line : Bytes)

/-- Code ends with the mark that opened it. -/
theorem step_code (g : Fence) :
    (step settings (.code g) line).1 =
      if settings.skipCodeBlocks && isFence g line then .text else .code g := by
  have hiff : isFence g line = true ↔ fence? (trim line) = some g := fence?_eq_some_iff.symm
  cases hskip : settings.skipCodeBlocks with
  | false => simp [step, hskip, State.code]
  | true =>
    cases hfence : fence? (trim line) with
    | none => simp [step, hskip, hfence, hiff, State.code]
    | some f =>
      by_cases hfg : f = g <;>
        simp [step, hskip, hfence, hiff, State.fenced, State.code, State.text, Fence.bytes_inj, hfg]

/-- Math ends with its delimiter, and nothing else is looked for in it. -/
theorem step_math :
    (step settings .math line).1 = if isMathDelimiter line then .text else .math := by
  cases hmath : Bytes.startsWith (trim line) mathMark <;> cases hwhole : isMathLine (trim line) <;>
    simp [step, isMathDelimiter, hmath, hwhole, State.delimited, State.math, State.text]

/-- Outside of blocks, a fence opens code and a delimiter of math opens math. The two exclude one
another. -/
theorem step_text :
    (step settings .text line).1 =
      match (if settings.skipCodeBlocks then fence? (trim line) else none) with
      | some f => .code f
      | none => if isMathDelimiter line then .math else .text := by
  cases hskip : settings.skipCodeBlocks <;> cases hfence : fence? (trim line) <;>
    cases hmath : Bytes.startsWith (trim line) mathMark <;> cases hwhole : isMathLine (trim line) <;>
    simp [step, isMathDelimiter, hskip, hfence, hmath, hwhole, State.fenced, State.delimited,
      State.code, State.math, State.text]

theorem step_text_eq_code_iff (f : Fence) :
    (step settings .text line).1 = .code f ↔
      (settings.skipCodeBlocks && isFence f line) = true := by
  have hiff : isFence f line = true ↔ fence? (trim line) = some f := fence?_eq_some_iff.symm
  rw [step_text, Bool.and_eq_true, hiff]
  cases settings.skipCodeBlocks <;> cases fence? (trim line) <;> cases isMathDelimiter line <;>
    simp [State.code, State.math, State.text, Fence.bytes_inj]

theorem step_text_eq_math_iff :
    (step settings .text line).1 = .math ↔ isMathDelimiter line = true := by
  rw [step_text]
  cases hmath : isMathDelimiter line with
  | false =>
    cases settings.skipCodeBlocks <;> cases fence? (trim line) <;>
      simp [State.code, State.math, State.text]
  | true =>
    -- The delimiter of math is no fence.
    have hstart := (Bool.and_eq_true_iff.mp hmath).1
    simp [fence?_eq_none_of_math hstart]

end

/-! ### What brackets lines -/

/-- A block is a state that is entered from outside at a delimiter, and left at the next one. -/
structure Brackets (settings : Settings) (block : State) (delimits : Bytes → Bool) : Prop where
  not_outside : ¬ block.IsOutside
  /-- Within the block, delimiters lead out of it, and other lines stay in it. -/
  inside : ∀ line, (step settings block line).1 = if delimits line then .text else block
  /-- There is no other way into the block than through a delimiter. -/
  enter : ∀ state line, state.Sound settings → state ≠ block →
    ((step settings state line).1 = block ↔ state = .text ∧ delimits line = true)

namespace Brackets

variable {settings : Settings} {block : State} {delimits : Bytes → Bool}
  (h : Brackets settings block delimits)

include h

theorem ne_text : block ≠ .text := by
  rintro rfl
  exact h.not_outside ⟨rfl, rfl⟩

theorem step_open {line : Bytes} (hline : delimits line = true) :
    step settings .text line = (block, false) := by
  have hblock : (step settings .text line).1 = block :=
    (h.enter _ _ (State.sound_text settings) h.ne_text.symm).mpr ⟨rfl, hline⟩
  have hclosed : (step settings .text line).2 = false := by
    apply step_snd_of_block
    right
    rw [hblock]
    exact h.ne_text
  exact Prod.ext hblock hclosed

theorem step_close {line : Bytes} (hline : delimits line = true) :
    step settings block line = (.text, false) := by
  have htext : (step settings block line).1 = .text := by
    rw [h.inside, if_pos hline]
  exact Prod.ext htext (step_snd_of_block (.inl h.not_outside))

theorem step_stay {line : Bytes} (hline : delimits line = false) :
    step settings block line = (block, false) := by
  have hblock : (step settings block line).1 = block := by
    rw [h.inside, hline]
    rfl
  exact Prod.ext hblock (step_snd_of_block (.inl h.not_outside))

/-- Lines without the delimiter stay in the block, whatever they are. -/
theorem run_stay {inner : List Bytes} (hinner : ∀ l ∈ inner, delimits l = false) :
    run settings block inner = (block, List.replicate inner.length false) := by
  induction inner with
  | nil => rfl
  | cons line inner ih =>
    rw [List.forall_mem_cons] at hinner
    rw [run_cons, h.step_stay hinner.1, ih hinner.2]
    rfl

/-- **A delimiter, lines without it and the delimiter again** are closed to changes, and there is no
block behind them. -/
theorem run_bracket {opener closer : Bytes} {inner : List Bytes} (hopener : delimits opener = true)
    (hinner : ∀ l ∈ inner, delimits l = false) (hcloser : delimits closer = true) :
    run settings .text (opener :: inner ++ [closer]) =
      (.text, List.replicate (inner.length + 2) false) := by
  have hclose : run settings block [closer] = (.text, [false]) := by
    rw [run_cons, h.step_close hcloser]
    rfl
  have hmask : List.replicate (inner.length + 2) false =
      false :: (List.replicate inner.length false ++ [false]) := by
    rw [← List.replicate_succ', ← List.replicate_succ]
  rw [List.cons_append, run_cons, h.step_open hopener, run_append, h.run_stay hinner, hclose, hmask]

/-- **The block is reached exactly if its last delimiter has opened it.** Induction on the lines, from
the last one: it has opened the block, or the block was there before and the line does not end it. -/
theorem run_eq_iff (lines : List Bytes) :
    (run settings .text lines).1 = block ↔
      ∃ pre opener inner, lines = pre ++ opener :: inner ∧ (run settings .text pre).1 = .text ∧
        delimits opener = true ∧ ∀ l ∈ inner, delimits l = false := by
  constructor
  · induction lines using List.reverseRecOn with
    | nil => exact fun hblock => absurd hblock.symm h.ne_text
    | append_singleton lines line ih =>
      intro hblock
      rw [run_concat_fst] at hblock
      by_cases hbefore : (run settings .text lines).1 = block
      · obtain ⟨pre, opener, inner, rfl, hpre, hopener, hinner⟩ := ih hbefore
        -- A delimiter would have closed the block.
        have hline : delimits line = false := by
          by_contra hyes
          rw [Bool.not_eq_false] at hyes
          rw [hbefore, h.step_close hyes] at hblock
          exact h.ne_text hblock.symm
        refine ⟨pre, opener, inner ++ [line], by simp, hpre, hopener, fun l hl => ?_⟩
        rcases List.mem_append.mp hl with hl | hl
        · exact hinner l hl
        · rw [List.mem_singleton.mp hl]
          exact hline
      · obtain ⟨htext, hline⟩ := (h.enter _ _ (sound_after settings lines) hbefore).mp hblock
        exact ⟨lines, line, [], rfl, htext, hline, by simp⟩
  · rintro ⟨pre, opener, inner, rfl, hpre, hopener, hinner⟩
    rw [run_append, hpre, run_cons, h.step_open hopener, h.run_stay hinner]

end Brackets

/-! ### The two kinds of blocks -/

/-- Where code blocks are left alone, a fence mark brackets code. -/
theorem brackets_code (settings : Settings) (f : Fence) :
    Brackets settings (.code f) fun line => settings.skipCodeBlocks && isFence f line where
  not_outside := by simp [State.IsOutside, State.code]
  inside line := step_code settings line f
  enter state line hsound hne := by
    obtain rfl | ⟨g, rfl⟩ | rfl := hsound.eq_cases
    · simpa using step_text_eq_code_iff settings line f
    · have hgf : g ≠ f := fun heq => hne (by rw [heq])
      rw [step_code]
      split_ifs <;> simp [State.code, State.text, Fence.bytes_inj, hgf]
    · rw [step_math]
      split_ifs <;> simp [State.code, State.math, State.text]

/-- A line that starts with the delimiter of math, and is no math as a whole, brackets math. -/
theorem brackets_math (settings : Settings) : Brackets settings .math isMathDelimiter where
  not_outside := by simp [State.IsOutside, State.math]
  inside line := step_math settings line
  enter state line hsound hne := by
    obtain rfl | ⟨g, rfl⟩ | rfl := hsound.eq_cases
    · simpa using step_text_eq_math_iff settings line
    · rw [step_code]
      split_ifs <;> simp [State.code, State.math, State.text]
    · exact absurd rfl hne

/-! ### What a run shows -/

/-- What the state behind some lines tells about the lines. -/
structure Reached (settings : Settings) (lines : List Bytes) (state : State) : Prop extends
    state.Sound settings where
  /-- The fence mark is that of the line which opened the block, and that line is the last one that
  starts with it. -/
  code : ∀ f : Fence, state.inCode = true ∧ state.fence = f.bytes ↔
    settings.skipCodeBlocks = true ∧ ∃ pre opener inner, lines = pre ++ opener :: inner ∧
      (run settings .text pre).1.IsOutside ∧ isFence f opener = true ∧
      ∀ l ∈ inner, isFence f l = false
  /-- Math was opened by the last delimiter of math. -/
  math : state.inMath = true ↔ ∃ pre opener inner, lines = pre ++ opener :: inner ∧
    (run settings .text pre).1.IsOutside ∧ isMathDelimiter opener = true ∧
    ∀ l ∈ inner, isMathDelimiter l = false

theorem run_code_iff (settings : Settings) (f : Fence) (lines : List Bytes) :
    (run settings .text lines).1 = .code f ↔
      settings.skipCodeBlocks = true ∧ ∃ pre opener inner, lines = pre ++ opener :: inner ∧
        (run settings .text pre).1.IsOutside ∧ isFence f opener = true ∧
        ∀ l ∈ inner, isFence f l = false := by
  rw [(brackets_code settings f).run_eq_iff]
  simp only [(sound_after settings _).isOutside_iff]
  cases hskip : settings.skipCodeBlocks with
  | false => simp
  | true => simp only [Bool.true_and, true_and]

/-- The reached state is described by the lines that led to it. -/
theorem reached_run (settings : Settings) (lines : List Bytes) :
    Reached settings lines (run settings .text lines).1 := by
  have hsound := sound_after settings lines
  refine ⟨hsound, fun f => ?_, ?_⟩
  · rw [hsound.inCode_iff]
    exact run_code_iff settings f lines
  · rw [hsound.inMath_iff, (brackets_math settings).run_eq_iff]
    simp only [(sound_after settings _).isOutside_iff]

/-- **Blocks are bracketed.** The state behind any lines is told by the lines, and both kinds of blocks,
from any place outside of blocks, are closed to changes from delimiter to delimiter and lead back to
where they started. -/
theorem run_bracketed (settings : Settings) :
    (∀ lines : List Bytes, Reached settings lines (run settings .text lines).1) ∧
      (∀ (pre : List Bytes) (state : State) (f : Fence) (opener closer : Bytes) (inner : List Bytes),
        state = (run settings .text pre).1 → state.IsOutside → settings.skipCodeBlocks = true →
        isFence f opener = true → (∀ l ∈ inner, isFence f l = false) → isFence f closer = true →
        run settings state (opener :: inner ++ [closer]) =
          (state, List.replicate (inner.length + 2) false)) ∧
      ∀ (pre : List Bytes) (state : State) (opener closer : Bytes) (inner : List Bytes),
        state = (run settings .text pre).1 → state.IsOutside → isMathDelimiter opener = true →
        (∀ l ∈ inner, isMathDelimiter l = false) → isMathDelimiter closer = true →
        run settings state (opener :: inner ++ [closer]) =
          (state, List.replicate (inner.length + 2) false) := by
  refine ⟨reached_run settings, ?_, ?_⟩
  · intro pre state f opener closer inner hpre hstate hskip hopener hinner hcloser
    have hsound : state.Sound settings := hpre ▸ sound_after settings pre
    rw [hsound.isOutside_iff.mp hstate]
    apply (brackets_code settings f).run_bracket
    · rw [hskip, hopener]
      rfl
    · intro l hl
      rw [hinner l hl, Bool.and_false]
    · rw [hskip, hcloser]
      rfl
  · intro pre state opener closer inner hpre hstate hopener hinner hcloser
    have hsound : state.Sound settings := hpre ▸ sound_after settings pre
    rw [hsound.isOutside_iff.mp hstate]
    exact (brackets_math settings).run_bracket hopener hinner hcloser

/-- Behind a line of text: code that holds the other fence, the delimiter of math and a thematic break,
and math that holds a fence and display math on one line. -/
theorem run_bracketed_mixed :
    let state := (run .standard .text [bytes "a"]).1
    run .standard state (bytes "  ```text" :: [bytes "~~~", bytes "$$", bytes "***"] ++
        [bytes "```"]) = (state, [false, false, false, false, false]) ∧
      run .standard state (bytes "$$ x" :: [bytes "```", bytes "$$y$$"] ++ [bytes "$$"]) =
        (state, [false, false, false, false]) := by
  intro state
  obtain ⟨-, hcode, hmath⟩ := run_bracketed .standard
  constructor
  · exact hcode [bytes "a"] state .graves _ _ _ rfl ⟨by decide, by decide⟩ rfl (by decide)
      (by decide) (by decide)
  · exact hmath [bytes "a"] state _ _ _ rfl ⟨by decide, by decide⟩ (by decide) (by decide)
      (by decide)

end Block

end EmphasisSpacing
