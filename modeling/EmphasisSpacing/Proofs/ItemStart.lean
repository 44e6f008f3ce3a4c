import EmphasisSpacing.Proofs.Bullet
import EmphasisSpacing.Proofs.OnePass

/-!
# Items keep their start

A line with a bullet starts with blanks, a star and a blank. Formatting keeps this start byte for
byte (`format_keeps_item_start`), whatever it does to the rest of the line.

The bullet itself can be lost on the way: a stage may rewrite the line so that the next one takes
its leading star for a marker. Two facts make up for that. Trimming is the only stage that takes
blanks away, and it runs first, while the bullet is a region and not scanned
(`Stage.isPrefix_onLine_of_bullet`). The other stages put spaces in, and never between a leading
star and the blank behind it, since a leading star closes nothing (`Stage.isPrefix_onLine`). Putting
regions back does not touch the start either, even when it leaves a broken line, because a token
starts with a NUL.
-/

namespace EmphasisSpacing

open LineSymbol Atom

/-! ### Spacing behind a leading star -/

namespace Scan

/-- The spacing machine takes nothing back. -/
theorem isSuffix_spaceFrom (takes : Nat → Bool) (wants : Int → Bool) (frames : List Nat)
    (out : List Char) (ps : List Piece) : out <:+ spaceFrom takes wants frames out ps := by
  have hspace : ∀ (wanted : Bool) (o : List Char), o <:+ putSpace wanted o := by
    intro wanted o
    cases wanted with
    | false => exact List.suffix_rfl
    | true => exact List.suffix_cons ..
  have hstars : ∀ (n : Nat) (o : List Char), o <:+ putStars n o := fun n o =>
    List.suffix_append ..
  induction ps generalizing frames out with
  | nil => exact List.suffix_rfl
  | cons p ps ih =>
    cases p with
    | char c => exact (List.suffix_cons c out).trans (ih frames (c :: out))
    | stars n =>
      rw [spaceFrom]
      split_ifs
      · exact (hstars n out).trans (ih _ _)
      · exact ((hstars n out).trans (hspace _ _)).trans (ih _ _)
      · exact ((hspace _ out).trans (hstars n _)).trans (ih _ _)

/-- Behind blanks, a single star and a blank, the spacing machine has written just these. -/
theorem isPrefix_spaceFrom (takes : Nat → Bool) {wants : Int → Bool}
    (hwants : IgnoresSpacing wants) {indent : List Char} (hindent : ∀ c ∈ indent, isBlank c = true)
    (b : Char) (ps : List Piece) :
    indent ++ ['*', b] <+:
      (spaceFrom takes wants [] [] (plain indent ++ .stars 1 :: .char b :: ps)).reverse := by
  have hasks : asks wants (indent.reverse ++ []).head? = false := by
    cases indent with
    | nil => rfl
    | cons c indent => exact asks_blanks hwants hindent (by simp) []
  have hcloses : ¬ closes 1 [] = true := by simp [closes]
  obtain ⟨frames, hrun⟩ : ∃ frames, spaceFrom takes wants []
      [] (plain indent ++ .stars 1 :: .char b :: ps) =
        spaceFrom takes wants frames (b :: '*' :: indent.reverse) ps := by
    rw [spaceFrom_plain, spaceFrom, if_neg hcloses, hasks, putSpace_false, List.append_nil]
    split_ifs
    · exact ⟨[], rfl⟩
    · exact ⟨[1], rfl⟩
  have hsuffix := isSuffix_spaceFrom takes wants frames (b :: '*' :: indent.reverse) ps
  rw [← List.reverse_prefix] at hsuffix
  rw [hrun]
  simpa using hsuffix

/-- Stages other than trimming keep blanks, a star and a blank at the start of a line. -/
theorem isPrefix_chars {stage : Stage} (hstage : stage ≠ .trim) (settings : Settings)
    {indent : List Char} (hindent : ∀ c ∈ indent, isBlank c = true) {b : Char}
    (hb : isBlank b = true) (cs : List Char) :
    indent ++ ['*', b] <+: chars stage settings (indent ++ '*' :: b :: cs) := by
  have hrun : pieces ('*' :: b :: cs) = .stars 1 :: .char b :: pieces cs := by
    have hblank := pieces_cons_char (ne_star_of_isBlank hb) cs
    rw [← hblank]
    exact pieces_replicate (n := 1) (by decide) (by rw [hblank]; rfl)
  unfold chars
  rw [pieces_plain fun c hc => ne_star_of_isBlank (hindent c hc), hrun]
  cases stage with
  | trim => exact absurd rfl hstage
  | bold => exact isPrefix_spaceFrom _ (ignoresSpacing_boldSpace settings) hindent b _
  | italic => exact isPrefix_spaceFrom _ ignoresSpacing_italicSpace hindent b _

end Scan

/-! ### Starts of items -/

/-- Blanks, a star and a blank: the start of an item, up to the blank behind the bullet. -/
structure IsItemStart (indent : Bytes) (b : UInt8) (start : Bytes) : Prop where
  blanks : ∀ x ∈ indent, Bytes.isBlank x = true
  blank : Bytes.isBlank b = true
  eq : start = indent ++ [Bytes.star, b]

/-- Text without a NUL stays in front of the regions that are put back. -/
theorem putBack_append {w : Bytes} (hw : tokenMark ∉ w) (base : Nat)
    (newestFirst : List (List Atom)) (t : Bytes) :
    putBack base newestFirst (w ++ t) = w ++ putBack base newestFirst t := by
  induction newestFirst generalizing t with
  | nil => rfl
  | cons r rs ih => rw [putBack, replaceFirst_token_append hw, ih, putBack]

namespace IsItemStart

variable {indent start : Bytes} {b : UInt8} (h : IsItemStart indent b start)

include h

theorem frame : Frame (token 0 ++ [b]) start [indent ++ [Bytes.star]] := by
  rw [h.eq]
  exact .bullet indent b h.blanks h.blank

/-- A line with this start has just this bullet or none. -/
theorem bulletLength_eq (rest : Bytes) :
    bulletLength (start ++ rest) = 0 ∨ bulletLength (start ++ rest) = start.length - 1 := by
  have hline : start ++ rest = indent ++ Bytes.star :: b :: rest := by simp [h.eq]
  have htake : (start ++ rest).takeWhile Bytes.isBlank = indent := by
    rw [hline, List.takeWhile_append_of_pos h.blanks]
    exact List.append_nil indent
  have hlength : start.length - 1 = indent.length + 1 := by simp [h.eq]
  rw [bulletLength, drop_takeWhile_length, htake, hline, dropWhile_indent h.blanks, hlength]
  dsimp only
  split_ifs
  · exact .inr rfl
  · exact .inl rfl

/-- Scanning keeps the start, trimming apart. -/
theorem isPrefix_line {stage : Stage} (hstage : stage ≠ .trim) (settings : Settings) (t : Bytes) :
    start <+: Scan.line stage settings (start ++ t) := by
  have hascii := h.frame.ascii_front
  have hblank : ∀ x : UInt8, Bytes.isBlank x = true →
      Scan.isBlank (Char.ofNat x.toNat) = true := by
    intro x hx
    rcases Bool.or_eq_true_iff.mp hx with hx | hx <;> rw [beq_iff_eq.mp hx] <;> rfl
  have hindent : ∀ c ∈ indent.map (fun x => Char.ofNat x.toNat), Scan.isBlank c = true := by
    simpa using fun x hx => hblank x (h.blanks x hx)
  have hchars := Scan.isPrefix_chars hstage settings hindent (hblank b h.blank) (Utf8.decode t)
  have hstart : start.map (fun x => Char.ofNat x.toNat) =
      indent.map (fun x => Char.ofNat x.toNat) ++ ['*', Char.ofNat b.toNat] := by
    rw [h.eq, List.map_append]
    rfl
  obtain ⟨cs, hcs⟩ := hchars
  have hdecode : Utf8.decode (start ++ t) = indent.map (fun x => Char.ofNat x.toNat) ++
      '*' :: Char.ofNat b.toNat :: Utf8.decode t := by
    rw [Scan.decode_append hascii, hstart]
    simp
  rw [Scan.line, hdecode, ← hcs]
  split_ifs
  · exact List.prefix_append ..
  · rw [← hstart, Utf8.encode_append, Scan.encode_map_ascii hascii]
    exact List.prefix_append ..

end IsItemStart

/-! ### Stages -/

namespace Stage

variable {indent start : Bytes} {b : UInt8}

/-- Any stage keeps the start of a line that has a bullet. -/
theorem isPrefix_onLine_of_bullet (stage : Stage) (settings : Settings)
    (h : IsItemStart indent b start) {rest : Bytes}
    (hlength : bulletLength (start ++ rest) = start.length - 1) :
    start <+: stage.onLine settings (start ++ rest) := by
  rw [h.frame.onLine_eq settings stage hlength]
  split_ifs <;> exact List.prefix_append ..

/-- **Stages other than trimming keep the start of an item**, whether or not the line still has a
bullet. -/
theorem isPrefix_onLine {stage : Stage} (hstage : stage ≠ .trim) (settings : Settings)
    (h : IsItemStart indent b start) (rest : Bytes) :
    start <+: stage.onLine settings (start ++ rest) := by
  rcases h.bulletLength_eq rest with hzero | hlength
  · -- Without a bullet, the start is scanned with the rest of the line.
    have houtline := Outline.ofLine_append settings (fun d => h.frame.ignores_front d) rest
    have hbare : stage.onLine settings ([] ++ (start ++ rest)) = _ :=
      Frame.bare.onLine_eq settings stage hzero
    rw [List.nil_append, List.nil_append, houtline] at hbare
    rw [hbare]
    split_ifs
    · exact List.prefix_append ..
    · dsimp only
      rw [render_append, render_plain]
      obtain ⟨t, ht⟩ := h.isPrefix_line hstage settings
        (render [].length (Outline.ofLine settings rest).atoms)
      rw [← ht, putBack_append h.frame.tokenMark_notMem_front]
      exact List.prefix_append ..
  · exact stage.isPrefix_onLine_of_bullet settings h hlength

end Stage

/-- The stages behind trimming, one after the other, keep the start of an item. -/
theorem isPrefix_passStages (settings : Settings) {indent start : Bytes} {b : UInt8}
    (h : IsItemStart indent b start) {stages : List Stage} (hstages : .trim ∉ stages)
    {line : Bytes} (hline : start <+: line) : start <+: passStages settings stages line := by
  induction stages generalizing line with
  | nil => exact hline
  | cons stage stages ih =>
    rw [List.mem_cons, not_or] at hstages
    rw [passStages, List.foldl_cons]
    refine ih hstages.2 ?_
    obtain ⟨rest, rfl⟩ := hline
    rw [Stage.onContent]
    split_ifs
    · exact Stage.isPrefix_onLine (Ne.symm hstages.1) settings h rest
    · exact List.prefix_append ..

/-- All stages that are turned on keep the start of a line with a bullet. Trimming is the first of
them or none. -/
theorem isPrefix_passStages_enabled (settings : Settings) {indent start rest : Bytes} {b : UInt8}
    (h : IsItemStart indent b start)
    (hlength : bulletLength (start ++ rest) = start.length - 1) :
    start <+: passStages settings (Stage.all.filter (Stage.enabled settings)) (start ++ rest) := by
  have hlater : ∀ p : Stage → Bool, .trim ∉ [Stage.bold, Stage.italic].filter p := by simp
  rw [show Stage.all = .trim :: [.bold, .italic] from rfl, List.filter_cons]
  split_ifs
  · rw [passStages, List.foldl_cons]
    refine isPrefix_passStages settings h (hlater _) ?_
    rw [Stage.onContent]
    split_ifs
    · exact Stage.isPrefix_onLine_of_bullet .trim settings h hlength
    · exact List.prefix_append ..
  · exact isPrefix_passStages settings h (hlater _) (List.prefix_append ..)

/-! ### Documents -/

/-- **An item stays an item.** A line with a bullet starts with blanks, a star and a blank, and the
formatted line starts with the same bytes. -/
theorem format_keeps_item_start (settings : Settings) (text : Bytes) {i : Nat} {l : Line}
    (hl : (Line.split text)[i]? = some l) (hbullet : 0 < bulletLength l.content) :
    ∃ l' indent b, (Line.split (format settings text))[i]? = some l' ∧
      IsItemStart indent b (l.content.take (bulletLength l.content + 1)) ∧
      indent.length + 1 = bulletLength l.content ∧
      l'.content.take (bulletLength l.content + 1) =
        l.content.take (bulletLength l.content + 1) := by
  obtain ⟨indent, b, rest, hindent, hb, hcontent, hlength⟩ :=
    (bulletLength_cases l.content).resolve_left (by omega)
  have hstart : IsItemStart indent b (indent ++ [Bytes.star, b]) := ⟨hindent, hb, rfl⟩
  have hline : l.content = indent ++ [Bytes.star, b] ++ rest := by simp [hcontent]
  have htake : ∀ t : Bytes, indent ++ [Bytes.star, b] <+: t →
      t.take (bulletLength l.content + 1) = indent ++ [Bytes.star, b] := by
    rintro t ⟨r, rfl⟩
    rw [hlength, List.take_left']
    simp
  -- The line is copied or passed through the stages, and both keep its start.
  have hrun := foldl_onDocument settings (Stage.all.filter (Stage.enabled settings))
    (Line.proper_split text)
  rw [Line.join_split] at hrun
  have hsplit : Line.split (format settings text) = onePass settings (Line.split text) := by
    rw [format, hrun.1]
    exact Line.split_join hrun.2
  obtain ⟨isOpen, -, hget⟩ := getElem?_onePass settings hl
  have hkeep : indent ++ [Bytes.star, b] <+: (passLine settings
      (Stage.all.filter (Stage.enabled settings)) isOpen l).content := by
    cases isOpen with
    | false => exact ⟨rest, hline.symm⟩
    | true =>
      show _ <+: passStages settings _ l.content
      rw [hline]
      refine isPrefix_passStages_enabled settings hstart ?_
      rw [← hline, hlength]
      simp
  have hfirst := htake l.content ⟨rest, hline.symm⟩
  refine ⟨_, indent, b, by rw [hsplit, hget], ?_, hlength.symm, ?_⟩
  · rw [hfirst]
    exact hstart
  · rw [htake _ hkeep, hfirst]

/-- The item ``*  ** `x`* * *中* * *``: trimming takes the blank behind the wide marker away, and
then the leading star no longer counts as a bullet when spaces are put around `中`. -/
theorem format_keeps_item_start_without_bullet :
    ∃ (text : Bytes) (l : Line), (Line.split text)[0]? = some l ∧ 0 < bulletLength l.content ∧
      bulletLength (passStages Settings.standard [.trim] l.content) = 0 ∧
      format Settings.standard text ≠ passStages Settings.standard [.trim] l.content ∧
      ∃ l' indent b, (Line.split (format Settings.standard text))[0]? = some l' ∧
        IsItemStart indent b (l.content.take (bulletLength l.content + 1)) ∧
        indent.length + 1 = bulletLength l.content ∧
        l'.content.take (bulletLength l.content + 1) =
          l.content.take (bulletLength l.content + 1) := by
  let content := bytes "*  ** `x`* * *中* * *"
  have hline : (Line.split content)[0]? = some ⟨content, .none⟩ := by decide
  have hbullet : 0 < bulletLength content := by decide
  exact ⟨content, _, hline, hbullet, by decide +kernel, by decide +kernel,
    format_keeps_item_start Settings.standard content hline hbullet⟩

end EmphasisSpacing
