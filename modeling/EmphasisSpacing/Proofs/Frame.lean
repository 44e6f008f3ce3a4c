import Mathlib.Data.List.TakeWhile
import EmphasisSpacing.Proofs.Outline
import EmphasisSpacing.Proofs.Rules

/-!
# Protected lines

`Protected.ofLine` writes the outline of a line with tokens. A bullet in front of the line is a
region of its own: it comes first, takes the number 0, and moves the other numbers by one. `Frame`
says what stands in front of the outline in the two cases, in the protected text and in the line,
and nothing else depends on whether there is a bullet.
-/

namespace EmphasisSpacing

open LineSymbol Atom Delimiter

/-! ### Bullets -/

/-- What stands in front of the outline: `head` in the protected text, `front` in the line, and
`regions` among the regions. A bullet takes the blank behind it along, which no stage changes. -/
inductive Frame : (head front : Bytes) → (regions : List Bytes) → Prop
  | bare : Frame [] [] []
  | bullet (indent : Bytes) (b : UInt8) (hindent : ∀ x ∈ indent, Bytes.isBlank x = true)
      (hb : Bytes.isBlank b = true) :
      Frame (token 0 ++ [b]) (indent ++ [Bytes.star, b]) [indent ++ [Bytes.star]]

theorem drop_takeWhile_length (p : UInt8 → Bool) (s : Bytes) :
    s.drop (s.takeWhile p).length = s.dropWhile p := by
  have h := congrArg (List.drop (s.takeWhile p).length)
    (List.takeWhile_append_dropWhile (p := p) (l := s))
  rw [List.drop_left] at h
  exact h.symm

/-- The shape of a line with a bullet. -/
theorem bulletLength_cases (line : Bytes) :
    bulletLength line = 0 ∨ ∃ indent b rest, (∀ x ∈ indent, Bytes.isBlank x = true) ∧
      Bytes.isBlank b = true ∧ line = indent ++ Bytes.star :: b :: rest ∧
      bulletLength line = indent.length + 1 := by
  have hline := List.takeWhile_append_dropWhile (p := Bytes.isBlank) (l := line)
  rw [bulletLength, drop_takeWhile_length]
  match hrest : line.dropWhile Bytes.isBlank with
  | [] => exact .inl rfl
  | [_] => exact .inl rfl
  | a :: b :: rest =>
    dsimp only
    split_ifs with hcond
    · simp only [Bool.and_eq_true, beq_iff_eq] at hcond
      obtain ⟨⟨rfl, hb⟩, -⟩ := hcond
      rw [hrest] at hline
      exact .inr ⟨_, b, rest, fun x hx => List.mem_takeWhile_imp hx, hb, hline.symm, rfl⟩
    · exact .inl rfl

/-- A bullet of the right length is what the frame stands for. -/
theorem Frame.ofBullet_eq {head front rest : Bytes} {regions : List Bytes}
    (h : Frame head front regions) (hlength : bulletLength (front ++ rest) = front.length - 1) :
    Protected.ofBullet (front ++ rest) = ⟨head ++ rest, regions⟩ := by
  cases h with
  | bare =>
    rw [Protected.ofBullet, hlength]
    rfl
  | bullet indent b hindent hb =>
    have hlen : (indent ++ [Bytes.star, b]).length - 1 = (indent ++ [Bytes.star]).length := by simp
    have hline : indent ++ [Bytes.star, b] ++ rest = indent ++ [Bytes.star] ++ b :: rest := by simp
    rw [hlen] at hlength
    obtain ⟨n, hn⟩ : ∃ n, (indent ++ [Bytes.star]).length = n + 1 := ⟨indent.length, by simp⟩
    rw [Protected.ofBullet, hlength, hline, hn]
    show (⟨token 0 ++ List.drop (n + 1) _, [List.take (n + 1) _]⟩ : Protected) = _
    rw [← hn, List.drop_left, List.take_left, List.append_assoc, List.singleton_append]

/-- Every line has a frame. -/
theorem exists_frame (line : Bytes) :
    ∃ head front regions rest, Frame head front regions ∧ line = front ++ rest ∧
      bulletLength line = front.length - 1 := by
  rcases bulletLength_cases line with h | ⟨indent, b, rest, hindent, hb, hline, h⟩
  · exact ⟨[], [], [], line, .bare, rfl, h⟩
  · have hline' : line = indent ++ [Bytes.star, b] ++ rest := by rw [hline]; simp
    exact ⟨_, _, _, rest, .bullet indent b hindent hb, hline', by rw [h]; simp⟩

namespace Frame

variable {head front : Bytes} {regions : List Bytes}

theorem ignores_head (h : Frame head front regions) (d : Delimiter) : ∀ b ∈ head, d.Ignores b := by
  intro x hx
  cases h with
  | bare => cases hx
  | bullet indent b hindent hb =>
    rcases List.mem_append.mp hx with hx | hx
    · exact d.ignores_of_mem_token hx
    · rw [List.mem_singleton.mp hx]
      exact d.ignores_of_isBlank hb

theorem ignores_front (h : Frame head front regions) (d : Delimiter) :
    ∀ b ∈ front, d.Ignores b := by
  intro x hx
  cases h with
  | bare => cases hx
  | bullet indent b hindent hb =>
    simp only [List.mem_append, List.mem_cons, List.not_mem_nil, or_false] at hx
    rcases hx with hx | rfl | rfl
    · exact d.ignores_of_isBlank (hindent x hx)
    · exact d.ignores_star
    · exact d.ignores_of_isBlank hb

theorem starsBehind_front (h : Frame head front regions) : starsBehind front = false := by
  cases h with
  | bare => rfl
  | bullet indent b hindent hb =>
    rw [show indent ++ [Bytes.star, b] = indent ++ [Bytes.star] ++ [b] by simp, starsBehind_concat]
    exact isStar_of_isBlank hb

end Frame

/-! ### Outlines behind a frame -/

/-- A cut copies what it ignores. -/
theorem cut_append {d : Delimiter} {n : Nat} {w : Bytes} (hw : ∀ b ∈ w, d.Ignores b)
    (as : List Atom) : cut d n none false (plain w ++ as) =
      (plain w ++ (cut d n none false as).1, (cut d n none false as).2) := by
  induction w with
  | nil => rfl
  | cons b w ih =>
    rw [List.forall_mem_cons] at hw
    have hcons : plain (b :: w) = .byte b :: plain w := rfl
    rw [hcons, List.cons_append, cut_copy (hw.1.opens false), hw.1.escapes, ih hw.2]
    rfl

theorem Outline.ofLine_append (settings : Settings) {w : Bytes}
    (hw : ∀ d : Delimiter, ∀ b ∈ w, d.Ignores b) (s : Bytes) :
    Outline.ofLine settings (w ++ s) =
      ⟨plain w ++ (Outline.ofLine settings s).atoms, (Outline.ofLine settings s).codes,
        (Outline.ofLine settings s).maths⟩ := by
  have hcode : Outline.cutCode settings (plain (w ++ s)) =
      (plain w ++ (Outline.cutCode settings (plain s)).1,
        (Outline.cutCode settings (plain s)).2) := by
    rw [plain_append, Outline.cutCode, Outline.cutCode]
    split_ifs
    · exact cut_append (hw .code) _
    · rfl
  rw [Outline.ofLine, hcode]
  dsimp only
  rw [cut_append (hw .math)]
  rfl

/-- Replacing the spans of one kind, behind a head that holds none of their delimiters. -/
theorem extend_eq_cut (d : Delimiter) {head : Bytes} (hhead : ∀ b ∈ head, d.Ignores b)
    (base n : Nat) {regions : List Bytes} (hregions : regions.length = base + n)
    (as : List Atom) :
    Protected.extend ⟨head ++ render base as, regions⟩
        (delimitedFrom d.byte d.escape 0 none false) =
      ⟨head ++ render base (cut d n none false as).1,
        regions ++ (cut d n none false as).2.map (render base)⟩ := by
  have hskip : delimitedFrom d.byte d.escape 0 none false (head ++ render base as) =
      delimitedFrom d.byte d.escape (0 + head.length) none false (render base as) := by
    by_cases hnil : head = []
    · rw [hnil]
      rfl
    · exact delimitedFrom_append none head _ 0 false hnil hhead
  rw [Protected.extend]
  dsimp only
  rw [hregions, hskip, replaceRanges_cut]

/-- A text with its code and math replaced, behind what was replaced before. -/
def Protected.withSpans (settings : Settings) (p : Protected) : Protected :=
  (if settings.skipInlineCode then p.extend codeSpans else p).extend mathSpans

theorem Protected.ofLine_eq_withSpans (settings : Settings) (line : Bytes) :
    Protected.ofLine settings line = (Protected.ofBullet line).withSpans settings := rfl

/-- **Replacing code and math gives the outline behind a frame.** -/
theorem Frame.withSpans_eq {head front : Bytes} {regions : List Bytes}
    (h : Frame head front regions) (settings : Settings) (rest : Bytes) :
    Protected.withSpans settings ⟨head ++ rest, regions⟩ =
      ⟨head ++ render regions.length (Outline.ofLine settings rest).atoms,
        regions ++ (Outline.ofLine settings rest).regions.map (render regions.length)⟩ := by
  have hcode : (if settings.skipInlineCode then
        Protected.extend ⟨head ++ rest, regions⟩ codeSpans else ⟨head ++ rest, regions⟩) =
      ⟨head ++ render regions.length (Outline.cutCode settings (plain rest)).1,
        regions ++ (Outline.cutCode settings (plain rest)).2.map (render regions.length)⟩ := by
    have hstart : (⟨head ++ rest, regions⟩ : Protected) =
        ⟨head ++ render regions.length (plain rest), regions⟩ := by rw [render_plain]
    rw [hstart, Outline.cutCode]
    split_ifs
    · exact extend_eq_cut .code (h.ignores_head .code) _ 0 rfl _
    · simp
  have hlen : (regions ++ (Outline.cutCode settings (plain rest)).2.map
      (render regions.length)).length =
        regions.length + (Outline.cutCode settings (plain rest)).2.length := by simp
  have hmath := extend_eq_cut .math (h.ignores_head .math) _ _ hlen
    (Outline.cutCode settings (plain rest)).1
  rw [Protected.withSpans, hcode]
  refine hmath.trans ?_
  rw [Outline.regions, List.map_append, List.append_assoc]
  rfl

/-- **A protected line is its outline behind a frame.** -/
theorem Frame.ofLine_eq {head front rest : Bytes} {regions : List Bytes}
    (h : Frame head front regions) (settings : Settings)
    (hlength : bulletLength (front ++ rest) = front.length - 1) :
    Protected.ofLine settings (front ++ rest) =
      ⟨head ++ render regions.length (Outline.ofLine settings rest).atoms,
        regions ++ (Outline.ofLine settings rest).regions.map (render regions.length)⟩ := by
  rw [Protected.ofLine_eq_withSpans, h.ofBullet_eq hlength, h.withSpans_eq]

end EmphasisSpacing
