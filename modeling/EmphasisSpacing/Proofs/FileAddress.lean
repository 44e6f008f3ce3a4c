import EmphasisSpacing.Inputs.Source
import EmphasisSpacing.Report.Link
import EmphasisSpacing.Proofs.CleanPath
import EmphasisSpacing.Proofs.PercentCoding
import EmphasisSpacing.Proofs.WhiteSpace

/-!
# The address of a file, given back as an argument

The link of a hint is the address of a local file. When such an address is given as an argument, nothing
is trimmed from it, and it is read as an address without host and query whose decoded path is the path of
the file (`Address.read_fileAddress`).

But the path of an address is decoded once more before it is used. So the argument names the file of the
link unless its path itself looks like an encoded one: unless it has percent signs, and two hexadecimal
digits follow every one of them (`Source.ofArgument?_target`). Then each of these escapes becomes one
byte, and another file is named (`Source.ofArgument?_target_escape`).
-/

namespace EmphasisSpacing

/-! ### Encoded paths -/

theorem WhiteSpace.trim_of_isSolid {s : Bytes} (hs : ∀ b ∈ s, isSolid b = true) : trim s = s := by
  by_cases hne : s = []
  · rw [hne]
    rfl
  · have hfront := List.head?_eq_some_head hne
    have hback := List.getLast?_eq_some_getLast hne
    have htrim := trim_between .nil .nil (hs _ (List.head_mem hne)) (hs _ (List.getLast_mem hne))
      hfront hback
    rwa [List.nil_append, List.append_nil] at htrim

theorem Percent.isSolid_of_isWritten (b : UInt8) (h : isWritten b = true) :
    WhiteSpace.isSolid b = true := by
  revert h
  refine forall_byte (P := fun b => isWritten b = true → WhiteSpace.isSolid b = true) ?_ b
  decide +kernel

namespace Link

/-- What stands in front of the path in the address of a file. -/
theorem bytes_file : bytes "file://" = [0x66, 0x69, 0x6C, 0x65, 0x3A, 0x2F, 0x2F] := by decide

theorem isWritten_of_mem_fileAddress {p : Bytes} {b : UInt8} (h : b ∈ fileAddress p) :
    Percent.isWritten b = true := by
  rcases List.mem_append.mp h with h | h
  · have hall : ∀ b ∈ bytes "file://", Percent.isWritten b = true := by
      rw [bytes_file]
      decide +kernel
    exact hall b h
  · exact Percent.isWritten_of_mem_encode h

theorem trim_fileAddress (p : Bytes) : WhiteSpace.trim (fileAddress p) = fileAddress p :=
  WhiteSpace.trim_of_isSolid fun b hb =>
    Percent.isSolid_of_isWritten b (isWritten_of_mem_fileAddress hb)

theorem fileAddress_injective {p q : Bytes} (h : fileAddress p = fileAddress q) : p = q :=
  Percent.encode_injective (List.append_cancel_left h)

/-- A location with an absolute path links to the file. -/
theorem target_of_isAbsolute {p : Bytes} (cwd : Bytes) (hp : Path.isAbsolute p = true) :
    target cwd p = fileAddress (Path.clean p) := by
  obtain ⟨s, rfl⟩ := Path.exists_of_isAbsolute hp
  have hhyphen : (Bytes.slash :: s == bytes "-") = false := by
    cases s <;> rfl
  rw [target, hhyphen, Path.absolute, if_pos hp]
  rfl

end Link

/-! ### Reading the address of a file -/

namespace Address

theorem splitScheme_file (s : Bytes) :
    splitScheme (bytes "file://" ++ s) = .ok (bytes "file", Bytes.slash :: Bytes.slash :: s) := by
  rw [Link.bytes_file]
  rfl

/-- An address of a file with an encoded path: there is no host in front of the path. -/
theorem readPlain_file {s p : Bytes}
    (hcontrol : (bytes "file://" ++ Bytes.slash :: s).any (fun b => b < 0x20 || b == 0x7F) = false)
    (hquery : 0x3F ∉ s) (hdecode : decodePart .path (Bytes.slash :: s) = .ok p)
    (hencode : Percent.encode .path p = Bytes.slash :: s) :
    readPlain (bytes "file://" ++ Bytes.slash :: s) =
      .ok { blank with scheme := bytes "file", path := p } := by
  have hstar : (bytes "file://" ++ Bytes.slash :: s == [Bytes.star]) = false := by
    rw [Link.bytes_file]
    rfl
  have hsplit : splitQuery (Bytes.slash :: Bytes.slash :: Bytes.slash :: s) =
      (Bytes.slash :: Bytes.slash :: Bytes.slash :: s, [], false) := by
    rw [splitQuery, Bytes.cutAt_of_notMem (by simpa [Bytes.slash] using hquery)]
  have hrooted : isRooted (Bytes.slash :: Bytes.slash :: Bytes.slash :: s) = true := rfl
  have hslashes : Bytes.startsWith (Bytes.slash :: Bytes.slash :: Bytes.slash :: s)
      [Bytes.slash, Bytes.slash] = true := rfl
  have hspan : (Bytes.slash :: s).span (· != Bytes.slash) = ([], Bytes.slash :: s) := rfl
  have hauthority : readAuthority [] = .ok (none, []) := rfl
  have hscheme : (bytes "file").isEmpty = false := rfl
  have hlower : (bytes "file").map Bytes.lowerAscii = bytes "file" := by decide
  rw [readPlain, hcontrol, hstar]
  simp only [Bool.false_eq_true, ↓reduceIte, splitScheme_file, hsplit, bind, Except.bind, hrooted,
    hslashes, hscheme, Bool.not_true, Bool.not_false, Bool.true_or, Bool.and_true,
    List.drop_succ_cons, List.drop_zero, hspan, hauthority, hlower]
  rw [withPath, hdecode, hencode.symm]
  simp only [bind, Except.bind, BEq.rfl, ↓reduceIte]
  rfl

/-- **The address of a file is read as the path of the file.** -/
theorem read_fileAddress {p : Bytes} (hp : Path.isAbsolute p = true) :
    read (Link.fileAddress p) = .ok { blank with scheme := bytes "file", path := p } := by
  have hwritten : ∀ b ∈ Link.fileAddress p, 0x20 < b ∧ b < 0x7F ∧ b ≠ 0x23 ∧ b ≠ 0x3F :=
    fun b hb => Percent.isWritten_spec b (Link.isWritten_of_mem_fileAddress hb)
  have hcontrol : (Link.fileAddress p).any (fun b => b < 0x20 || b == 0x7F) = false := by
    rw [List.any_eq_false]
    intro b hb
    obtain ⟨hlow, hhigh, -, -⟩ := hwritten b hb
    simp only [Bool.or_eq_true, decide_eq_true_eq, beq_iff_eq, not_or]
    exact ⟨UInt8.not_lt.mpr (UInt8.le_of_lt hlow), UInt8.ne_of_lt hhigh⟩
  have hfragment : cutOr 0x23 (Link.fileAddress p) = (Link.fileAddress p, []) := by
    rw [cutOr, Bytes.cutAt_of_notMem fun hmem => (hwritten _ hmem).2.2.1 rfl]
    rfl
  -- The slash in front of the path stays as it is, so that no host is read.
  obtain ⟨q, rfl⟩ := Path.exists_of_isAbsolute hp
  have hslash : Percent.encode .path (Bytes.slash :: q) = Bytes.slash :: Percent.encode .path q := rfl
  have hquery : 0x3F ∉ Percent.encode .path q := by
    intro hmem
    refine (hwritten 0x3F (List.mem_append_right _ ?_)).2.2.2 rfl
    rw [hslash]
    exact List.mem_cons_of_mem _ hmem
  have hdecode : decodePart .path (Bytes.slash :: Percent.encode .path q) = .ok (Bytes.slash :: q) := by
    rw [decodePart, ← hslash, Percent.decode_encode]
    rfl
  have hplain : readPlain (Link.fileAddress (Bytes.slash :: q)) =
      .ok { blank with scheme := bytes "file", path := Bytes.slash :: q } :=
    readPlain_file hcontrol hquery hdecode hslash
  rw [read, hfragment]
  dsimp only
  rw [hplain]
  rfl

end Address

/-! ### The address of a file as an argument -/

namespace Source

variable {env : Environment} {cwd p : Bytes}

/-- An absolute path is looked up where it is. -/
theorem localPath_of_isAbsolute (hp : Path.isAbsolute p = true) :
    localPath env cwd p = Path.clean p := by
  obtain ⟨s, rfl⟩ := Path.exists_of_isAbsolute hp
  have hhome : expandHome env (Bytes.slash :: s) = Bytes.slash :: s := by
    unfold expandHome
    dsimp only
    split_ifs
    · rfl
    · rfl
  rw [localPath, hhome, Path.absolute, if_pos hp]

theorem ofArgument?_fileAddress (hp : Path.isAbsolute p = true) :
    ofArgument? env cwd (Link.fileAddress p) =
      some (atPath env cwd
        (pathOfAddress { Address.blank with scheme := bytes "file", path := p })) := by
  have hempty : (Link.fileAddress p).isEmpty = false := by
    rw [Link.fileAddress, Link.bytes_file]
    rfl
  have hhyphen : (Link.fileAddress p == bytes "-") = false := by
    rw [Link.fileAddress, Link.bytes_file]
    rfl
  rw [ofArgument?, Link.trim_fileAddress]
  dsimp only
  rw [hempty, hhyphen, Address.read_fileAddress hp]
  rfl

theorem pathOfAddress_of_ok {a : Address} {d : Bytes} (ha : a.path ≠ [])
    (hd : Percent.decode .path a.path = .ok d) : pathOfAddress a = d := by
  rw [pathOfAddress, if_neg (by simpa using ha), hd]

theorem pathOfAddress_of_error {a : Address} {e : Percent.DecodeError} (ha : a.path ≠ [])
    (he : Percent.decode .path a.path = .error e) : pathOfAddress a = a.path := by
  rw [pathOfAddress, if_neg (by simpa using ha), he]

/-- What is decoded of an absolute path is absolute. -/
theorem isAbsolute_of_decode {d : Bytes} (hp : Path.isAbsolute p = true)
    (h : Percent.decode .path p = .ok d) : Path.isAbsolute d = true := by
  obtain ⟨s, rfl⟩ := Path.exists_of_isAbsolute hp
  rw [Percent.decode_cons (by decide)] at h
  cases hs : Percent.decode .path s with
  | error e =>
    rw [hs] at h
    cases h
  | ok t =>
    rw [hs] at h
    cases h
    rfl

/-- **The address of a file names the file again, unless its path looks like an encoded one.** Whatever
absolute and clean path a location has, its link given back as an argument is a local path. It is the
path of the location exactly if that has no percent sign, or one without two hexadecimal digits behind
it; and otherwise it is the path that comes of decoding it. -/
theorem ofArgument?_target (env : Environment) (cwd cwd' : Bytes) (hp : Path.IsRooted p) :
    ∃ name, ofArgument? env cwd (Link.target cwd' p) = some (.file name (Path.clean name)) ∧
      (Path.clean name = p ↔ (Percent.sign ∈ p → ¬ Percent.WellEscaped p)) ∧
      (Percent.decode .path p = .ok name ∨ ¬ Percent.WellEscaped p ∧ name = p) := by
  obtain ⟨habsolute, hclean⟩ := hp
  have hne : p ≠ [] := by
    rintro rfl
    cases habsolute
  have hsource : ∀ name, Path.isAbsolute name = true →
      pathOfAddress { Address.blank with scheme := bytes "file", path := p } = name →
      ofArgument? env cwd (Link.target cwd' p) = some (.file name (Path.clean name)) := by
    rintro name hname rfl
    rw [Link.target_of_isAbsolute cwd' habsolute, hclean, ofArgument?_fileAddress habsolute, atPath,
      localPath_of_isAbsolute hname]
  cases hdecode : Percent.decode .path p with
  | error e =>
    have hbad : ¬ Percent.WellEscaped p := by
      rw [← Percent.decode_isOk_iff, hdecode]
      simp
    refine ⟨p, hsource p habsolute (pathOfAddress_of_error hne hdecode), ?_, .inr ⟨hbad, rfl⟩⟩
    exact ⟨fun _ _ => hbad, fun _ => hclean⟩
  | ok name =>
    have hname := isAbsolute_of_decode habsolute hdecode
    refine ⟨name, hsource name hname (pathOfAddress_of_ok hne hdecode), ?_, .inl rfl⟩
    by_cases hsign : Percent.sign ∈ p
    · -- The decoded path is shorter, and cleaning makes it no longer.
      have hgood : Percent.WellEscaped p := (Percent.decode_isOk_iff p).mp ⟨name, hdecode⟩
      have hshorter := Percent.length_decode_lt hdecode hsign
      have hlength := Path.length_clean_le hname
      refine ⟨fun heq => ?_, fun h => absurd hgood (h hsign)⟩
      rw [heq] at hlength
      omega
    · rw [Percent.decode_of_notMem hsign] at hdecode
      cases hdecode
      exact ⟨fun _ h => absurd h hsign, fun _ => hclean⟩

/-- Blanks, signs and letters of all kinds, and a percent sign that starts no escape. -/
theorem ofArgument?_target_signs :
    let p := bytes "/work/中 文?x=1#%zz.md"
    Path.IsRooted p ∧ ¬ Percent.WellEscaped p ∧
      ∃ name, ofArgument? [] (bytes "/") (Link.target (bytes "/work") p) = some (.file name p) := by
  intro p
  have hp : Path.IsRooted p := ⟨by decide +kernel, by decide +kernel⟩
  have hbad : ¬ Percent.WellEscaped p := by
    intro h
    obtain ⟨a, b, more, hrest, ha, -⟩ := h (bytes "/work/中 文?x=1#") (bytes "zz.md") (by decide +kernel)
    have hz : a = 0x7A := (List.cons.inj hrest).1.symm
    subst hz
    exact absurd ha (by unfold Percent.IsHex; decide)
  obtain ⟨name, hname, hsame, -⟩ := ofArgument?_target [] (bytes "/") (bytes "/work") hp
  rw [hsame.mpr fun _ => hbad] at hname
  exact ⟨hp, hbad, name, hname⟩

/-- **A path with an escape in it is not found again.** The link names the file, and the link as an
argument names another one. -/
theorem ofArgument?_target_escape :
    let p := bytes "/work/a%41.md"
    Path.IsRooted p ∧ Link.target (bytes "/work") p = bytes "file:///work/a%2541.md" ∧
      ofArgument? [] (bytes "/work") (Link.target (bytes "/work") p) =
        some (.file (bytes "/work/aA.md") (bytes "/work/aA.md")) := by
  exact ⟨⟨by decide +kernel, by decide +kernel⟩, by decide +kernel, by decide +kernel⟩

end Source

end EmphasisSpacing
