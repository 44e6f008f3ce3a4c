import Mathlib.Data.List.Pairwise
import EmphasisSpacing.Proofs.Utf8
import EmphasisSpacing.Settings.Layers

/-!
# The laws of a keeper

What settings can rely on is what every keeper has to grant, whatever code it is. `Keeper.Gives` says what
each place gives for a name, from what the keeper was told, the environment and the entries of a settings
file. A name finds the value of the first place that gives one (`Keeper.Finds`), and by the laws of a keeper
(`Keeper.Lawful`) its field is the truth value of that. The laws speak of flat settings files only and of
names that are plain words.

The standard keeper obeys them (`Keeper.lawful_standard`).
-/

namespace EmphasisSpacing

/-- The places where a value can be given. -/
inductive Place where
  | flag
  | environment
  | file
  | standard
  deriving DecidableEq, Repr

/-- How many places come first. -/
def Place.rank : Place → Nat
  | .flag => 0
  | .environment => 1
  | .file => 2
  | .standard => 3

namespace Keeper

variable {Value : Type}

/-! ### What is found -/

section

variable (registrations : List Registration) (env : Environment) (entries : Entries Value)
  (name : Bytes)

/-- What a place gives for a name: a flag that was bound to it, a variable that was bound to it unless it
is empty, an entry of the settings file unless it is null, and the standard. Names are compared in lower
case. -/
inductive Gives : Place → Raw Value → Prop
  | flag {key : Bytes} {b : Bool} (hmem : .bindFlag key b ∈ registrations)
    (hkey : LowerCase.text key = LowerCase.text name) : Gives .flag (.truth b)
  | environment {key v : Bytes} (hmem : .bindVariable key v ∈ registrations)
    (hkey : LowerCase.text key = LowerCase.text name) (hne : env.get v ≠ []) :
    Gives .environment (.word (env.get v))
  | file {key : Bytes} {v : Value} (hmem : (key, some v) ∈ entries)
    (hkey : LowerCase.text key = LowerCase.text name) : Gives .file (.value v)
  | standard {key : Bytes} {b : Bool} (hmem : .standard key b ∈ registrations)
    (hkey : LowerCase.text key = LowerCase.text name) : Gives .standard (.truth b)

/-- A value is found for a name if the first place that gives any gives this one and no other. -/
def Finds (w : Raw Value) : Prop :=
  ∃ place, (∀ w', Gives registrations env entries name place w' ↔ w' = w) ∧
    ∀ above : Place, above.rank < place.rank → ∀ w', ¬ Gives registrations env entries name above w'

end

/-! ### The laws -/

/-- Whether a name is a word of ASCII letters. -/
def IsWord (name : Bytes) : Prop := ∀ b ∈ name, Bytes.isLetter b = true

/-- The entries of a flat mapping. -/
structure IsFlat (isScalar : Value → Prop) (entries : Entries Value) : Prop where
  scalar : ∀ e ∈ entries, ∀ v ∈ e.2, isScalar v
  /-- A dot in a name would lead into another mapping. -/
  dotless : ∀ e ∈ entries, 0x2E ∉ e.1
  /-- No two names differ by case only. -/
  distinct : entries.Pairwise fun e e' => LowerCase.text e.1 ≠ LowerCase.text e'.1
  /-- The long s is an s without case, but not in lower case. -/
  noLongS : ∀ e ∈ entries, 'ſ' ∉ Utf8.decode e.1

theorem IsFlat.eq_of_lowerCase {isScalar : Value → Prop} {entries : Entries Value}
    (h : IsFlat isScalar entries) {e e' : Bytes × Option Value} (he : e ∈ entries) (he' : e' ∈ entries)
    (hname : LowerCase.text e.1 = LowerCase.text e'.1) : e = e' := by
  have : Std.Symm fun e e' : Bytes × Option Value => LowerCase.text e.1 ≠ LowerCase.text e'.1 :=
    ⟨fun _ _ hne => hne.symm⟩
  by_contra hne
  exact h.distinct.forall he he' hne hname

/-- The laws of a keeper: each field is the truth value of what is found for its name, and if there is one
for every field, all are filled in. -/
structure Lawful (keeper : Keeper Value) (isScalar : Value → Prop) : Prop where
  convert_of_decode {registrations : List Registration} {env : Environment} {entries : Entries Value}
    {fields : List Bytes} {values : Bytes → Bool} {field : Bytes} {w : Raw Value}
    (hkeys : ∀ r ∈ registrations, IsWord r.key) (hfields : ∀ field ∈ fields, IsWord field)
    (hflat : IsFlat isScalar entries)
    (hdecode : keeper.decode registrations env entries fields = .ok values)
    (hfield : field ∈ fields) (hfinds : Finds registrations env entries field w) :
    keeper.convert w = .ok (values field)
  exists_decode {registrations : List Registration} {env : Environment} {entries : Entries Value}
    {fields : List Bytes} (hkeys : ∀ r ∈ registrations, IsWord r.key)
    (hfields : ∀ field ∈ fields, IsWord field) (hflat : IsFlat isScalar entries)
    (hvalues : ∀ field ∈ fields, ∃ w b, Finds registrations env entries field w ∧
      keeper.convert w = .ok b) :
    ∃ values, keeper.decode registrations env entries fields = .ok values

end Keeper

/-! ### The standard keeper -/

namespace Layers

open EmphasisSpacing.Keeper

/-- Without a long s, names without case are names in lower case. -/
theorem fold_eq {name : Bytes} (h : 'ſ' ∉ Utf8.decode name) : fold name = LowerCase.text name := by
  have hchar : ∀ c ∈ Utf8.decode name, foldChar c = LowerCase.ofChar c := by
    intro c hc
    refine if_neg fun hlong => h ?_
    have hc' : c = 'ſ' := Char.toNat_inj.mp (beq_iff_eq.mp hlong)
    exact hc' ▸ hc
  rw [fold, LowerCase.text, List.map_congr_left hchar]

theorem noLongS_of_isWord {name : Bytes} (h : IsWord name) : 'ſ' ∉ Utf8.decode name := by
  induction name with
  | nil => exact List.not_mem_nil
  | cons b name ih =>
    obtain ⟨hb, hname⟩ := List.forall_mem_cons.mp h
    have hascii : b < 0x80 := by
      simp only [Bytes.isLetter, Bool.or_eq_true, Bool.and_eq_true, decide_eq_true_eq] at hb
      rcases hb with hb | hb <;> exact UInt8.lt_of_le_of_lt hb.2 (by decide)
    rw [Utf8.decode_cons hascii, List.mem_cons, not_or]
    refine ⟨fun hlong => ?_, ih hname⟩
    have hlt : b.toNat < 0x80 := UInt8.lt_iff_toNat_lt.mp hascii
    have hcode : (Char.ofNat b.toNat).toNat = 0x17F := congrArg Char.toNat hlong.symm
    rw [Utf8.toNat_ofNat_of_ranges (.inl (by omega))] at hcode
    omega

/-- What a place of the layers gives. -/
def given (l : Layers) (name : Bytes) : Place → Option (Raw Yaml.Value)
  | .flag => (l.flag? name).map .truth
  | .environment => (l.word? name).map .word
  | .file => (l.entry? name).map .value
  | .standard => (l.standard? name).map .truth

theorem raw?_eq (l : Layers) (name : Bytes) :
    l.raw? name = (l.given name .flag).or ((l.given name .environment).or
      ((l.given name .file).or (l.given name .standard))) := rfl

section

variable {l : Layers} {name : Bytes} {isScalar : Yaml.Value → Prop} {place : Place}
  {w : Raw Yaml.Value}

theorem sameName_iff {a b : Bytes} (ha : 'ſ' ∉ Utf8.decode a) (hb : 'ſ' ∉ Utf8.decode b) :
    sameName a b = true ↔ LowerCase.text a = LowerCase.text b := by
  rw [sameName, beq_iff_eq, fold_eq ha, fold_eq hb]

theorem entry?_eq_some_iff (hname : IsWord name) (hflat : IsFlat isScalar l.file) {v : Yaml.Value} :
    l.entry? name = some v ↔
      ∃ key, (key, some v) ∈ l.file ∧ LowerCase.text key = LowerCase.text name := by
  have hlower : ∀ e ∈ l.file,
      (sameName e.1 name = true ↔ LowerCase.text e.1 = LowerCase.text name) := fun e he =>
    sameName_iff (hflat.noLongS e he) (noLongS_of_isWord hname)
  unfold entry?
  constructor
  · intro h
    obtain ⟨⟨key, value⟩, hfind, rfl⟩ := Option.bind_eq_some_iff.mp h
    have hmem := List.mem_of_find?_eq_some hfind
    exact ⟨key, hmem, (hlower _ hmem).mp (by simpa using List.find?_some hfind)⟩
  · rintro ⟨key, hmem, hkey⟩
    obtain ⟨e, hfind⟩ : ∃ e, l.file.find? (fun e => sameName e.1 name) = some e :=
      Option.isSome_iff_exists.mp (List.find?_isSome.mpr ⟨_, hmem, (hlower _ hmem).mpr hkey⟩)
    -- No other entry has this name, so it is this one that is looked up.
    have he := List.mem_of_find?_eq_some hfind
    have hsame := (hlower e he).mp (by simpa using List.find?_some hfind)
    rw [hfind, hflat.eq_of_lowerCase he hmem (hsame.trans hkey.symm)]
    rfl

/-- What the layers say in a place is given there. -/
theorem gives_of_given (hkeys : ∀ r ∈ l.registrations, IsWord r.key) (hname : IsWord name)
    (hflat : IsFlat isScalar l.file) (h : l.given name place = some w) :
    Gives l.registrations l.env l.file name place w := by
  have hplain := noLongS_of_isWord hname
  have hlower : ∀ r ∈ l.registrations, sameName r.key name = true →
      LowerCase.text r.key = LowerCase.text name := fun r hr =>
    (sameName_iff (noLongS_of_isWord (hkeys r hr)) hplain).mp
  cases place with
  | flag =>
    obtain ⟨b, hb, rfl⟩ := Option.map_eq_some_iff.mp h
    obtain ⟨r, hr, hvalue⟩ := List.exists_of_findSome?_eq_some hb
    rw [List.mem_reverse] at hr
    split at hvalue
    · split_ifs at hvalue with hsame
      cases hvalue
      exact .flag hr (hlower _ hr hsame)
    · cases hvalue
  | environment =>
    obtain ⟨word, hword, rfl⟩ := Option.map_eq_some_iff.mp h
    obtain ⟨r, hr, hvalue⟩ := List.exists_of_findSome?_eq_some hword
    split at hvalue
    · split_ifs at hvalue with hsame
      cases hvalue
      obtain ⟨hsame, hne⟩ := Bool.and_eq_true_iff.mp hsame
      exact .environment hr (hlower _ hr hsame) (by simpa using hne)
    · cases hvalue
  | file =>
    obtain ⟨v, hv, rfl⟩ := Option.map_eq_some_iff.mp h
    obtain ⟨key, hmem, hkey⟩ := (entry?_eq_some_iff hname hflat).mp hv
    exact .file hmem hkey
  | standard =>
    obtain ⟨b, hb, rfl⟩ := Option.map_eq_some_iff.mp h
    obtain ⟨r, hr, hvalue⟩ := List.exists_of_findSome?_eq_some hb
    rw [List.mem_reverse] at hr
    split at hvalue
    · split_ifs at hvalue with hsame
      cases hvalue
      exact .standard hr (hlower _ hr hsame)
    · cases hvalue

/-- Where something is given, the layers say something. -/
theorem given_ne_none (hkeys : ∀ r ∈ l.registrations, IsWord r.key) (hname : IsWord name)
    (hflat : IsFlat isScalar l.file) (h : Gives l.registrations l.env l.file name place w) :
    l.given name place ≠ none := by
  have hplain := noLongS_of_isWord hname
  have hsame : ∀ r ∈ l.registrations, LowerCase.text r.key = LowerCase.text name →
      sameName r.key name = true := fun r hr =>
    (sameName_iff (noLongS_of_isWord (hkeys r hr)) hplain).mpr
  intro hnone
  cases h with
  | @flag key b hmem hkey =>
    have hfirst := List.findSome?_eq_none_iff.mp (Option.map_eq_none_iff.mp hnone) _
      (List.mem_reverse.mpr hmem)
    have hkey : sameName key name = true := hsame _ hmem hkey
    simp [hkey] at hfirst
  | @environment key v hmem hkey hne =>
    have hfirst := List.findSome?_eq_none_iff.mp (Option.map_eq_none_iff.mp hnone) _ hmem
    have hkey : sameName key name = true := hsame _ hmem hkey
    simp [hkey, hne] at hfirst
  | file hmem hkey =>
    rw [given, (entry?_eq_some_iff hname hflat).mpr ⟨_, hmem, hkey⟩] at hnone
    cases hnone
  | @standard key b hmem hkey =>
    have hfirst := List.findSome?_eq_none_iff.mp (Option.map_eq_none_iff.mp hnone) _
      (List.mem_reverse.mpr hmem)
    have hkey : sameName key name = true := hsame _ hmem hkey
    simp [hkey] at hfirst

/-- **The layers look up what is found.** -/
theorem raw?_of_finds (hkeys : ∀ r ∈ l.registrations, IsWord r.key) (hname : IsWord name)
    (hflat : IsFlat isScalar l.file) (h : Finds l.registrations l.env l.file name w) :
    l.raw? name = some w := by
  obtain ⟨place, hgives, habove⟩ := h
  have hplace : l.given name place = some w := by
    obtain ⟨w', hw'⟩ := Option.ne_none_iff_exists'.mp
      (given_ne_none hkeys hname hflat ((hgives w).mpr rfl))
    rw [hw', (hgives w').mp (gives_of_given hkeys hname hflat hw')]
  have hnone : ∀ above : Place, above.rank < place.rank → l.given name above = none := by
    intro above hrank
    cases hgiven : l.given name above with
    | none => rfl
    | some w' => exact absurd (gives_of_given hkeys hname hflat hgiven) (habove above hrank w')
  rw [raw?_eq]
  cases place with
  | flag => rw [hplace, Option.some_or]
  | environment => rw [hnone .flag (by decide), hplace, Option.none_or, Option.some_or]
  | file =>
    rw [hnone .flag (by decide), hnone .environment (by decide), hplace, Option.none_or,
      Option.none_or, Option.some_or]
  | standard =>
    rw [hnone .flag (by decide), hnone .environment (by decide), hnone .file (by decide), hplace,
      Option.none_or, Option.none_or, Option.none_or]

end

end Layers

open Layers in
/-- **The standard keeper obeys the laws.** -/
theorem Keeper.lawful_standard :
    Keeper.standard.Lawful fun v => v ≠ .list ∧ v ≠ .map where
  convert_of_decode := by
    intro registrations env entries fields values field w hkeys hfields hflat hdecode hfield hfinds
    have hraw := raw?_of_finds (l := ⟨registrations, env, entries⟩) hkeys (hfields field hfield)
      hflat hfinds
    change Layers.decode registrations env entries fields = .ok values at hdecode
    simp only [Layers.decode] at hdecode
    split at hdecode
    · next hnil =>
      cases hdecode
      have hfault := List.filterMap_eq_nil_iff.mp hnil field hfield
      show Layers.convert w = _
      rw [fault?, hraw] at hfault
      rw [Layers.truth, hraw]
      cases hw : Layers.convert w with
      | ok b => simp [hw]
      | error e => simp [hw] at hfault
    · cases hdecode
  exists_decode := by
    intro registrations env entries fields hkeys hfields hflat hvalues
    refine ⟨(⟨registrations, env, entries⟩ : Layers).truth, ?_⟩
    have hnil : fields.filterMap (⟨registrations, env, entries⟩ : Layers).fault? = [] := by
      rw [List.filterMap_eq_nil_iff]
      intro field hfield
      obtain ⟨w, b, hfinds, hw⟩ := hvalues field hfield
      have hconvert : Layers.convert w = .ok b := hw
      rw [fault?, raw?_of_finds (l := ⟨registrations, env, entries⟩) hkeys (hfields field hfield)
        hflat hfinds, Option.map_some, hconvert]
    show Layers.decode registrations env entries fields = _
    simp only [Layers.decode, hnil]

end EmphasisSpacing
