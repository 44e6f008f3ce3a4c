import EmphasisSpacing.Files.Path
import EmphasisSpacing.Proofs.Splitting

/-!
# Clean paths

What cleaning leaves of a path are names, and steps up in front of them when the path is relative
(`Path.Resolved`); so nothing is left to clean (`Path.clean_ofParts`), and names that are joined to a
path are its last parts (`Path.join_names`).

A path that is absolute and clean spells the names of the entries on the way to it, and nothing else
(`Path.IsRooted`). Two such paths with the same parts are the same path (`Path.IsRooted.ext`), so that
different paths of this kind never lead to the same place. Every path that the library hands to the
file system is of this kind: `Path.isRooted_absolute`, `Path.isRooted_join` and
`Path.isRooted_directory`.

Cleaning goes together with the other operations: a path may be cleaned before it is joined to another one
(`Path.resolve_resolve`, `Path.absolute_join_names`), and it never gets longer (`Path.length_clean_le`).
-/

namespace EmphasisSpacing

namespace Path

/-- Whether a part of a path names an entry of a folder. -/
def IsName (q : Bytes) : Prop := q ≠ [] ∧ q ≠ dot ∧ q ≠ dotDot ∧ Bytes.slash ∉ q

section

variable {q : Bytes}

theorem IsName.not_skipped (h : IsName q) : ¬ (q.isEmpty || q == dot) = true := by
  simp [h.1, h.2.1]

theorem IsName.not_up (h : IsName q) : ¬ (q == dotDot) = true := by
  simp [h.2.2.1]

end

/-! ### Resolving parts -/

/-- What parts are resolved to, backwards: names, and behind them steps up, of which there are none
below the root. -/
def Resolved (rooted : Bool) (done : List Bytes) : Prop :=
  ∃ names k, done = names ++ List.replicate k dotDot ∧ (∀ q ∈ names, IsName q) ∧
    (rooted = true → k = 0)

section

variable {rooted : Bool} {done names parts : List Bytes} {p : Bytes}

theorem Resolved.of_names (hnames : ∀ q ∈ names, IsName q) : Resolved rooted names :=
  ⟨names, 0, (List.append_nil names).symm, hnames, fun _ => rfl⟩

theorem Resolved.append (hnames : ∀ q ∈ names, IsName q) (h : Resolved rooted done) :
    Resolved rooted (names ++ done) := by
  obtain ⟨front, k, rfl, hfront, hk⟩ := h
  refine ⟨names ++ front, k, (List.append_assoc ..).symm, ?_, hk⟩
  exact List.forall_mem_append.mpr ⟨hnames, hfront⟩

/-- Below the root only names are left. -/
theorem Resolved.isName (h : Resolved true done) : ∀ q ∈ done, IsName q := by
  obtain ⟨names, k, rfl, hnames, hk⟩ := h
  rw [hk rfl, List.replicate_zero, List.append_nil]
  exact hnames

theorem Resolved.slash_notMem (h : Resolved rooted done) : ∀ q ∈ done, Bytes.slash ∉ q := by
  obtain ⟨names, k, rfl, hnames, -⟩ := h
  intro q hq
  rcases List.mem_append.mp hq with hq | hq
  · exact (hnames q hq).2.2.2
  · rw [List.eq_of_mem_replicate hq]
    decide

theorem Resolved.ne_nil (h : Resolved rooted done) : ∀ q ∈ done, q ≠ [] := by
  obtain ⟨names, k, rfl, hnames, -⟩ := h
  intro q hq
  rcases List.mem_append.mp hq with hq | hq
  · exact (hnames q hq).1
  · rw [List.eq_of_mem_replicate hq]
    decide

theorem resolve_skipped (hp : (p.isEmpty || p == dot) = true) :
    resolve rooted done (p :: parts) = resolve rooted done parts := by
  rw [resolve.eq_def]
  exact if_pos hp

theorem resolve_pushed (hskip : ¬ (p.isEmpty || p == dot) = true) (hup : ¬ (p == dotDot) = true) :
    resolve rooted done (p :: parts) = resolve rooted (p :: done) parts := by
  rw [resolve.eq_def]
  exact (if_neg hskip).trans (if_neg hup)

theorem resolve_name (hp : IsName p) :
    resolve rooted done (p :: parts) = resolve rooted (p :: done) parts :=
  resolve_pushed hp.not_skipped hp.not_up

/-- Going up takes back the last name. Without one it is a step more above a relative path, and above
the root there is nothing. -/
theorem exists_resolve_up (h : Resolved rooted done) :
    ∃ done', Resolved rooted done' ∧
      ∀ parts, resolve rooted done (dotDot :: parts) = resolve rooted done' parts := by
  obtain ⟨names, k, rfl, hnames, hk⟩ := h
  cases names with
  | cons d names =>
    rw [List.forall_mem_cons] at hnames
    refine ⟨names ++ List.replicate k dotDot, ⟨names, k, rfl, hnames.2, hk⟩, fun parts => ?_⟩
    show resolve rooted (if d == dotDot then _ else _) parts = _
    rw [if_neg hnames.1.not_up]
    rfl
  | nil =>
    cases k with
    | zero =>
      cases rooted with
      | true => exact ⟨[], .of_names (by simp), fun parts => rfl⟩
      | false => exact ⟨[dotDot], ⟨[], 1, rfl, by simp, by simp⟩, fun parts => rfl⟩
    | succ k =>
      exact ⟨List.replicate (k + 2) dotDot, ⟨[], k + 2, rfl, by simp, fun h => absurd (hk h) (by simp)⟩,
        fun parts => rfl⟩

/-- **Only names are left, and steps up in front of them.** -/
theorem resolved_resolve (h : Resolved rooted done) (hparts : ∀ q ∈ parts, Bytes.slash ∉ q) :
    Resolved rooted (resolve rooted done parts) := by
  induction parts generalizing done with
  | nil => rwa [resolve]
  | cons p parts ih =>
    rw [List.forall_mem_cons] at hparts
    by_cases hskip : (p.isEmpty || p == dot) = true
    · rw [resolve_skipped hskip]
      exact ih h hparts.2
    by_cases hup : p = dotDot
    · obtain ⟨done', hdone', hresolve⟩ := exists_resolve_up h
      rw [hup, hresolve]
      exact ih hdone' hparts.2
    -- What is neither passed over nor goes up is a name.
    have hname : IsName p := by
      rw [Bool.or_eq_true, not_or, beq_iff_eq, List.isEmpty_iff] at hskip
      exact ⟨hskip.1, hskip.2, hup, hparts.1⟩
    rw [resolve_name hname]
    have hdone : Resolved rooted ([p] ++ done) := h.append (by simpa using hname)
    exact ih hdone hparts.2

/-- Parts are resolved one after the other. -/
theorem resolve_append (front : List Bytes) :
    resolve rooted done (front ++ parts) = resolve rooted (resolve rooted done front) parts := by
  induction front generalizing done with
  | nil => rw [List.nil_append, resolve.eq_def rooted done []]
  | cons p front ih =>
    rw [List.cons_append]
    by_cases hskip : (p.isEmpty || p == dot) = true
    · rw [resolve_skipped hskip, resolve_skipped hskip, ih]
    by_cases hup : p = dotDot
    · subst hup
      cases done <;> exact ih
    · have hup' : ¬ (p == dotDot) = true := by simpa using hup
      rw [resolve_pushed hskip hup', resolve_pushed hskip hup', ih]

/-- Names stay as they are. -/
theorem resolve_names (hnames : ∀ q ∈ names, IsName q) :
    resolve rooted done names = names.reverse ++ done := by
  induction names generalizing done with
  | nil => rw [resolve, List.reverse_nil, List.nil_append]
  | cons q names ih =>
    rw [resolve_name (hnames q (List.mem_cons_self ..)),
      ih fun r hr => hnames r (List.mem_cons_of_mem _ hr), List.reverse_cons, List.append_assoc,
      List.singleton_append]

theorem resolve_ups (j k : Nat) :
    resolve false (List.replicate j dotDot) (List.replicate k dotDot) =
      List.replicate (j + k) dotDot := by
  induction k generalizing j with
  | zero => rfl
  | succ k ih =>
    have hstep : resolve false (List.replicate j dotDot) (List.replicate (k + 1) dotDot) =
        resolve false (List.replicate (j + 1) dotDot) (List.replicate k dotDot) := by
      cases j <;> rfl
    rw [hstep, ih, Nat.add_right_comm, Nat.add_assoc]

/-- **What is resolved stays as it is.** -/
theorem Resolved.resolve_reverse (h : Resolved rooted done) :
    resolve rooted [] done.reverse = done := by
  obtain ⟨names, k, rfl, hnames, hk⟩ := h
  have hups : resolve rooted [] (List.replicate k dotDot) = List.replicate k dotDot := by
    cases rooted with
    | true => rw [hk rfl]; rfl
    | false => simpa using resolve_ups 0 k
  rw [List.reverse_append, List.reverse_replicate, resolve_append, hups,
    resolve_names fun q hq => hnames q (List.mem_reverse.mp hq), List.reverse_reverse]

end

theorem resolved_parts (p : Bytes) : Resolved (isAbsolute p) (parts p).reverse := by
  rw [parts, List.reverse_reverse]
  exact resolved_resolve (.of_names (by simp)) fun _ hq => Bytes.notMem_of_mem_splitOn hq

theorem resolved_append (p : Bytes) {names : List Bytes} (hnames : ∀ q ∈ names, IsName q) :
    Resolved (isAbsolute p) (parts p ++ names).reverse := by
  rw [List.reverse_append]
  exact (resolved_parts p).append fun q hq => hnames q (List.mem_reverse.mp hq)

theorem isName_of_mem_parts {p q : Bytes} (hp : isAbsolute p = true) (hq : q ∈ parts p) :
    IsName q := by
  have hresolved := resolved_parts p
  rw [hp] at hresolved
  exact hresolved.isName q (List.mem_reverse.mpr hq)

/-! ### From parts to paths and back -/

section

variable {rooted : Bool} {names ps : List Bytes} {name : Bytes}

theorem splitOn_ofParts (hnames : ∀ q ∈ names, IsName q) :
    (ofParts true names).splitOn Bytes.slash = [] :: if names = [] then [[]] else names := by
  have hroot := Bytes.splitOn_append_cons Bytes.slash [] (Bytes.joinWith [Bytes.slash] names)
  rw [List.nil_append] at hroot
  rw [ofParts, if_pos rfl, hroot]
  split_ifs with hne
  · rw [hne]
    rfl
  · rw [Bytes.splitOn_joinWith hne fun q hq => (hnames q hq).2.2.2]
    rfl

theorem exists_of_isAbsolute {p : Bytes} (hp : isAbsolute p = true) : ∃ s, p = Bytes.slash :: s := by
  cases p with
  | nil => cases hp
  | cons c s => exact ⟨s, by rw [Option.some.inj (beq_iff_eq.mp hp)]⟩

theorem isAbsolute_append {p : Bytes} (hp : p ≠ []) (t : Bytes) :
    isAbsolute (p ++ t) = isAbsolute p := by
  obtain ⟨b, p, rfl⟩ := List.exists_cons_of_ne_nil hp
  rfl

theorem isAbsolute_eq_false {p : Bytes} (hp : Bytes.slash ∉ p) : isAbsolute p = false := by
  rw [isAbsolute, beq_eq_false_iff_ne]
  exact fun h => hp (List.mem_of_mem_head? h)

theorem isAbsolute_joinWith (h : ∀ q ∈ ps, q ≠ [] ∧ Bytes.slash ∉ q) :
    isAbsolute (Bytes.joinWith [Bytes.slash] ps) = false := by
  cases ps with
  | nil => rfl
  | cons p ps =>
    obtain ⟨hne, hslash⟩ := h p (List.mem_cons_self ..)
    cases ps with
    | nil => exact isAbsolute_eq_false hslash
    | cons q qs =>
      rw [Bytes.joinWith, List.append_assoc, isAbsolute_append hne, isAbsolute_eq_false hslash]

theorem isAbsolute_ofParts (h : Resolved rooted ps.reverse) :
    isAbsolute (ofParts rooted ps) = rooted := by
  rw [ofParts]
  split_ifs with hrooted hempty
  · rw [hrooted]
    rfl
  · rw [Bool.not_eq_true] at hrooted
    rw [hrooted]
    rfl
  · rw [Bool.not_eq_true] at hrooted
    rw [hrooted]
    refine isAbsolute_joinWith fun q hq => ?_
    rw [← List.mem_reverse] at hq
    exact ⟨h.ne_nil q hq, h.slash_notMem q hq⟩

/-- **A path that was made of resolved parts has just these parts.** -/
theorem parts_ofParts (h : Resolved rooted ps.reverse) : parts (ofParts rooted ps) = ps := by
  have hresolve : (resolve rooted [] ps).reverse = ps := by
    rw [← ps.reverse_reverse, h.resolve_reverse, List.reverse_reverse]
  rw [parts, isAbsolute_ofParts h]
  cases rooted with
  | true =>
    rw [splitOn_ofParts fun q hq => h.isName q (List.mem_reverse.mpr hq)]
    rw [resolve_skipped (by simp)]
    split_ifs with hempty
    · rw [hempty]
      rfl
    · exact hresolve
  | false =>
    rw [ofParts, if_neg Bool.false_ne_true]
    split_ifs with hempty
    · rw [List.isEmpty_iff.mp hempty]
      rfl
    · rw [Bytes.splitOn_joinWith (by simpa using hempty) fun q hq =>
        h.slash_notMem q (List.mem_reverse.mpr hq)]
      exact hresolve

/-- Nothing is left to clean. -/
theorem clean_ofParts (h : Resolved rooted ps.reverse) :
    clean (ofParts rooted ps) = ofParts rooted ps := by
  rw [clean, isAbsolute_ofParts h, parts_ofParts h]

/-- **Names that are joined to a path are its last parts.** -/
theorem join_names (p : Bytes) (hne : names ≠ []) (hnames : ∀ q ∈ names, IsName q) :
    join [p, Bytes.joinWith [Bytes.slash] names] = ofParts (isAbsolute p) (parts p ++ names) := by
  have hslash : ∀ q ∈ names, Bytes.slash ∉ q := fun q hq => (hnames q hq).2.2.2
  have hsplit : (Bytes.joinWith [Bytes.slash] names).splitOn Bytes.slash = names :=
    Bytes.splitOn_joinWith hne hslash
  have hjoined : Bytes.joinWith [Bytes.slash] names ≠ [] := by
    intro hnil
    rw [hnil] at hsplit
    exact (hnames [] (by rw [← hsplit]; exact List.mem_singleton_self _)).1 rfl
  by_cases hp : p = []
  · have hjoin : join [p, Bytes.joinWith [Bytes.slash] names] =
        clean (Bytes.joinWith [Bytes.slash] names) := by
      simp [join, hp, hjoined, Bytes.joinWith]
    have hofParts : ofParts false names = Bytes.joinWith [Bytes.slash] names := by
      rw [ofParts, if_neg Bool.false_ne_true, if_neg (by simpa using hne)]
    rw [hjoin, hp, ← hofParts]
    exact clean_ofParts (.of_names fun q hq => hnames q (List.mem_reverse.mp hq))
  · have hjoin : join [p, Bytes.joinWith [Bytes.slash] names] =
        clean (p ++ Bytes.slash :: Bytes.joinWith [Bytes.slash] names) := by
      simp [join, hp, hjoined, Bytes.joinWith]
    -- Names are neither skipped nor do they lead up, so resolving only adds them.
    have hparts : parts (p ++ Bytes.slash :: Bytes.joinWith [Bytes.slash] names) =
        parts p ++ names := by
      rw [parts, isAbsolute_append hp, Bytes.splitOn_append_cons, hsplit, resolve_append,
        resolve_names hnames, List.reverse_append, List.reverse_reverse, parts]
    rw [hjoin, clean, isAbsolute_append hp, hparts]

/-- A name at the end keeps its slashes in front. -/
theorem base_append (front : Bytes) (hname : IsName name) :
    base (front ++ name) =
      ((Bytes.cutAtLast Bytes.slash (front ++ name)).map Prod.snd).getD (front ++ name) := by
  obtain ⟨b, init, hinit⟩ := List.exists_cons_of_ne_nil (List.reverse_ne_nil_iff.mpr hname.1)
  have hb : b ≠ Bytes.slash := by
    rintro rfl
    exact hname.2.2.2 (List.mem_reverse.mp (by rw [hinit]; exact List.mem_cons_self ..))
  have hstripped : ((front ++ name).reverse.dropWhile (· == Bytes.slash)).reverse = front ++ name := by
    rw [List.reverse_append, hinit, List.cons_append, List.dropWhile_cons_of_neg (by simpa using hb),
      ← List.cons_append, ← hinit, ← List.reverse_append, List.reverse_reverse]
  have hne : ¬ (front ++ name).isEmpty = true := by simp [hname.1]
  rw [base, if_neg hne, hstripped]
  simp only [if_neg hne]
  cases Bytes.cutAtLast Bytes.slash (front ++ name) <;> rfl

/-- **The last part of a path is the name at its end.** -/
theorem base_ofParts (hname : IsName name) : base (ofParts rooted (ps ++ [name])) = name := by
  have hslash : Bytes.slash ∉ name := hname.2.2.2
  have halone : base name = name := by
    have h := base_append [] hname
    rwa [List.nil_append, Bytes.cutAtLast_of_notMem hslash] at h
  have hbehind : ∀ front, base (front ++ Bytes.slash :: name) = name := by
    intro front
    have h := base_append (front ++ [Bytes.slash]) hname
    rwa [List.append_assoc, List.singleton_append, Bytes.cutAtLast_append hslash] at h
  by_cases hps : ps = []
  · subst hps
    cases rooted with
    | true => exact hbehind []
    | false => exact halone
  · have hjoin := Bytes.joinWith_concat [Bytes.slash] hps name
    rw [List.append_assoc, List.singleton_append] at hjoin
    cases rooted with
    | true =>
      rw [ofParts, if_pos rfl, hjoin]
      exact hbehind (Bytes.slash :: _)
    | false =>
      rw [ofParts, if_neg Bool.false_ne_true, if_neg (by simp), hjoin]
      exact hbehind _

end

/-! ### Absolute and clean -/

/-- Whether a path is absolute and as short as it can be. -/
def IsRooted (p : Bytes) : Prop := isAbsolute p = true ∧ clean p = p

section

variable {p q cwd root : Bytes}

theorem IsRooted.isName (h : IsRooted p) : ∀ q ∈ parts p, IsName q :=
  fun _ hq => isName_of_mem_parts h.1 hq

theorem IsRooted.eq_ofParts (h : IsRooted p) : p = ofParts true (parts p) := by
  have hclean := h.2
  rw [clean, h.1] at hclean
  exact hclean.symm

/-- **A rooted path is told by its parts.** -/
theorem IsRooted.ext (hp : IsRooted p) (hq : IsRooted q) (h : parts p = parts q) : p = q := by
  rw [hp.eq_ofParts, hq.eq_ofParts, h]

theorem isRooted_ofParts {names : List Bytes} (hnames : ∀ q ∈ names, IsName q) :
    IsRooted (ofParts true names) := by
  have hresolved : Resolved true names.reverse :=
    .of_names fun q hq => hnames q (List.mem_reverse.mp hq)
  exact ⟨isAbsolute_ofParts hresolved, clean_ofParts hresolved⟩

theorem isRooted_clean (hp : isAbsolute p = true) : IsRooted (clean p) := by
  rw [clean, hp]
  exact isRooted_ofParts fun _ hq => isName_of_mem_parts hp hq

/-- What is joined to an absolute path stays absolute. -/
theorem isRooted_join (hroot : isAbsolute root = true) (q : Bytes) : IsRooted (join [root, q]) := by
  have hne : root ≠ [] := by
    rintro rfl
    cases hroot
  by_cases hq : q = []
  · have hjoin : join [root, q] = clean root := by simp [join, hne, hq, Bytes.joinWith]
    rw [hjoin]
    exact isRooted_clean hroot
  · have hjoin : join [root, q] = clean (root ++ [Bytes.slash] ++ q) := by
      simp [join, hne, hq, Bytes.joinWith]
    rw [hjoin, List.append_assoc]
    exact isRooted_clean (by rwa [isAbsolute_append hne])

theorem isRooted_absolute (hcwd : isAbsolute cwd = true) (p : Bytes) : IsRooted (absolute cwd p) := by
  rw [absolute]
  split_ifs with hp
  · exact isRooted_clean hp
  · exact isRooted_join hcwd p

theorem isRooted_directory (hp : isAbsolute p = true) : IsRooted (directory p) := by
  have hslash : Bytes.slash ∈ p := List.mem_of_mem_head? (beq_iff_eq.mp hp)
  obtain ⟨before, last, hcut, hsplit⟩ := Bytes.exists_cutAtLast hslash
  have habsolute : isAbsolute (before ++ [Bytes.slash]) = true := by
    rw [hsplit] at hp
    cases before with
    | nil => rfl
    | cons b before => exact hp
  rw [directory, hcut]
  exact isRooted_clean habsolute

end

/-! ### Paths of paths -/

section

variable {cwd n p : Bytes} {acc done names ps : List Bytes}

/-- **Parts can be resolved by themselves first.** Resolving them below the root then gives the same. -/
theorem resolve_resolve (hacc : ∀ d ∈ acc, ¬ (d.isEmpty || d == dot) = true) :
    resolve true done (resolve false acc ps).reverse =
      resolve true (resolve true done acc.reverse) ps := by
  induction ps generalizing acc with
  | nil => rfl
  | cons p ps ih =>
    by_cases hskip : (p.isEmpty || p == dot) = true
    · rw [resolve_skipped hskip, resolve_skipped hskip, ih hacc]
    by_cases hup : p = dotDot
    · subst hup
      have hups : ∀ d ∈ dotDot :: acc, ¬ (d.isEmpty || d == dot) = true :=
        List.forall_mem_cons.mpr ⟨hskip, hacc⟩
      -- A step up stays in the first resolution, or it takes back a name there.
      have hstay : resolve true done (resolve false (dotDot :: acc) ps).reverse =
          resolve true (resolve true done acc.reverse) (dotDot :: ps) := by
        rw [ih hups, List.reverse_cons, resolve_append, ← resolve_append [dotDot],
          List.singleton_append]
      cases acc with
      | nil => exact hstay
      | cons d acc =>
        obtain ⟨hd, hacc⟩ := List.forall_mem_cons.mp hacc
        by_cases hdup : d = dotDot
        · subst hdup
          exact hstay
        · have hdup' : ¬ (d == dotDot) = true := by simpa using hdup
          have hback : resolve false (d :: acc) (dotDot :: ps) = resolve false acc ps := by
            show resolve false (if d == dotDot then _ else _) ps = _
            rw [if_neg hdup']
          have hforth : resolve true done (d :: acc).reverse = d :: resolve true done acc.reverse := by
            rw [List.reverse_cons, resolve_append, resolve_pushed hd hdup']
            rfl
          have htaken : resolve true (d :: resolve true done acc.reverse) (dotDot :: ps) =
              resolve true (resolve true done acc.reverse) ps := by
            show resolve true (if d == dotDot then _ else _) ps = _
            rw [if_neg hdup']
          rw [hback, ih hacc, hforth, htaken]
    · have hup' : ¬ (p == dotDot) = true := by simpa using hup
      have hpush : ∀ d ∈ p :: acc, ¬ (d.isEmpty || d == dot) = true :=
        List.forall_mem_cons.mpr ⟨hskip, hacc⟩
      rw [resolve_pushed hskip hup', ih hpush, List.reverse_cons, resolve_append,
        ← resolve_append [p], List.singleton_append]

theorem parts_clean (p : Bytes) : parts (clean p) = parts p := parts_ofParts (resolved_parts p)

/-- The parts of a relative path below the working directory. -/
theorem parts_absolute (hcwd : isAbsolute cwd = true) (hn : isAbsolute n = false) :
    parts (absolute cwd n) = (resolve true (parts cwd).reverse (n.splitOn Bytes.slash)).reverse := by
  have hne : cwd ≠ [] := by
    rintro rfl
    cases hcwd
  have hparts : (parts cwd).reverse = resolve true [] (cwd.splitOn Bytes.slash) := by
    rw [parts, List.reverse_reverse, hcwd]
  rw [absolute, if_neg (by rw [hn]; decide)]
  by_cases hempty : n = []
  · have hjoin : join [cwd, n] = clean cwd := by simp [join, hne, hempty, Bytes.joinWith]
    have hnone : resolve true (parts cwd).reverse (n.splitOn Bytes.slash) = (parts cwd).reverse := by
      rw [hempty]
      rfl
    rw [hjoin, parts_clean, hnone, List.reverse_reverse]
  · have hjoin : join [cwd, n] = clean (cwd ++ Bytes.slash :: n) := by
      simp [join, hne, hempty, Bytes.joinWith]
    rw [hjoin, parts_clean, parts, isAbsolute_append hne, hcwd, Bytes.splitOn_append_cons,
      resolve_append, hparts]

/-- **Names joined to a path, as seen from the root**, are the last parts of what the path is there. -/
theorem absolute_join_names (hcwd : isAbsolute cwd = true) (hne : names ≠ [])
    (hnames : ∀ q ∈ names, IsName q) :
    absolute cwd (join [n, Bytes.joinWith [Bytes.slash] names]) =
      ofParts true (parts (absolute cwd n) ++ names) := by
  have hresolved := resolved_append n hnames
  have hrooted : isAbsolute (ofParts (isAbsolute n) (parts n ++ names)) = isAbsolute n :=
    isAbsolute_ofParts hresolved
  rw [join_names n hne hnames]
  cases hn : isAbsolute n with
  | true =>
    rw [hn] at hresolved hrooted
    have hpath : absolute cwd n = clean n := by rw [absolute, if_pos hn]
    rw [absolute, if_pos hrooted, clean_ofParts hresolved, hpath, parts_clean]
  | false =>
    rw [hn] at hresolved hrooted
    -- Rooted paths are equal if their parts are. Resolving the parts of `n` twice is resolving them
    -- once.
    refine (isRooted_absolute hcwd _).ext (isRooted_ofParts ?_) ?_
    · refine List.forall_mem_append.mpr ⟨(isRooted_absolute hcwd n).isName, hnames⟩
    have hsplit : (ofParts false (parts n ++ names)).splitOn Bytes.slash = parts n ++ names := by
      rw [ofParts, if_neg Bool.false_ne_true, if_neg (by simp [hne])]
      exact Bytes.splitOn_joinWith (by simp [hne]) fun q hq =>
        hresolved.slash_notMem q (List.mem_reverse.mpr hq)
    have hparts : parts n = (resolve false [] (n.splitOn Bytes.slash)).reverse := by rw [parts, hn]
    have hnames' : Resolved true (parts (absolute cwd n) ++ names).reverse := by
      rw [List.reverse_append]
      exact .append (fun q hq => hnames q (List.mem_reverse.mp hq))
        (.of_names fun q hq => (isRooted_absolute hcwd n).isName q (List.mem_reverse.mp hq))
    rw [parts_absolute hcwd hrooted, hsplit, parts_ofParts hnames', resolve_append,
      resolve_names hnames, List.reverse_append, List.reverse_reverse, parts_absolute hcwd hn, hparts,
      resolve_resolve (by simp)]
    rfl

end

/-! ### Lengths -/

section

variable {p : Bytes} {done ps : List Bytes}

/-- The length of parts with a slash behind each. -/
def spelled : List Bytes → Nat
  | [] => 0
  | q :: ps => q.length + 1 + spelled ps

theorem spelled_cons (q : Bytes) : spelled (q :: ps) = q.length + 1 + spelled ps := rfl

theorem spelled_append (qs : List Bytes) : spelled (ps ++ qs) = spelled ps + spelled qs := by
  induction ps with
  | nil => exact (Nat.zero_add _).symm
  | cons p ps ih =>
    rw [List.cons_append, spelled_cons, spelled_cons, ih]
    omega

theorem spelled_reverse (ps : List Bytes) : spelled ps.reverse = spelled ps := by
  induction ps with
  | nil => rfl
  | cons p ps ih =>
    rw [List.reverse_cons, spelled_append, ih, spelled_cons, Nat.add_comm]
    rfl

theorem length_joinWith (hne : ps ≠ []) :
    (Bytes.joinWith [Bytes.slash] ps).length + 1 = spelled ps := by
  induction ps with
  | nil => exact absurd rfl hne
  | cons q ps ih =>
    cases ps with
    | nil => rfl
    | cons r rs =>
      rw [spelled_cons, ← ih (by simp), Bytes.joinWith, List.length_append, List.length_append,
        List.length_singleton, Nat.add_assoc]

theorem spelled_splitOn (s : Bytes) : spelled (s.splitOn Bytes.slash) = s.length + 1 := by
  induction s with
  | nil => rfl
  | cons c s ih =>
    rw [Bytes.splitOn]
    split_ifs with hc
    · rw [spelled_cons, ih, List.length_cons, List.length_nil]
      omega
    · obtain ⟨q, qs, hq⟩ := List.exists_cons_of_ne_nil (Bytes.splitOn_ne_nil Bytes.slash s)
      rw [hq, spelled_cons] at ih
      rw [hq]
      show spelled ((c :: q) :: qs) = _
      rw [spelled_cons, List.length_cons, List.length_cons]
      omega

/-- Resolving below the root can only leave parts out. -/
theorem spelled_resolve_le : spelled (resolve true done ps) ≤ spelled done + spelled ps := by
  induction ps generalizing done with
  | nil => exact Nat.le_refl _
  | cons p ps ih =>
    rw [spelled_cons]
    by_cases hskip : (p.isEmpty || p == dot) = true
    · rw [resolve_skipped hskip]
      exact Nat.le_trans ih (by omega)
    by_cases hup : p = dotDot
    · subst hup
      cases done with
      | nil =>
        show spelled (resolve true [] ps) ≤ _
        exact Nat.le_trans ih (by omega)
      | cons d ds =>
        show spelled (resolve true (if d == dotDot then _ else _) ps) ≤ _
        -- The part that leads up takes the last name with it, or is added to others like it.
        split_ifs with hd
        · refine Nat.le_trans ih ?_
          rw [spelled_cons]
          omega
        · refine Nat.le_trans ih ?_
          rw [spelled_cons]
          omega
    · rw [resolve_pushed hskip (by simpa using hup)]
      refine Nat.le_trans ih ?_
      rw [spelled_cons]
      omega

/-- **Cleaning makes no path longer.** -/
theorem length_clean_le (hp : isAbsolute p = true) : (clean p).length ≤ p.length := by
  obtain ⟨s, rfl⟩ := exists_of_isAbsolute hp
  have hsplit : Bytes.splitOn Bytes.slash (Bytes.slash :: s) = [] :: Bytes.splitOn Bytes.slash s :=
    Bytes.splitOn_append_cons Bytes.slash [] s
  rw [clean, hp, ofParts, if_pos rfl, List.length_cons, List.length_cons]
  by_cases hnone : parts (Bytes.slash :: s) = []
  · rw [hnone]
    exact Nat.succ_le_succ (Nat.zero_le _)
  · have hlength := length_joinWith hnone
    have hreverse : spelled (parts (Bytes.slash :: s)) =
        spelled (resolve true [] (Bytes.splitOn Bytes.slash s)) := by
      rw [parts, hp, hsplit, resolve_skipped (by simp), spelled_reverse]
    have hle : spelled (resolve true [] (Bytes.splitOn Bytes.slash s)) ≤
        spelled [] + spelled (Bytes.splitOn Bytes.slash s) := spelled_resolve_le
    rw [spelled_splitOn] at hle
    have hnil : spelled [] = 0 := rfl
    omega

end

end Path

end EmphasisSpacing
