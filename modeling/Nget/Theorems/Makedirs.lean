import Nget.Path

/-! Paths are taken apart name by name, and put together again they are the same up to repeated and trailing
    separators; so what `makedirs` makes is what is missing on the way. -/

namespace Nget
open CString
variable {p q head tail t : Text} {d : Dirs}

/-! ### The names of a path -/

/-- What stands between separators. -/
def IsName (t : Text) : Prop := t ≠ [] ∧ '/' ∉ t

theorem split_append_sep {sep : Char} {b : Text} : ∀ a : Text, split sep (a ++ sep :: b) = split sep a ++ split sep b
  | [] => by simp [split]
  | c :: a => by
    rw [List.cons_append, split, split, split_append_sep a]
    split
    · rfl
    · obtain ⟨t, rest, -, hsplit⟩ := @goodstrtok_split sep a
      rw [hsplit]
      rfl

@[simp] theorem pathNames_nil : pathNames [] = [] := rfl

theorem pathNames_append : pathNames (p ++ '/' :: q) = pathNames p ++ pathNames q := by
  unfold pathNames
  rw [split_append_sep, List.filter_append]

theorem pathNames_sep : pathNames ('/' :: p) = pathNames p := @pathNames_append [] p

theorem pathNames_trailing : pathNames (p ++ ['/']) = pathNames p := by
  rw [@pathNames_append p [], pathNames_nil, List.append_nil]

theorem IsName.pathNames (h : IsName t) : pathNames t = [t] := by
  unfold Nget.pathNames
  rw [split_of_not_mem h.2]
  simp [h.1]

theorem isName_of_mem (h : t ∈ pathNames p) : IsName t := by
  obtain ⟨hmem, hne⟩ := List.mem_filter.mp h
  exact ⟨by simpa using hne, (mem_split hmem).1⟩

/-- The path without repeated and trailing separators. -/
def normalPath (p : Text) : Text := (if isAbspath p then ['/'] else []) ++ joinWith '/' (pathNames p)

/-- Two paths that differ in repeated and trailing separators. -/
structure SamePath (p q : Text) : Prop where
  isAbspath : isAbspath p = isAbspath q
  names : pathNames p = pathNames q

theorem SamePath.normalPath (h : SamePath p q) : normalPath p = normalPath q := by
  unfold Nget.normalPath
  rw [h.isAbspath, h.names]

theorem isAbspath_append (hp : p ≠ []) : isAbspath (p ++ q) = isAbspath p := by
  cases p with
  | nil => exact absurd rfl hp
  | cons c p => rfl

/-! ### Taking a path apart -/

/-- What `path_split` does with a path: a name is taken off what stays, or nothing stays and the tail is the path. -/
def SplitOff (p head tail : Text) : Prop :=
  (head = [] ∧ SamePath tail p ∧ tail = normalPath p ∧ (pathNames p).length ≤ 1) ∨
    head ≠ [] ∧ isAbspath head = isAbspath p ∧ pathNames p = pathNames head ++ [tail] ∧ IsName tail

theorem SplitOff.samePath (h : SplitOff p head tail) (hsame : SamePath p q) : SplitOff q head tail := by
  rcases h with ⟨hhead, htail, hnormal, hlen⟩ | ⟨hhead, habs, hnames, htail⟩
  · exact Or.inl ⟨hhead, ⟨htail.isAbspath.trans hsame.isAbspath, htail.names.trans hsame.names⟩,
      hnormal.trans hsame.normalPath, hsame.names ▸ hlen⟩
  · exact Or.inr ⟨hhead, habs.trans hsame.isAbspath, hsame.names ▸ hnames, htail⟩

/-- A name is a path of its own, also behind the root. -/
theorem normalPath_name (h : '/' ∉ t) : normalPath t = t ∧ normalPath ('/' :: t) = '/' :: t ∧ (pathNames t).length ≤ 1 := by
  rcases eq_or_ne t [] with rfl | hne
  · exact ⟨rfl, rfl, Nat.zero_le 1⟩
  · have hname : IsName t := ⟨hne, h⟩
    have habs : isAbspath t = false := by
      cases t with
      | nil => rfl
      | cons c t => simpa [isAbspath] using fun hc : c = '/' => h (hc ▸ List.mem_cons_self)
    unfold normalPath
    rw [pathNames_sep, hname.pathNames, habs]
    exact ⟨rfl, rfl, le_rfl⟩

theorem pathSplitLoop_spec : ∀ (rhead tail : Text), '/' ∉ tail →
    SplitOff (rhead.reverse ++ tail) (pathSplitLoop rhead tail).1 (pathSplitLoop rhead tail).2 ∧
      (pathSplitLoop rhead tail).1.length ≤ rhead.length - 1
  | [], tail, htail => by
    obtain ⟨hnormal, -, hlen⟩ := normalPath_name htail
    exact ⟨Or.inl ⟨rfl, ⟨rfl, rfl⟩, hnormal.symm, hlen⟩, le_rfl⟩
  | c :: rhead, tail, htail => by
    rw [List.reverse_cons, List.append_assoc, List.singleton_append]
    unfold pathSplitLoop
    by_cases hc : isPathsep c
    · obtain rfl : c = '/' := by simpa [isPathsep] using hc
      rw [if_pos hc]
      dsimp only
      cases rhead with
      | nil =>
        obtain ⟨-, hnormal, hlen⟩ := normalPath_name htail
        exact ⟨Or.inl ⟨rfl, ⟨rfl, rfl⟩, hnormal.symm, pathNames_sep ▸ hlen⟩, Nat.zero_le _⟩
      | cons x rhead =>
        have hne : (x :: rhead).reverse ≠ [] := by simp
        rw [List.isEmpty_cons, if_neg Bool.false_ne_true]
        cases tail with
        | nil =>
          -- Separators at the end are dropped.
          obtain ⟨hsplit, hlen⟩ := pathSplitLoop_spec (x :: rhead) [] htail
          rw [List.isEmpty_nil, if_pos rfl]
          rw [List.append_nil] at hsplit
          exact ⟨hsplit.samePath ⟨(isAbspath_append hne).symm, pathNames_trailing.symm⟩, hlen.trans (Nat.sub_le _ _)⟩
        | cons y tail =>
          have hname : IsName (y :: tail) := ⟨by simp, htail⟩
          rw [List.isEmpty_cons, if_neg Bool.false_ne_true]
          exact ⟨Or.inr ⟨hne, (isAbspath_append hne).symm, by rw [pathNames_append, hname.pathNames], hname⟩, by simp⟩
    · have hne : c ≠ '/' := by simpa [isPathsep] using hc
      obtain ⟨hsplit, hlen⟩ := pathSplitLoop_spec rhead (c :: tail) (by simp [Ne.symm hne, htail])
      rw [if_neg hc]
      exact ⟨hsplit, by simp only [List.length_cons]; omega⟩

theorem pathSplit_spec (hp : p ≠ []) : SplitOff p (pathSplit p).1 (pathSplit p).2 ∧ (pathSplit p).1.length < p.length := by
  obtain ⟨hsplit, hlen⟩ := pathSplitLoop_spec p.reverse [] List.not_mem_nil
  rw [List.reverse_reverse, List.append_nil] at hsplit
  rw [List.length_reverse] at hlen
  exact ⟨hsplit, hlen.trans_lt (Nat.sub_lt (List.length_pos_iff.mpr hp) Nat.one_pos)⟩

/-! ### Putting it together -/

theorem pathAppend_nil : pathAppend [] t = t := rfl

theorem pathAppend_sep : pathAppend (p ++ ['/']) t = p ++ '/' :: t := by
  simp [pathAppend, isPathsep]

theorem pathAppend_of_ne {c : Char} (hc : c ≠ '/') : pathAppend (p ++ [c]) t = p ++ [c] ++ '/' :: t := by
  simp [pathAppend, isPathsep, hc]

/-- A name goes to the end of a path. -/
theorem pathAppend_names (hp : p ≠ []) (ht : IsName t) :
    isAbspath (pathAppend p t) = isAbspath p ∧ pathNames (pathAppend p t) = pathNames p ++ [t] := by
  obtain ⟨init, c, rfl⟩ := (List.eq_nil_or_concat' p).resolve_left hp
  by_cases hc : c = '/'
  · subst hc
    rw [pathAppend_sep, pathNames_append, pathNames_trailing, ht.pathNames]
    refine ⟨?_, rfl⟩
    rw [List.append_cons]
    exact isAbspath_append (by simp)
  · rw [pathAppend_of_ne hc, pathNames_append, ht.pathNames]
    exact ⟨isAbspath_append (by simp), rfl⟩

theorem joinWith_append {sep : Char} {ts : List Text} (hts : ts ≠ []) :
    joinWith sep (ts ++ [t]) = joinWith sep ts ++ sep :: t := by
  induction ts with
  | nil => exact absurd rfl hts
  | cons u ts ih =>
    cases ts with
    | nil => rfl
    | cons v ts =>
      have ih := ih (by simp)
      rw [List.cons_append] at ih ⊢
      simp only [List.cons_append, joinWith] at ih ⊢
      rw [ih, List.append_assoc, List.cons_append]

/-- The last character of joined names is no separator. -/
theorem joinWith_getLast {ts : List Text} (hts : ts ≠ []) (hnames : ∀ u ∈ ts, IsName u) :
    ∃ s c, joinWith '/' ts = s ++ [c] ∧ c ≠ '/' := by
  obtain ⟨init, u, rfl⟩ := (List.eq_nil_or_concat' ts).resolve_left hts
  obtain ⟨hne, hsep⟩ := hnames u (by simp)
  obtain ⟨s, c, rfl⟩ := (List.eq_nil_or_concat' u).resolve_left hne
  have hc : c ≠ '/' := fun h => hsep (h ▸ by simp)
  rcases eq_or_ne init [] with rfl | hinit
  · exact ⟨s, c, rfl, hc⟩
  · exact ⟨joinWith '/' init ++ '/' :: s, c, by rw [joinWith_append hinit, List.append_assoc, List.cons_append], hc⟩

/-- A path without names is the root. -/
theorem isAbspath_of_names_nil (hp : p ≠ []) (hnil : pathNames p = []) : isAbspath p = true := by
  cases p with
  | nil => exact absurd rfl hp
  | cons c p =>
    by_contra hc
    have hc : c ≠ '/' := by simpa [isAbspath] using hc
    obtain ⟨u, rest, -, hsplit⟩ := @goodstrtok_split '/' p
    simp [pathNames, split, hc, hsplit] at hnil

theorem normalPath_pathAppend (hp : p ≠ []) (hq : isAbspath q = isAbspath p ∧ pathNames q = pathNames p ++ [t]) :
    pathAppend (normalPath p) t = normalPath q := by
  unfold normalPath
  rw [hq.1, hq.2]
  rcases eq_or_ne (pathNames p) [] with hnil | hne
  · rw [hnil, isAbspath_of_names_nil hp hnil]
    rfl
  · obtain ⟨s, c, hjoin, hc⟩ := joinWith_getLast hne fun _ => isName_of_mem
    rw [joinWith_append hne, hjoin, ← List.append_assoc, pathAppend_of_ne hc]
    simp

theorem pathNames_joinWith {ts : List Text} (hts : ∀ u ∈ ts, IsName u) : pathNames (joinWith '/' ts) = ts := by
  rcases eq_or_ne ts [] with rfl | hne
  · rfl
  · unfold pathNames
    rw [split_joinWith hne fun u hu => (hts u hu).2]
    exact List.filter_eq_self.mpr fun u hu => by simpa using (hts u hu).1

theorem normalPath_samePath : SamePath (normalPath p) p := by
  have hnames := @pathNames_joinWith (pathNames p) fun _ => isName_of_mem
  unfold normalPath
  cases habs : isAbspath p with
  | true => exact ⟨habs.symm, pathNames_sep.trans hnames⟩
  | false =>
    refine ⟨?_, hnames⟩
    rw [habs]
    rcases eq_or_ne (pathNames p) [] with hnil | hne
    · rw [hnil]
      rfl
    · obtain ⟨t, ts, hts⟩ := List.exists_cons_of_ne_nil hne
      have hname := isName_of_mem (hts ▸ List.mem_cons_self : t ∈ pathNames p)
      obtain ⟨c, u, rfl⟩ := List.exists_cons_of_ne_nil hname.1
      have hc : c ≠ '/' := fun h => hname.2 (h ▸ List.mem_cons_self)
      rw [hts]
      cases ts <;> simp [joinWith, isAbspath, hc]

/-! ### The loop that takes a path apart -/

/-- What is left of `head`, and the tails, when it is taken apart until nothing is left or `stop` holds. -/
inductive Peeled (stop : Text → Bool) : Text → Text → List Text → Prop where
  | stop {head : Text} : head = [] ∨ stop head = true → Peeled stop head head []
  | split {head rest : Text} {parts : List Text} : head ≠ [] → stop head = false →
      Peeled stop (pathSplit head).1 rest parts → Peeled stop head rest (parts ++ [(pathSplit head).2])

variable {stop : Text → Bool} {rest : Text} {parts acc : List Text} {rounds : Nat}

/-- Each round takes a character at least. -/
theorem splitLoop_peeled : ∀ (rounds : Nat) (head : Text) (acc : List Text), head.length < rounds →
    ∃ rest parts, splitLoop stop rounds head acc = some (rest, parts ++ acc) ∧ Peeled stop head rest parts
  | rounds + 1, head, acc, hrounds => by
    unfold splitLoop
    by_cases hstop : head = [] ∨ stop head = true
    · refine ⟨head, [], ?_, .stop hstop⟩
      rw [if_neg]
      · rfl
      · rcases hstop with rfl | hstop
        · simp
        · simp [hstop]
    · obtain ⟨hne, hgo⟩ := not_or.mp hstop
      have hgo : stop head = false := Bool.not_eq_true _ ▸ hgo
      have hlt := (pathSplit_spec hne).2
      obtain ⟨rest, parts, hloop, hpeeled⟩ :=
        splitLoop_peeled rounds (pathSplit head).1 ((pathSplit head).2 :: acc) (by omega)
      refine ⟨rest, _, ?_, .split hne hgo hpeeled⟩
      rw [if_pos (by simp [hne, hgo]), hloop, List.append_assoc, List.singleton_append]

theorem Peeled.of_nil (h : Peeled stop [] rest parts) : rest = [] ∧ parts = [] := by
  generalize hnil : ([] : Text) = head at h
  cases h with
  | stop _ => exact ⟨rfl, rfl⟩
  | split hne _ _ => exact absurd hnil.symm hne

/-- The tails are joined to the path that was taken apart. -/
theorem Peeled.foldl_pathAppend (h : Peeled (fun _ => false) head rest parts) :
    rest = [] ∧ parts.foldl pathAppend [] = normalPath head := by
  generalize hstop : (fun _ => false : Text → Bool) = stop at h
  induction h with
  | stop hend =>
    subst hstop
    obtain rfl := hend.resolve_right Bool.false_ne_true
    exact ⟨rfl, rfl⟩
  | @split head rest parts hne hgo hpeeled ih =>
    obtain ⟨hrest, hjoin⟩ := ih
    refine ⟨hrest, ?_⟩
    rw [List.foldl_append, hjoin, List.foldl_cons, List.foldl_nil]
    rcases (pathSplit_spec hne).1 with ⟨hnil, -, htail, -⟩ | ⟨hhead, habs, hnames, -⟩
    · rw [hnil, htail]
      rfl
    · exact normalPath_pathAppend hhead ⟨habs.symm, hnames⟩

theorem Peeled.countLoop (h : Peeled d.direxists head rest parts) : ∀ {rounds count : Nat}, head.length < rounds →
    countLoop d rounds head count = some (count + parts.length) := by
  induction h with
  | stop hend =>
    intro rounds count hrounds
    obtain ⟨rounds, rfl⟩ := Nat.exists_eq_succ_of_ne_zero (Nat.ne_zero_of_lt hrounds)
    unfold Nget.countLoop
    rw [if_neg]
    · rfl
    · rcases hend with rfl | hend
      · simp
      · simp [hend]
  | @split head rest parts hne hgo hpeeled ih =>
    intro rounds count hrounds
    obtain ⟨rounds, rfl⟩ := Nat.exists_eq_succ_of_ne_zero (Nat.ne_zero_of_lt hrounds)
    have hlt := (pathSplit_spec hne).2
    unfold Nget.countLoop
    rw [if_pos (by simp [hne, hgo]), ih (by omega), List.length_append, List.length_singleton]
    exact congrArg some (by omega)

/-! ### Making directories -/

/-- No name of the path is `.` or `..`. -/
def PlainNames (ns : List Text) : Prop := ∀ c ∈ ns, c ≠ ".".toList ∧ c ≠ "..".toList

instance {ns : List Text} :
  Decidable (PlainNames ns) := inferInstanceAs (Decidable (∀ c ∈ ns, c ≠ ".".toList ∧ c ≠ "..".toList))

namespace Dirs

theorem start_mem : d.start p ∈ d.tree.dirs := by
  unfold start
  split
  · exact d.tree.root_mem
  · exact d.cwd_mem

theorem resolve_eq_walk : ∀ {ns at' : List Text}, PlainNames ns → d.resolve at' ns = d.tree.walk at' ns
  | [], _, _ => rfl
  | c :: ns, at', h => by
    obtain ⟨hdot, hdotdot⟩ := h c List.mem_cons_self
    unfold resolve DirTree.walk
    rw [if_neg hdot, if_neg hdotdot, resolve_eq_walk fun c hc => h c (List.mem_cons_of_mem _ hc)]

theorem resolve_eq {ns at' : List Text} (h : PlainNames ns) (hat : at' ∈ d.tree.dirs) :
    d.resolve at' ns = if d.tree.has (at' ++ ns) then some (at' ++ ns) else none :=
  (resolve_eq_walk h).trans (DirTree.walk_eq hat)

/-- Where the path leads. -/
def target (d : Dirs) (p : Text) : List Text := d.start p ++ pathNames p

theorem direxists_iff (h : PlainNames (pathNames p)) : d.direxists p = true ↔ p ≠ [] ∧ d.target p ∈ d.tree.dirs := by
  unfold direxists target
  rw [resolve_eq h start_mem]
  rw [← DirTree.has_iff]
  split
  · next hmem => simp [hmem]
  · next hmem => simp [hmem]

/-- A new directory in a directory is made. -/
theorem mkdir_eq {ns : List Text} {c : Text} (hplain : PlainNames (pathNames p)) (hnames : pathNames p = ns ++ [c])
    (hparent : d.start p ++ ns ∈ d.tree.dirs) (hnew : d.target p ∉ d.tree.dirs) (hperm : d.permitted (d.target p) = true) :
    ∃ d', d.mkdir p = some d' ∧ d'.tree.dirs = d.tree.dirs ++ [d.target p] ∧ d'.cwd = d.cwd ∧ d'.permitted = d.permitted := by
  have htarget : d.target p = d.start p ++ ns ++ [c] := by rw [target, hnames, List.append_assoc]
  rw [hnames] at hplain
  rw [htarget] at hnew hperm ⊢
  obtain ⟨hdot, hdotdot⟩ := hplain c (by simp)
  have hresolve : d.resolve (d.start p) ns = some (d.start p ++ ns) := by
    rw [resolve_eq (fun u hu => hplain u (List.mem_append_left _ hu)) start_mem, if_pos (DirTree.has_iff.mpr hparent)]
  rw [← DirTree.has_iff, Bool.not_eq_true] at hnew
  have hadd := @DirTree.add_dirs _ _ _ c _ hparent
  unfold mkdir
  rw [hnames, List.getLast?_concat, List.dropLast_concat]
  dsimp only
  rw [hresolve]
  dsimp only
  rw [decide_eq_false hdot, decide_eq_false hdotdot, hnew, hperm, if_neg (by decide)]
  exact ⟨_, rfl, hadd, rfl, rfl⟩

end Dirs

theorem createLoop_append {t : Text} : ∀ {parts : List Text} {d : Dirs} {head : Text} {calls calls' : List Text} {d' : Dirs},
    createLoop d head parts calls = (0, calls', d') →
      createLoop d head (parts ++ [t]) calls = createLoop d' (parts.foldl pathAppend head) [t] calls'
  | [], _, _, _, _, _, h => by
    cases h
    rfl
  | part :: parts, d, head, calls, calls', d', h => by
    rw [List.cons_append, createLoop, List.foldl_cons]
    unfold createLoop at h
    cases hmk : d.mkdir (pathAppend head part) with
    | none =>
      rw [hmk] at h
      cases h
    | some d₁ =>
      rw [hmk] at h
      exact createLoop_append h

/-- Of a path whose last name is missing, the directory is made once those before it are. -/
theorem Dirs.mkdir_last {d₁ : Dirs} {path c : Text} {ns : List Text} (hplain : PlainNames (pathNames p))
    (hnames : pathNames p = ns ++ [c]) (hnew : d.target p ∉ d.tree.dirs) (hperm : ∀ q, d.permitted q = true)
    (hdirs : d₁.tree.dirs = d.tree.dirs ++ d.tree.missing (d.start p) ns) (hcwd : d₁.cwd = d.cwd)
    (hpermitted : d₁.permitted = d.permitted) (hpath : isAbspath path = isAbspath p ∧ pathNames path = pathNames p) :
    ∃ d', d₁.mkdir path = some d' ∧ d'.tree.dirs = d.tree.dirs ++ d.tree.missing (d.start p) (pathNames p) ∧
      d'.cwd = d.cwd ∧ d'.permitted = d.permitted := by
  have hstart : d₁.start path = d.start p := by rw [start, start, hpath.1, hcwd]
  have htarget : d₁.target path = d.target p := by rw [target, target, hstart, hpath.2]
  have hlast : d.target p = d.start p ++ ns ++ [c] := by rw [target, hnames, List.append_assoc]
  have hparent : d₁.start path ++ ns ∈ d₁.tree.dirs := by
    rw [hstart, hdirs]
    exact DirTree.mem_append_missing start_mem
  have hnew₁ : d₁.target path ∉ d₁.tree.dirs := by
    rw [htarget, hdirs, List.mem_append, not_or]
    refine ⟨hnew, fun hmem => ?_⟩
    -- What was missing before is shorter.
    have hle := DirTree.length_le_of_mem_passed (List.mem_of_mem_filter hmem)
    rw [hlast, List.length_append, List.length_append, List.length_singleton] at hle
    omega
  obtain ⟨d', hmk, hdirs', hcwd', hpermitted'⟩ :=
    mkdir_eq (hpath.2 ▸ hplain) (hpath.2.trans hnames) hparent hnew₁ (hpermitted ▸ hperm _)
  refine ⟨d', hmk, ?_, hcwd'.trans hcwd, hpermitted'.trans hpermitted⟩
  rw [hdirs', htarget, hdirs, List.append_assoc, hnames, DirTree.missing_append (hlast ▸ hnew), hlast]

/-- The directories that the calls of `mkdir` have made are those that were missing on the way to `p`, in the
    order of the way; `path` is `p` put together again. -/
structure Made (d : Dirs) (p path : Text) (calls : List Text) (d' : Dirs) : Prop where
  calls : calls.map d.target = d.tree.missing (d.start p) (pathNames p)
  dirs : d'.tree.dirs = d.tree.dirs ++ d.tree.missing (d.start p) (pathNames p)
  cwd : d'.cwd = d.cwd
  permitted : d'.permitted = d.permitted
  ne_nil : path ≠ []
  path : isAbspath path = isAbspath p ∧ pathNames path = pathNames p

/-- Made in the order of the path, the tails are what is missing on the way. -/
theorem Peeled.made (h : Peeled d.direxists head rest parts) (hplain : PlainNames (pathNames head))
    (hperm : ∀ q, d.permitted q = true) (hne : head ≠ []) :
    ∃ calls d', createLoop d rest parts [] = (0, calls, d') ∧ calls.length = parts.length ∧
      Made d head (parts.foldl pathAppend rest) calls d' := by
  induction h with
  | stop hend =>
    have hmem := ((Dirs.direxists_iff hplain).mp (hend.resolve_left hne)).2
    have hnone := DirTree.missing_eq_nil hmem
    exact ⟨[], d, rfl, rfl, by rw [hnone]; rfl, by rw [hnone, List.append_nil], rfl, rfl, hne, rfl, rfl⟩
  | @split head rest parts _ hgo hpeeled ih =>
    have hnew : d.target head ∉ d.tree.dirs := fun hmem => by
      rw [(Dirs.direxists_iff hplain).mpr ⟨hne, hmem⟩] at hgo
      cases hgo
    rcases (pathSplit_spec hne).1 with ⟨hnil, hsame, -, hlen⟩ | ⟨hhead, habs, hnames, hname⟩
    · -- The tail is all of the path, and its only name is missing.
      rw [hnil] at hpeeled
      obtain ⟨rfl, rfl⟩ := hpeeled.of_nil
      generalize (pathSplit head).2 = tail at hsame
      obtain ⟨c, hc⟩ : ∃ c, pathNames head = [] ++ [c] := by
        refine List.length_eq_one_iff.mp (le_antisymm hlen (List.length_pos_iff.mpr fun hnone => hnew ?_))
        rw [Dirs.target, hnone, List.append_nil]
        exact Dirs.start_mem
      have hroot : d.tree.missing (d.start head) [] = [] := rfl
      obtain ⟨d', hmk, hdirs, hcwd, hpermitted⟩ := @Dirs.mkdir_last head d d tail c [] hplain hc hnew hperm
        (by rw [hroot, List.append_nil]) rfl rfl ⟨hsame.isAbspath, hsame.names⟩
      refine ⟨[tail], d', ?_, rfl, ?_, hdirs, hcwd, hpermitted, ?_, hsame.isAbspath, hsame.names⟩
      · simp [createLoop, pathAppend_nil, hmk]
      · rw [hc, DirTree.missing_append (by rwa [Dirs.target, hc, ← List.append_assoc] at hnew), hroot]
        simp [Dirs.target, Dirs.start, hsame.isAbspath, hsame.names, hc]
      · rintro rfl
        rw [← hsame.names, pathNames_nil] at hc
        cases hc
    · obtain ⟨calls, d₁, hloop, hlen, hmade⟩ := ih (fun c hc => hplain c (hnames ▸ List.mem_append_left _ hc)) hhead
      generalize (pathSplit head).2 = tail at hnames hname
      have hstart : d.start (pathSplit head).1 = d.start head := by rw [Dirs.start, Dirs.start, habs]
      have happend := pathAppend_names hmade.ne_nil hname
      have hpath : isAbspath (pathAppend (parts.foldl pathAppend rest) tail) = isAbspath head ∧
          pathNames (pathAppend (parts.foldl pathAppend rest) tail) = pathNames head :=
        ⟨happend.1.trans (hmade.path.1.trans habs), by rw [happend.2, hmade.path.2, hnames]⟩
      obtain ⟨d', hmk, hdirs, hcwd, hpermitted⟩ := Dirs.mkdir_last hplain hnames hnew hperm (hstart ▸ hmade.dirs) hmade.cwd
        hmade.permitted hpath
      refine ⟨calls ++ [pathAppend (parts.foldl pathAppend rest) tail], d', ?_, by simp [hlen], ?_⟩
      · rw [createLoop_append hloop]
        simp [createLoop, hmk]
      · rw [List.foldl_append, List.foldl_cons, List.foldl_nil]
        refine ⟨?_, hdirs, hcwd, hpermitted, ?_, hpath⟩
        · have hlast : d.start head ++ pathNames (pathSplit head).1 ++ [tail] ∉ d.tree.dirs := by
            rwa [Dirs.target, hnames, ← List.append_assoc] at hnew
          rw [List.map_append, hmade.calls, hnames, DirTree.missing_append hlast, hstart]
          simp [Dirs.target, Dirs.start, hpath.1, hpath.2, hnames]
        · intro hnil
          rw [hnil, pathNames_nil] at hpath
          rw [← hpath.2] at hnames
          simp at hnames

/-- What is said of a path: it is taken apart and put together again, up to repeated and trailing separators;
    and `makedirs` makes as many directories as `missing_path_tail_count` says, which are those that are missing
    on the way, from the outermost in, after which the path exists. -/
def MakesPath (rounds : Nat) (d : Dirs) (p : Text) : Prop :=
  (∃ tails, splitLoop (fun _ => false) rounds p [] = some ([], tails) ∧ tails.foldl pathAppend [] = normalPath p) ∧
    ∃ calls d', makedirs rounds d p = some (0, calls, d') ∧ missingPathTailCount rounds d p = some calls.length ∧
      calls.map d.target = d.tree.missing (d.start p) (pathNames p) ∧ d'.direxists p = true

/-- The empty path is the only one without `.` and `..` that does not exist in the end. -/
theorem makedirs_makesPath (hplain : PlainNames (pathNames p)) (hperm : ∀ q, d.permitted q = true) (hrounds :
    p.length < rounds) :
    MakesPath rounds d p ↔ p ≠ [] := by
  constructor
  · rintro ⟨-, calls, d', -, -, -, hexists⟩ rfl
    cases hexists
  · intro hne
    obtain ⟨rest, tails, hsplit, hpeeled⟩ := @splitLoop_peeled (fun _ => false) rounds p [] hrounds
    obtain ⟨rfl, hjoin⟩ := hpeeled.foldl_pathAppend
    obtain ⟨rest, parts, hloop, hpeeled⟩ := @splitLoop_peeled d.direxists rounds p [] hrounds
    obtain ⟨calls, d', hcreate, hlen, hmade⟩ := hpeeled.made hplain hperm hne
    rw [List.append_nil] at hsplit hloop
    refine ⟨⟨tails, hsplit, hjoin⟩, calls, d', ?_, ?_, hmade.calls, (Dirs.direxists_iff hplain).mpr ⟨hne, ?_⟩⟩
    · rw [makedirs, hloop, Option.map_some]
      exact congrArg some hcreate
    · rw [missingPathTailCount, hpeeled.countLoop hrounds, Nat.zero_add, hlen]
    · have hstart : d'.start p = d.start p := by rw [Dirs.start, Dirs.start, hmade.cwd]
      rw [Dirs.target, hstart, hmade.dirs]
      exact DirTree.mem_append_missing Dirs.start_mem

/-- The root and a working directory in it, where everything is permitted. -/
def Dirs.bare : Dirs where
  tree := ⟨[[], ["w".toList]], by decide, by
    intro p c h
    rcases List.mem_cons.mp h with h | h
    · simp at h
    · obtain ⟨rfl, -⟩ := List.append_inj' (show p ++ [c] = [] ++ ["w".toList] from List.mem_singleton.mp h) rfl
      decide⟩
  cwd := ["w".toList]
  cwd_mem := by decide
  permitted _ := true

theorem makedirs_makesPath_three : MakesPath 9 .bare "/w//a/b/".toList ↔ "/w//a/b/".toList ≠ [] :=
  makedirs_makesPath (by decide) (fun _ => rfl) (by decide)

/-- Nothing is made for the empty path, and it does not exist. -/
theorem not_makesPath_empty : ¬MakesPath 1 .bare [] := by
  rintro ⟨-, calls, d', -, -, -, hexists⟩
  cases hexists

end Nget
